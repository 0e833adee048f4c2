import TreeQuery.Proofs.Token.Cover

/-!
# Proofs/Token/Gap — what the fragments of a text consist of

A gap is what no separator begins in: it has neither digits nor blanks nor punctuation, and at most
one quote, the last of the text, which nothing closes (`GapChar`, `Fragment.WellCut`).  A separator
is a numeral, a colon, a quoted text without a quote inside, a mark or a blank.

* Every fragment of a text is of that kind (`wellCut_of_mem_fragments`).
* Of two neighbours one is a separator (`isChain_fragments`).
* In front of a quoted text stands an even number of quotes (`even_count_of_quoted`).

All three are inductions over the cut.  Gaps that are empty stand in the cut as well and go with the
filter of `fragments`, so each is first stated of the cut and its gap at the front.
-/

namespace TreeQuery

namespace Separator

variable {c : Char} {cs rest text : List Char} {found : Separator}

/-- A number begins with every digit. -/
theorem unsigned?_ne_none_of_isDigit (hc : c.isDigit = true) : unsigned? (c :: cs) ≠ none := by
  have hwhole : (Text.spanDigits (c :: cs)).1 = c :: (Text.spanDigits cs).1 := by
    simp [Text.spanDigits, hc]
  simp only [unsigned?, hwhole]
  split <;> simp

theorem scan?_ne_none_of_isDigit (hc : c.isDigit = true) : scan? (c :: cs) ≠ none := by
  have hsign : ∀ d ∈ (c :: cs).head?, ¬ (d = '+' ∨ d = '-') := by
    rintro _ ⟨⟩ (rfl | rfl) <;> exact absurd hc (by decide)
  unfold scan?
  rw [number?_of_head hsign]
  split
  · exact Option.some_ne_none _
  · next hnone => exact absurd hnone (unsigned?_ne_none_of_isDigit hc)

/-- **Where no separator begins, there is a character of a gap.** -/
theorem gapChar_of_scan?_eq_none (h : scan? (c :: cs) = none) : GapChar c where
  notDigit := Bool.eq_false_iff.2 fun hc => scan?_ne_none_of_isDigit hc h
  notBlank := (head_of_scan?_eq_none h).1
  notColon := by
    rintro rfl
    exact absurd h (by simp [scan?_colon])
  notMark := (head_of_scan?_eq_none h).2

end Separator

namespace Fragment

/-- **What a fragment consists of.** -/
def WellCut : Fragment → Prop
  | .gap text => (∀ c ∈ text, GapChar c) ∧ text.count '"' ≤ 1
  | .separator found => found.WellCut

/-- Whether a fragment stands between two separators, or at an end. -/
def IsGap : Fragment → Prop
  | .gap _ => True
  | .separator _ => False

/-- Whether a fragment is a quoted text. -/
def IsQuoted : Fragment → Prop
  | .separator (.quoted _) => True
  | _ => False

end Fragment

section Cut

variable {c : Char} {cs rest : List Char} {found : Separator} {f : Fragment}

/-! ## The gap at the front -/

/-- What is kept of a text stands in it. -/
theorem mem_of_mem_cut {d : Char} (hf : f ∈ .gap (cut cs).1 :: (cut cs).2) (hd : d ∈ f.text) :
    d ∈ cs := by
  have hne : f.text ≠ [] := List.ne_nil_of_mem hd
  have hkept : f.text ∈ keptBy (.gap (cut cs).1 :: (cut cs).2) := by
    refine List.mem_map_of_mem (List.mem_filter.2 ⟨hf, ?_⟩)
    simpa using hne
  exact (covers_cut cs).flatten_sublist.subset (List.mem_flatten.2 ⟨f.text, hkept, hd⟩)

/-- A quote of a gap is the last of the text. -/
theorem quote_not_mem_of_scan?_eq_none (h : Separator.scan? ('"' :: cs) = none) : '"' ∉ cs :=
  fun hmem => Separator.scan?_quote_ne_none hmem h

/-! ## Every fragment -/

/-- **The cut of a text gives gaps of gap characters and separators of their kind.** -/
theorem wellCut_of_mem_cut (cs : List Char) :
    ∀ f ∈ .gap (cut cs).1 :: (cut cs).2, f.WellCut := by
  induction cs using cut_induction with
  | nil => simp [cut_nil, Fragment.WellCut]
  | gap c cs hscan ih =>
    obtain ⟨⟨hgap, hquotes⟩, hlater⟩ := List.forall_mem_cons.1 ih
    rw [cut_cons hscan]
    refine List.forall_mem_cons.2 ⟨⟨List.forall_mem_cons.2
      ⟨Separator.gapChar_of_scan?_eq_none hscan, hgap⟩, ?_⟩, hlater⟩
    by_cases hc : c = '"'
    · subst hc
      have hnone : '"' ∉ (cut cs).1 := fun hmem =>
        quote_not_mem_of_scan?_eq_none hscan (mem_of_mem_cut List.mem_cons_self hmem)
      simp [List.count_eq_zero_of_not_mem hnone]
    · simpa [hc] using hquotes
  | separator cs found rest hscan ih =>
    have hfound := (Separator.foundAt_of_scan? hscan).wellCut
    rw [cut_of_scan? hscan]
    exact List.forall_mem_cons.2 ⟨by simp [Fragment.WellCut],
      List.forall_mem_cons.2 ⟨hfound, ih⟩⟩

theorem wellCut_of_mem_fragments (hf : f ∈ fragments cs) : f.WellCut ∧ f.text ≠ [] := by
  obtain ⟨hf, hne⟩ := List.mem_filter.1 hf
  exact ⟨wellCut_of_mem_cut _ f hf, by simpa using hne⟩

/-! ## Neighbours -/

/-- **Two fragments have a separator between them or are one themselves.** -/
def Fragment.Parted (f g : Fragment) : Prop := ¬ (f.IsGap ∧ g.IsGap)

/-- In front of a separator a gap may stand or not. -/
theorem isChain_cons_gap {fragments : List Fragment} (gap : List Char)
    (hchain : (fragments.filter fun f => !f.text.isEmpty).IsChain Fragment.Parted)
    (hhead : ∀ f ∈ (fragments.filter fun f => !f.text.isEmpty).head?, ¬ f.IsGap) :
    ((.gap gap :: fragments).filter fun f => !f.text.isEmpty).IsChain Fragment.Parted := by
  rw [List.filter_cons]
  split
  · exact List.isChain_cons.2 ⟨fun f hf hgaps => hhead f hf hgaps.2, hchain⟩
  · exact hchain

/-- Behind the gap at the front separators and gaps take turns, a separator first. -/
theorem isChain_cut (cs : List Char) :
    ((cut cs).2.filter fun f => !f.text.isEmpty).IsChain Fragment.Parted ∧
      ∀ f ∈ ((cut cs).2.filter fun f => !f.text.isEmpty).head?, ¬ f.IsGap := by
  induction cs using cut_induction with
  | nil => simp [cut_nil]
  | gap c cs hscan ih => rwa [cut_cons hscan]
  | separator cs found rest hscan ih =>
    have hne := (Separator.foundAt_of_scan? hscan).text_ne_nil
    have hlater := isChain_cons_gap (cut rest).1 ih.1 ih.2
    rw [cut_of_scan? hscan, List.filter_cons_of_pos (by simpa [Fragment.text] using hne)]
    refine ⟨List.isChain_cons.2 ⟨fun _ _ hgaps => hgaps.1, hlater⟩, ?_⟩
    rintro _ ⟨⟩
    exact id

/-- **Of two neighbouring fragments one is a separator.** -/
theorem isChain_fragments (cs : List Char) : (fragments cs).IsChain Fragment.Parted :=
  isChain_cons_gap _ (isChain_cut _).1 (isChain_cut _).2

/-! ## Quotes -/

/-- The quotes of the first of two fragments are closed if the second is a quoted text. -/
def Fragment.Closes (f g : Fragment) : Prop := g.IsQuoted → Even (f.text.count '"')

theorem Fragment.IsQuoted.mem (h : f.IsQuoted) : '"' ∈ f.text := by
  match f, h with
  | .separator (.quoted body), _ => exact List.mem_cons_self

theorem pairwise_closes_cut (cs : List Char) :
    (.gap (cut cs).1 :: (cut cs).2).Pairwise Fragment.Closes := by
  induction cs using cut_induction with
  | nil => simp [cut_nil]
  | gap c cs hscan ih =>
    obtain ⟨hgap, hlater⟩ := List.pairwise_cons.1 ih
    rw [cut_cons hscan]
    refine List.pairwise_cons.2 ⟨fun g hg hquoted => ?_, hlater⟩
    by_cases hc : c = '"'
    · subst hc
      exact absurd (mem_of_mem_cut (List.mem_cons_of_mem _ hg) hquoted.mem)
        (quote_not_mem_of_scan?_eq_none hscan)
    · simpa [Fragment.text, hc] using hgap g hg hquoted
  | separator cs found rest hscan ih =>
    have heven := (Separator.foundAt_of_scan? hscan).wellCut.even_count
    rw [cut_of_scan? hscan]
    exact List.pairwise_cons.2 ⟨fun _ _ _ => by simp [Fragment.text],
      List.pairwise_cons.2 ⟨fun _ _ _ => heven, ih⟩⟩

theorem even_count_flatten {d : Char} : ∀ {pieces : List (List Char)},
    (∀ piece ∈ pieces, Even (piece.count d)) → Even (pieces.flatten.count d)
  | [], _ => by simp
  | piece :: pieces, h => by
    obtain ⟨hpiece, hpieces⟩ := List.forall_mem_cons.1 h
    rw [List.flatten_cons, List.count_append]
    exact hpiece.add (even_count_flatten hpieces)

/-- **In front of a quoted text an even number of quotes is kept.** -/
theorem even_count_of_quoted {front back : List Fragment} (h : fragments cs = front ++ f :: back)
    (hf : f.IsQuoted) : Even ((front.map Fragment.text).flatten.count '"') := by
  have hpairwise : (fragments cs).Pairwise Fragment.Closes :=
    (pairwise_closes_cut (Text.trim cs)).filter fun f : Fragment => !f.text.isEmpty
  rw [h] at hpairwise
  have hfront := (List.pairwise_append.1 hpairwise).2.2
  refine even_count_flatten fun piece hpiece => ?_
  obtain ⟨g, hg, rfl⟩ := List.mem_map.1 hpiece
  exact hfront g hg f List.mem_cons_self hf

end Cut

end TreeQuery
