import Mathlib.Data.List.Forall2
import TreeQuery.Proofs.Text.Respaced
import TreeQuery.Proofs.Token.Gap
import TreeQuery.Proofs.Token.Boundary

/-!
# Proofs/Token/Respaced — which blanks a text has makes no difference to its tokens

A run of blanks is taken by a mark, or trimmed at an end, or becomes one operator that holds its
last character.  Which of them depends on what stands around the run and not on what it consists of.
So texts that are the same up to blanks have the same tokens, except that blank operators may hold
another blank (`Token.Alike`, `alike_tokenize`).

The scanner is followed through both texts at once: from respaced texts it reads the same, except
for the last character of a run of blanks, and leaves respaced texts (`Separator.reads_scan?`).
-/

namespace TreeQuery

open Text (Respaced SameUpToBlanks)

/-- Two separators that are the same, or both runs of blanks. -/
inductive Separator.Alike : Separator → Separator → Prop
  | refl (found : Separator) : Alike found found
  | blanks {c d : Char} (hc : Text.isBlank c = true) (hd : Text.isBlank d = true) :
      Alike (.blank c) (.blank d)

/-! ## What is read from respaced texts -/

namespace Separator

variable {α : Type} {cs ds : List Char}

/-- **From two texts the same is read**, up to a relation, and respaced texts are left, or nothing
is read from either. -/
inductive Reads (r : α → α → Prop) : Option (α × List Char) → Option (α × List Char) → Prop
  | none : Reads r none none
  | some {found found' : α} {left left' : List Char} (hfound : r found found')
      (hleft : Respaced left left') : Reads r (some (found, left)) (some (found', left'))

theorem Reads.eq_none {r : α → α → Prop} {read : Option (α × List Char)}
    (h : Reads r Option.none read) : read = Option.none := by
  cases h
  rfl

theorem Reads.exists_some {r : α → α → Prop} {found : α} {left : List Char}
    {read : Option (α × List Char)} (h : Reads r (Option.some (found, left)) read) :
    ∃ found' left', read = Option.some (found', left') ∧ r found found' ∧ Respaced left left' := by
  cases h with
  | some hfound hleft => exact ⟨_, _, rfl, hfound, hleft⟩

theorem reads_fraction? (h : Respaced cs ds) : Reads Eq (fraction? cs) (fraction? ds) := by
  by_cases hpoint : cs.head? = some '.'
  · obtain ⟨tail, rfl⟩ := List.head?_eq_some_iff.1 hpoint
    obtain ⟨tail', rfl, htail⟩ := h.exists_of_cons (by decide) (by simp)
    obtain ⟨hdigits, hrest⟩ := htail.spanDigits
    simp only [fraction?, hdigits]
    split
    · exact .none
    · exact .some rfl hrest
  · have hcs : ∀ c ∈ cs.head?, c ≠ '.' := fun c hc => by
      rintro rfl
      exact hpoint hc
    have hds : ∀ c ∈ ds.head?, c ≠ '.' :=
      h.forall_head (fun c hc => Text.ne_of_isBlank hc (by decide)) hcs
    rw [fraction?_eq_none hcs, fraction?_eq_none hds]
    exact .none

theorem reads_unsigned? (h : Respaced cs ds) : Reads Eq (unsigned? cs) (unsigned? ds) := by
  obtain ⟨hwhole, hrest⟩ := h.spanDigits
  have hfraction := reads_fraction? hrest
  simp only [unsigned?, hwhole]
  generalize fraction? (Text.spanDigits cs).2 = read, fraction? (Text.spanDigits ds).2 = read'
    at hfraction ⊢
  cases hfraction with
  | none =>
    dsimp only
    split
    · exact .none
    · exact .some rfl hrest
  | some hfound hleft => exact .some (congrArg _ hfound) hleft

theorem reads_number? (h : Respaced cs ds) : Reads Eq (number? cs) (number? ds) := by
  by_cases hsign : ∃ c ∈ cs.head?, c = '+' ∨ c = '-'
  · obtain ⟨c, hc, hsign⟩ := hsign
    obtain ⟨tail, rfl⟩ := List.head?_eq_some_iff.1 hc
    have hblank : Text.isBlank c = false := by rcases hsign with rfl | rfl <;> decide
    have hquote : c ≠ '"' := by rcases hsign with rfl | rfl <;> decide
    obtain ⟨tail', rfl, htail⟩ := h.exists_of_cons hblank fun hc => absurd hc hquote
    have hunsigned := reads_unsigned? htail
    simp only [number?, if_pos hsign]
    generalize unsigned? tail = read, unsigned? tail' = read' at hunsigned ⊢
    cases hunsigned with
    | none => exact .none
    | some hfound hleft => exact .some (congrArg _ hfound) hleft
  · have hcs : ∀ c ∈ cs.head?, ¬ (c = '+' ∨ c = '-') := fun c hc hc' => hsign ⟨c, hc, hc'⟩
    have hblank (c : Char) (hc : Text.isBlank c = true) : ¬ (c = '+' ∨ c = '-') :=
      not_or_intro (Text.ne_of_isBlank hc (by decide)) (Text.ne_of_isBlank hc (by decide))
    rw [number?_of_head hcs, number?_of_head (h.forall_head hblank hcs)]
    exact reads_unsigned? h

theorem reads_mark? (h : Respaced cs ds) : Reads Eq (mark? cs) (mark? ds) := by
  by_cases hmark : ∃ c ∈ cs.head?, c ∈ marks
  · obtain ⟨c, hc, hmark⟩ := hmark
    obtain ⟨tail, rfl⟩ := List.head?_eq_some_iff.1 hc
    obtain ⟨hblank, -, -, -, -, hquote⟩ := of_mem_marks c hmark
    obtain ⟨tail', rfl, htail⟩ := h.exists_of_cons hblank fun hc => absurd hc hquote
    rw [mark?_cons_eq, mark?_cons_eq, if_pos hmark]
    by_cases hequal : tail.head? = some '='
    · obtain ⟨left, rfl⟩ := List.head?_eq_some_iff.1 hequal
      obtain ⟨left', rfl, hleft⟩ := htail.exists_of_cons (by decide) (by simp)
      by_cases hless : c = '<'
      · simpa [hless] using Reads.some rfl hleft
      · simpa [hless, hmark] using Reads.some rfl htail
    · have hequal' : ∀ c ∈ tail'.head?, c ≠ '=' :=
        htail.forall_head (fun c hc => Text.ne_of_isBlank hc (by decide))
          fun c hc hc' => hequal (hc' ▸ hc)
      rw [if_neg fun h => hequal h.2, if_neg fun h => hequal' _ h.2 rfl, if_pos hmark]
      exact .some rfl htail
  · have hcs : ∀ c ∈ cs.head?, c ∉ marks := fun c hc hc' => hmark ⟨c, hc, hc'⟩
    have hblank (c : Char) (hc : Text.isBlank c = true) : c ∉ marks := fun hmem => by
      simp [(of_mem_marks c hmem).1] at hc
    rw [mark?_eq_none hcs, mark?_eq_none (h.forall_head hblank hcs)]
    exact .none

/-- Runs of blanks at the front of respaced texts end with a blank each. -/
theorem rel_getLast?_blanks (h : Respaced cs ds) :
    Option.Rel (fun c d => Text.isBlank c = true ∧ Text.isBlank d = true)
      (cs.takeWhile Text.isBlank).getLast? (ds.takeWhile Text.isBlank).getLast? := by
  cases h with
  | @blanks front front' cs ds hblanks hblanks' =>
    have hlast {front : List Char} (cs : List Char) (hfront : Text.IsBlankRun front) :
        ∃ last, ((front ++ cs).takeWhile Text.isBlank).getLast? = some last ∧
          Text.isBlank last = true := by
      have hne : (front ++ cs).takeWhile Text.isBlank ≠ [] := by
        rw [List.takeWhile_append_of_pos hfront.isBlank]
        exact List.append_ne_nil_of_left_ne_nil hfront.ne_nil _
      exact ⟨_, List.getLast?_eq_getLast_of_ne_nil hne,
        List.mem_takeWhile_imp (List.getLast_mem hne)⟩
    obtain ⟨last, hlast₁, hblank⟩ := hlast cs hblanks
    obtain ⟨last', hlast₂, hblank'⟩ := hlast ds hblanks'
    rw [hlast₁, hlast₂]
    exact .some ⟨hblank, hblank'⟩
  | nil => exact .none
  | char hblank => simp [hblank]
  | _ => exact .none

theorem reads_markOrBlanks? (h : Respaced cs ds) :
    Reads Separator.Alike (markOrBlanks? cs) (markOrBlanks? ds) := by
  have hmark := reads_mark? h.dropBlanks
  have hlast := rel_getLast?_blanks h
  simp only [markOrBlanks?]
  generalize mark? (Text.dropBlanks cs) = read, mark? (Text.dropBlanks ds) = read' at hmark ⊢
  cases hmark with
  | some hfound hleft =>
    obtain rfl := hfound
    exact .some (Alike.refl _) hleft.dropBlanks
  | none =>
    generalize (cs.takeWhile Text.isBlank).getLast? = last,
      (ds.takeWhile Text.isBlank).getLast? = last' at hlast ⊢
    cases hlast with
    | none => exact .none
    | some hblanks => exact .some (Alike.blanks hblanks.1 hblanks.2) h.dropBlanks

/-- A quote that nothing closes is no separator. -/
theorem scan?_unclosed (h : '"' ∉ cs) : scan? ('"' :: cs) = none := by
  have hnumber : number? ('"' :: cs) = none := number?_eq_none (by simp [EndsNumber]) (by simp)
  have hclosing : closing? cs = none := by
    refine Option.eq_none_iff_forall_ne_some.2 fun read hread => h ?_
    rw [(eq_of_closing? hread).1]
    simp
  simp [scan?_cons_eq, hnumber, hclosing]

/-- **The scanner finds the same in respaced texts**, up to the blank that a run of blanks keeps,
and leaves respaced texts. -/
theorem reads_scan? (h : Respaced cs ds) : Reads Separator.Alike (scan? cs) (scan? ds) := by
  cases h with
  | nil => exact .none
  | @char c cs ds hblank hquote h =>
    have h' : Respaced (c :: cs) (c :: ds) := .char hblank hquote h
    have hnumber := reads_number? h'
    rw [scan?_cons_eq, scan?_cons_eq]
    generalize number? (c :: cs) = read, number? (c :: ds) = read' at hnumber ⊢
    cases hnumber with
    | some hfound hleft =>
      obtain rfl := hfound
      exact .some (Alike.refl _) hleft
    | none =>
      dsimp only
      split
      · exact .some (Alike.refl _) h
      · exact reads_markOrBlanks? h'
  | @blanks front front' cs ds hblanks hblanks' h =>
    have hscan {front cs : List Char} (hfront : Text.IsBlankRun front) :
        scan? (front ++ cs) = markOrBlanks? (front ++ cs) := by
      obtain ⟨c, tail, rfl⟩ := List.exists_cons_of_ne_nil hfront.ne_nil
      exact scan?_of_isBlank (hfront.isBlank c List.mem_cons_self)
    rw [hscan hblanks, hscan hblanks']
    exact reads_markOrBlanks? (.blanks hblanks hblanks' h)
  | quoted hbody h =>
    rw [scan?_quoted hbody, scan?_quoted hbody]
    exact .some (Alike.refl _) h
  | unclosed hquote h =>
    rw [scan?_unclosed hquote, scan?_unclosed (h.quote_not_mem hquote)]
    exact .none

/-- Separators that are alike become tokens that are alike. -/
theorem Alike.ofText {found found' : Separator} (h : found.Alike found') :
    (Token.ofText found.text).Alike (Token.ofText found'.text) := by
  cases h with
  | refl => exact .refl _
  | blanks hc hd =>
    rw [text, text, ofText_blank hc, ofText_blank hd, ← String.singleton_eq_ofList,
      ← String.singleton_eq_ofList]
    exact .blanks hc hd

end Separator

/-! ## The tokens of respaced texts -/

section Tokens

variable {cs ds : List Char} {fragments fragments' : List Fragment}

/-- The same gap in front gives one token more or none. -/
theorem alike_tokensOf_gap (gap : List Char)
    (h : List.Forall₂ Token.Alike (tokensOf fragments) (tokensOf fragments')) :
    List.Forall₂ Token.Alike (tokensOf (.gap gap :: fragments))
      (tokensOf (.gap gap :: fragments')) := by
  by_cases hgap : Fragment.text (.gap gap) = []
  · rwa [tokensOf_cons_of_empty hgap, tokensOf_cons_of_empty hgap]
  · rw [tokensOf_cons hgap, tokensOf_cons hgap]
    exact .cons (.refl _) h

/-- **Respaced texts are cut alike**: the same gap stands in front, and what follows becomes tokens
that are alike. -/
theorem alike_cut (h : Respaced cs ds) : (cut ds).1 = (cut cs).1 ∧
    List.Forall₂ Token.Alike (tokensOf (cut cs).2) (tokensOf (cut ds).2) := by
  induction cs using cut_induction generalizing ds with
  | nil =>
    rw [h.eq_nil]
    exact ⟨rfl, by simp [cut_nil, tokensOf]⟩
  | gap c cs hscan ih =>
    obtain ⟨ds, rfl, htail⟩ := h.exists_of_cons (Separator.head_of_scan?_eq_none hscan).1
      fun hc => quote_not_mem_of_scan?_eq_none (hc ▸ hscan)
    have hscan' : Separator.scan? (c :: ds) = none := (hscan ▸ Separator.reads_scan? h).eq_none
    obtain ⟨hgap, htokens⟩ := ih htail
    rw [cut_cons hscan, cut_cons hscan', hgap]
    exact ⟨rfl, htokens⟩
  | separator cs found rest hscan ih =>
    obtain ⟨found', rest', hscan', halike, hleft⟩ := (hscan ▸ Separator.reads_scan? h).exists_some
    have hne := (Separator.foundAt_of_scan? hscan).text_ne_nil
    have hne' := (Separator.foundAt_of_scan? hscan').text_ne_nil
    obtain ⟨hgap, htokens⟩ := ih hleft
    rw [cut_of_scan? hscan, cut_of_scan? hscan', hgap,
      tokensOf_cons (f := .separator found) hne, tokensOf_cons (f := .separator found') hne']
    exact ⟨rfl, .cons halike.ofText (alike_tokensOf_gap _ htokens)⟩

/-- **Texts that are the same up to blanks have the same tokens up to blanks.** -/
theorem alike_tokenize {text other : String} (h : SameUpToBlanks text.toList other.toList) :
    List.Forall₂ Token.Alike (tokenize text) (tokenize other) := by
  obtain ⟨hgap, htokens⟩ := alike_cut h.trim
  rw [tokenize_eq, tokenize_eq, tokensFrom, tokensFrom, hgap]
  exact alike_tokensOf_gap _ htokens

end Tokens

end TreeQuery
