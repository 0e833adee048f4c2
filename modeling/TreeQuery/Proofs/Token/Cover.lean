import TreeQuery.Proofs.Selector.Reading
import TreeQuery.Proofs.Token.Neighbours

/-!
# Proofs/Token/Cover — cutting a text loses nothing but blanks

`Text.Covers` says that a text is made of some pieces, in this order, with nothing but blanks
before, between and after them.  Two theorems on cutting:

* the fragments of a text cover it (`covers_fragments`);
* a quoted text is one of them, blanks and all: the fragments in front of it cover what stands in
  front of it, and those after it what stands after it (`exists_fragments_quoted`).

A gap has no blanks inside, so it cannot be put together from the cover of the text after its first
character.  Hence the inductions over the cut speak of the gap at the front apart from the rest
(`exists_covers_cut`).

`losesOnlyBlanks` puts the two theorems together with what they say of tokens and selectors.
-/

namespace TreeQuery

/-- Of two fronts of one text, the one that holds no `c` does not reach over a `c` that ends the
other. -/
theorem exists_of_append_cons_eq_append {front back before tail : List Char} {c : Char}
    (hc : c ∉ front) (h : before ++ c :: tail = front ++ back) :
    ∃ rest, before = front ++ rest ∧ back = rest ++ c :: tail := by
  rcases List.append_eq_append_iff.1 h with ⟨excess, rfl, hexcess⟩ | ⟨rest, hbefore, hback⟩
  · cases excess with
    | nil => exact ⟨[], by simp, hexcess.symm⟩
    | cons d excess =>
      obtain ⟨rfl, -⟩ := List.cons.inj hexcess
      exact absurd (List.mem_append_right _ List.mem_cons_self) hc
  · exact ⟨rest, hbefore, hback⟩

/-! ## Covers -/

namespace Text

/-- **A text is some pieces and blanks**: the pieces in this order, none of them empty, with nothing
but blanks before, between and after them. -/
inductive Covers : List (List Char) → List Char → Prop
  | nil {blanks : List Char} (h : ∀ c ∈ blanks, isBlank c = true) : Covers [] blanks
  | cons {blanks piece cs : List Char} {pieces : List (List Char)}
      (hblanks : ∀ c ∈ blanks, isBlank c = true) (hne : piece ≠ []) (h : Covers pieces cs) :
      Covers (piece :: pieces) (blanks ++ (piece ++ cs))

namespace Covers

variable {pieces more : List (List Char)} {blanks cs ds : List Char}

theorem blanks_append (hblanks : ∀ c ∈ blanks, isBlank c = true) (h : Covers pieces cs) :
    Covers pieces (blanks ++ cs) := by
  cases h with
  | nil h => exact .nil (List.forall_mem_append.2 ⟨hblanks, h⟩)
  | cons h hne hrest =>
    rw [← List.append_assoc]
    exact .cons (List.forall_mem_append.2 ⟨hblanks, h⟩) hne hrest

theorem append (h : Covers pieces cs) (hmore : Covers more ds) :
    Covers (pieces ++ more) (cs ++ ds) := by
  induction h with
  | nil hblanks => exact hmore.blanks_append hblanks
  | cons hblanks hne _ ih =>
    rw [List.append_assoc, List.append_assoc]
    exact .cons hblanks hne ih

theorem append_blanks (h : Covers pieces cs) (hblanks : ∀ c ∈ blanks, isBlank c = true) :
    Covers pieces (cs ++ blanks) := by
  simpa using h.append (.nil hblanks)

/-- Blanks at the ends of a text make no difference to what covers it. -/
theorem of_dropBlanks (h : Covers pieces (dropBlanks cs)) : Covers pieces cs := by
  obtain ⟨blanks, hblanks, hcs⟩ := exists_dropBlanks cs
  rw [hcs]
  exact h.blanks_append hblanks

theorem of_trimEnd (h : Covers pieces (trimEnd cs)) : Covers pieces cs := by
  obtain ⟨blanks, hblanks, hcs⟩ := exists_trimEnd cs
  rw [hcs]
  exact h.append_blanks hblanks

theorem of_trim (h : Covers pieces (trim cs)) : Covers pieces cs :=
  of_dropBlanks (of_trimEnd h)

/-- **The pieces, one after the other, are the text with some characters deleted**, … -/
theorem flatten_sublist (h : Covers pieces cs) : pieces.flatten.Sublist cs := by
  induction h with
  | nil => exact List.nil_sublist _
  | @cons blanks piece cs pieces _ _ _ ih =>
    exact ((List.Sublist.refl piece).append ih).trans (List.sublist_append_right blanks _)

/-- … **and all of these are blanks.** -/
theorem filter_flatten (h : Covers pieces cs) :
    (pieces.flatten.filter fun c => !isBlank c) = cs.filter fun c => !isBlank c := by
  have hnone : ∀ {blanks : List Char}, (∀ c ∈ blanks, isBlank c = true) →
      (blanks.filter fun c => !isBlank c) = [] := fun h =>
    List.filter_eq_nil_iff.2 fun c hc => by simp [h c hc]
  induction h with
  | nil h => exact (hnone h).symm
  | cons hblanks _ _ ih =>
    simp only [List.flatten_cons, List.filter_append, hnone hblanks, List.nil_append, ih]

/-- So every other character is kept as often as it stands in the text. -/
theorem count_flatten {c : Char} (h : Covers pieces cs) (hc : isBlank c = false) :
    pieces.flatten.count c = cs.count c := by
  have hkept : ∀ ds : List Char, (ds.filter fun c => !isBlank c).count c = ds.count c :=
    fun ds => List.count_filter (by simp [hc])
  rw [← hkept, h.filter_flatten, hkept]

/-- **Each of the pieces stands in the text**, those before it cover what stands in front of it, and
those after it what stands behind it. -/
theorem exists_split {front back : List (List Char)} {piece : List Char} :
    ∀ {cs : List Char}, Covers (front ++ piece :: back) cs → ∃ before after,
      cs = before ++ (piece ++ after) ∧ Covers front before ∧ Covers back after := by
  induction front with
  | nil =>
    intro cs h
    cases h with
    | cons hblanks _ h => exact ⟨_, _, rfl, .nil hblanks, h⟩
  | cons first front ih =>
    intro cs h
    cases h with
    | @cons blanks _ _ _ hblanks hne h =>
      obtain ⟨before, after, rfl, hfront, hback⟩ := ih h
      exact ⟨blanks ++ (first ++ before), after, by simp, .cons hblanks hne hfront, hback⟩

/-- The first piece does not consist of blanks if the text does not begin with one. -/
theorem exists_of_head {piece : List Char} (h : Covers (piece :: pieces) cs)
    (hhead : ∀ c ∈ cs.head?, isBlank c = false) : ∃ c ∈ piece, isBlank c = false := by
  cases h with
  | @cons blanks _ _ _ hblanks hne _ =>
    obtain ⟨c, rest, rfl⟩ := List.exists_cons_of_ne_nil hne
    cases blanks with
    | nil => exact ⟨c, List.mem_cons_self, hhead c rfl⟩
    | cons b blanks => exact absurd (hblanks b List.mem_cons_self) (by simp [hhead b rfl])

/-- Nor does the last piece if the text does not end with one. -/
theorem exists_of_getLast {piece : List Char} (h : Covers (pieces ++ [piece]) cs)
    (hne : piece ≠ []) (hlast : ∀ c ∈ cs.getLast?, isBlank c = false) :
    ∃ c ∈ piece, isBlank c = false := by
  obtain ⟨before, after, rfl, _, hafter⟩ := h.exists_split
  have hend := getLast_of_suffix (List.suffix_append before _) hlast
  obtain rfl | ⟨rest, b, rfl⟩ := List.eq_nil_or_concat' after
  · obtain ⟨front, c, rfl⟩ := (List.eq_nil_or_concat' piece).resolve_left hne
    exact ⟨c, by simp, hend c (by simp)⟩
  · have hb := getLast_of_suffix (List.suffix_append piece _) hend b List.getLast?_concat
    cases hafter with
    | nil hblanks => exact absurd (hblanks b (by simp)) (by simp [hb])

/-- Only blanks are covered by nothing. -/
theorem isBlank_of_nil (h : Covers [] cs) : ∀ c ∈ cs, isBlank c = true := by
  cases h with
  | nil h => exact h

end Covers

end Text

open Text (Covers)

/-! ## The fragments of a text cover it -/

/-- What some fragments keep of a text.  Those that are empty keep nothing. -/
def keptBy (fragments : List Fragment) : List (List Char) :=
  (fragments.filter fun f => !f.text.isEmpty).map Fragment.text

theorem keptBy_append (fragments more : List Fragment) :
    keptBy (fragments ++ more) = keptBy fragments ++ keptBy more := by
  simp [keptBy]

theorem keptBy_separator (found : Separator) (fragments : List Fragment) (h : found.text ≠ []) :
    keptBy (.separator found :: fragments) = found.text :: keptBy fragments := by
  simp [keptBy, Fragment.text, h]

variable {cs rest left : List Char} {found : Separator}

/-- A gap covers itself. -/
theorem covers_gap {fragments : List Fragment} (h : Covers (keptBy fragments) rest)
    (gap : List Char) : Covers (keptBy (.gap gap :: fragments)) (gap ++ rest) := by
  cases gap with
  | nil => exact h
  | cons c gap => exact .cons (List.forall_mem_nil _) (List.cons_ne_nil c gap) h

/-- **The fragments of a text cover it**: the gap at its front comes first, and those after the gap
cover what stands after it. -/
theorem exists_covers_cut (cs : List Char) :
    ∃ rest, cs = (cut cs).1 ++ rest ∧ Covers (keptBy (cut cs).2) rest := by
  induction cs using cut_induction with
  | nil => exact ⟨[], by rw [cut_nil]; rfl, by rw [cut_nil]; exact .nil (List.forall_mem_nil _)⟩
  | gap c cs hscan ih =>
    obtain ⟨rest, hcs, hcovers⟩ := ih
    rw [cut_cons hscan]
    exact ⟨rest, congrArg (c :: ·) hcs, hcovers⟩
  | separator cs found left hscan ih =>
    have hfound := Separator.foundAt_of_scan? hscan
    obtain ⟨rest, hleft, hcovers⟩ := ih
    obtain ⟨before, after, hbefore, hafter, hcs⟩ := hfound.exists_split
    have hgap := (covers_gap hcovers (cut left).1).blanks_append hafter
    rw [← hleft] at hgap
    rw [cut_of_scan? hscan, keptBy_separator found _ hfound.text_ne_nil]
    exact ⟨cs, rfl, hcs ▸ .cons hbefore hfound.text_ne_nil hgap⟩

theorem covers_cut (cs : List Char) : Covers (keptBy (.gap (cut cs).1 :: (cut cs).2)) cs := by
  obtain ⟨rest, hcs, hcovers⟩ := exists_covers_cut cs
  conv_rhs => rw [hcs]
  exact covers_gap hcovers _

/-- The texts of the fragments of a text. -/
theorem map_text_fragments (cs : List Char) : (fragments cs).map Fragment.text =
    keptBy (.gap (cut (Text.trim cs)).1 :: (cut (Text.trim cs)).2) :=
  rfl

theorem covers_fragments (cs : List Char) : Covers ((fragments cs).map Fragment.text) cs :=
  (covers_cut (Text.trim cs)).of_trim

/-! ## Quoted texts

Quotes are paired from the front: a quote with an even number of quotes before it opens a quoted
text, because every separator in front of it has two quotes or none. -/

namespace Separator

variable {before tail : List Char}

/-- A separator has no quote, or is a quoted text. -/
theorem FoundAt.quote_not_mem_or (h : FoundAt cs found left) : '"' ∉ found.text ∨
    ∃ body, found = .quoted body ∧ '"' ∉ body ∧ cs = '"' :: (body ++ '"' :: left) := by
  cases h with
  | number h => exact .inl fun hmem => by simpa using h.mem _ hmem
  | colon => exact .inl (by decide)
  | quoted h => exact .inr ⟨_, rfl, h, rfl⟩
  | mark _ h => exact .inl fun hmem => absurd (h.mem_marks.2 _ hmem) (by decide)
  | blank _ hlast => exact .inl fun hmem =>
      Text.ne_of_isBlank hlast (by decide) (List.mem_singleton.1 hmem).symm

/-- **A separator does not reach over the opening quote of a quoted text.** -/
theorem FoundAt.exists_within (h : FoundAt (before ++ '"' :: tail) found left) (hne : before ≠ [])
    (hquotes : Even (before.count '"')) :
    ∃ front after rest,
      (∀ c ∈ front, Text.isBlank c = true) ∧ (∀ c ∈ after, Text.isBlank c = true) ∧
      before = front ++ (found.text ++ (after ++ rest)) ∧ left = rest ++ '"' :: tail ∧
      Even (rest.count '"') := by
  have hquote : ∀ {blanks : List Char}, (∀ c ∈ blanks, Text.isBlank c = true) → '"' ∉ blanks :=
    fun h hmem => absurd (h _ hmem) (by decide)
  rcases h.quote_not_mem_or with hnone | ⟨body, rfl, hbody, hcs⟩
  · obtain ⟨front, after, hfront, hafter, hcs⟩ := h.exists_split
    have hmem : '"' ∉ front ++ (found.text ++ after) := by
      simp [hquote hfront, hnone, hquote hafter]
    have hcs' : before ++ '"' :: tail = (front ++ (found.text ++ after)) ++ left := by
      simpa using hcs
    obtain ⟨rest, rfl, rfl⟩ := exists_of_append_cons_eq_append hmem hcs'
    refine ⟨front, after, rest, hfront, hafter, by simp, rfl, ?_⟩
    rwa [List.count_append, List.count_eq_zero_of_not_mem hmem, Nat.zero_add] at hquotes
  · obtain ⟨c, before, rfl⟩ := List.exists_cons_of_ne_nil hne
    rw [List.cons_append] at hcs
    obtain ⟨rfl, htail⟩ := List.cons.inj hcs
    obtain ⟨more, rfl, hmore⟩ := exists_of_append_cons_eq_append hbody htail
    cases more with
    | nil => simp [List.count_eq_zero_of_not_mem hbody] at hquotes
    | cons d rest =>
      obtain ⟨rfl, rfl⟩ := List.cons.inj hmore
      have hnil := List.forall_mem_nil (Text.isBlank · = true)
      refine ⟨[], [], rest, hnil, hnil, by simp [text], rfl, ?_⟩
      simpa [List.count_eq_zero_of_not_mem hbody, Nat.even_add_one] using hquotes

/-- A quote that is closed opens a quoted text. -/
theorem scan?_quote_ne_none (h : '"' ∈ cs) : scan? ('"' :: cs) ≠ none := by
  obtain ⟨body, rest, rfl, hbody⟩ := List.eq_append_cons_of_mem h
  rw [scan?_quoted hbody]
  exact Option.some_ne_none _

end Separator

/-- **A quoted text is a fragment**, and the fragments before and after it cover what stands before
and after it. -/
theorem exists_cut_quoted (before : List Char) {body : List Char} (after : List Char)
    (hbody : '"' ∉ body) (hquotes : Even (before.count '"')) :
    ∃ front back rest,
      (cut (before ++ '"' :: (body ++ '"' :: after))).2 =
        front ++ .separator (.quoted body) :: back ∧
      before = (cut (before ++ '"' :: (body ++ '"' :: after))).1 ++ rest ∧
      Covers (keptBy front) rest ∧ Covers (keptBy back) after := by
  cases before with
  | nil =>
    rw [List.nil_append, cut_of_scan? (Separator.scan?_quoted hbody)]
    exact ⟨[], _, [], rfl, rfl, .nil (List.forall_mem_nil _), covers_cut after⟩
  | cons c before =>
    cases hscan : Separator.scan? (c :: before ++ '"' :: (body ++ '"' :: after)) with
    | none =>
      have hc : c ≠ '"' := by
        rintro rfl
        exact Separator.scan?_quote_ne_none (by simp) hscan
      obtain ⟨front, back, rest, hcut, hbefore, hfront, hback⟩ :=
        exists_cut_quoted before after hbody (by simpa [hc] using hquotes)
      rw [List.cons_append] at hscan ⊢
      rw [cut_cons hscan]
      exact ⟨front, back, rest, hcut, congrArg (c :: ·) hbefore, hfront, hback⟩
    | some read =>
      obtain ⟨found, left⟩ := read
      have hfound := Separator.foundAt_of_scan? hscan
      obtain ⟨blanks, blanks', rest, hblanks, hblanks', hbefore, rfl, heven⟩ :=
        hfound.exists_within (List.cons_ne_nil _ _) hquotes
      have hshorter : rest.length < (c :: before).length := by
        have := List.length_pos_iff.2 hfound.text_ne_nil
        rw [hbefore]
        simp only [List.length_append]
        omega
      obtain ⟨front, back, rest', hcut, hrest, hfront, hback⟩ :=
        exists_cut_quoted rest after hbody heven
      rw [cut_of_scan? hscan, hcut]
      refine ⟨.separator found :: .gap _ :: front, back, c :: before, rfl, rfl, ?_, hback⟩
      have hgap := (covers_gap hfront
        (cut (rest ++ '"' :: (body ++ '"' :: after))).1).blanks_append hblanks'
      rw [← hrest] at hgap
      rw [keptBy_separator found _ hfound.text_ne_nil, hbefore]
      exact .cons hblanks hfound.text_ne_nil hgap
termination_by before.length

/-- **A quoted text is a fragment of the text that it stands in**, blanks and all, if an even number
of quotes stands before it. -/
theorem exists_fragments_quoted (before : List Char) {body : List Char} (after : List Char)
    (hbody : '"' ∉ body) (hquotes : Even (before.count '"')) :
    ∃ front back, (fragments (before ++ '"' :: (body ++ '"' :: after))).map Fragment.text =
        front ++ ('"' :: (body ++ ['"'])) :: back ∧ Covers front before ∧ Covers back after := by
  have hquote : Text.isBlank '"' = false := by decide
  have heven : Even ((Text.dropBlanks before).count '"') := by rwa [Text.count_dropBlanks hquote]
  obtain ⟨front, back, rest, hcut, hbefore, hfront, hback⟩ :=
    exists_cut_quoted (Text.dropBlanks before) (Text.trimEnd after) hbody heven
  have hcovers := covers_gap hfront (cut (Text.dropBlanks before ++
    '"' :: (body ++ '"' :: Text.trimEnd after))).1
  rw [← hbefore] at hcovers
  refine ⟨_, keptBy back, ?_, hcovers.of_dropBlanks, hback.of_trimEnd⟩
  rw [map_text_fragments, Text.trim_append_cons hquote, Text.trimEnd_append_cons hquote, hcut,
    ← List.cons_append, keptBy_append, keptBy_separator (.quoted body) _ (List.cons_ne_nil _ _)]
  rfl

/-! ## What a text loses -/

/-- **Nothing but blanks is lost of a text** that is cut into the given pieces and lexed. -/
structure LosesOnlyBlanks (text : String) (pieces : List (List Char)) : Prop where
  /-- The text is the pieces and blanks. -/
  covers : Covers pieces text.toList
  /-- One after the other, the pieces are the text with some characters deleted, … -/
  sublist : pieces.flatten.Sublist text.toList
  /-- … which are blanks. -/
  filter : (pieces.flatten.filter fun c => !Text.isBlank c) =
    text.toList.filter fun c => !Text.isBlank c
  /-- No blank of a quoted text is among them: a quoted text is a piece, between those of what
  stands before it and those of what stands after it. -/
  quoted {before body after : List Char} (h : text.toList = before ++ '"' :: (body ++ '"' :: after))
    (hbody : '"' ∉ body) (hquotes : Even (before.count '"')) :
    ∃ front back, pieces = front ++ ('"' :: (body ++ ['"'])) :: back ∧ Covers front before ∧
      Covers back after
  /-- Every piece becomes a token. -/
  tokens : tokenize text = pieces.map Token.ofText
  /-- Nothing is left only of a blank text. -/
  tokens_eq_nil_iff : tokenize text = [] ↔ ∀ c ∈ text.toList, Text.isBlank c = true
  /-- Only a blank text is no selector and yet no error. -/
  parse_eq_none_iff : parse text = .ok none ↔ ∀ c ∈ text.toList, Text.isBlank c = true

theorem tokenize_eq_map (text : String) :
    tokenize text = ((fragments text.toList).map Fragment.text).map Token.ofText := by
  rw [tokenize, List.map_map]
  rfl

theorem fragments_of_isBlank {cs : List Char} (h : ∀ c ∈ cs, Text.isBlank c = true) :
    fragments cs = [] := by
  have htrim : Text.trim cs = [] := by
    rw [← List.append_nil cs, Text.trim_of_isBlank_append h]
    rfl
  rw [fragments, htrim, cut_nil]
  rfl

/-- **A text has no tokens exactly if it is blank.** -/
theorem tokenize_eq_nil_iff (text : String) :
    tokenize text = [] ↔ ∀ c ∈ text.toList, Text.isBlank c = true := by
  rw [tokenize, List.map_eq_nil_iff]
  constructor
  · intro h
    have hcovers := covers_fragments text.toList
    rw [h] at hcovers
    exact hcovers.isBlank_of_nil
  · exact fragments_of_isBlank

/-- **Cutting a text into its fragments loses nothing but blanks.** -/
theorem losesOnlyBlanks (text : String) :
    LosesOnlyBlanks text ((fragments text.toList).map Fragment.text) where
  covers := covers_fragments _
  sublist := (covers_fragments _).flatten_sublist
  filter := (covers_fragments _).filter_flatten
  quoted h hbody hquotes := h ▸ exists_fragments_quoted _ _ hbody hquotes
  tokens := tokenize_eq_map text
  tokens_eq_nil_iff := tokenize_eq_nil_iff text
  parse_eq_none_iff := by rw [parse, (parseTokens_iff _).1, tokenize_eq_nil_iff]

/-- In ` a ["b" = "  >\n" ] ` blanks go at both ends and around the marks, but none of those in the
second quoted text, which has the two quotes of the first before it. -/
theorem losesOnlyBlanks_quotedBlanks :
    (fragments " a [\"b\" = \"  >\n\" ] ".toList).map Fragment.text =
      ["a".toList, "[".toList, "\"b\"".toList, "=".toList, "\"  >\n\"".toList, "]".toList] ∧
    ∃ front back, Covers front " a [\"b\" = ".toList ∧ Covers back " ] ".toList ∧
      (fragments " a [\"b\" = \"  >\n\" ] ".toList).map Fragment.text =
        front ++ "\"  >\n\"".toList :: back := by
  have hsplit : " a [\"b\" = \"  >\n\" ] ".toList =
      " a [\"b\" = ".toList ++ '"' :: ("  >\n".toList ++ '"' :: " ] ".toList) := by decide
  obtain ⟨front, back, hpieces, hfront, hback⟩ :=
    (losesOnlyBlanks " a [\"b\" = \"  >\n\" ] ").quoted hsplit (by decide) (by decide)
  exact ⟨by decide +kernel, front, back, hfront, hback, hpieces⟩

end TreeQuery
