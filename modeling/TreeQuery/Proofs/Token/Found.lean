import Mathlib.Algebra.Group.Nat.Even
import TreeQuery.Proofs.Text.Trim
import TreeQuery.Proofs.Token.Pieces

/-!
# Proofs/Token/Found — what a separator that is found says about the text

`Proofs/Token/Scan` says what the scanner finds in front of a given rest.  Here is the converse:
`Separator.FoundAt` lists the ways in which a text can begin with a separator and what is then left
of it, and `foundAt_of_scan?` says that the scanner finds nothing else.

* A number that is found is a numeral, a quoted text has no quote inside.
* What is left after a mark begins with no blank.
* What is left after a run of blanks begins with neither a blank nor a mark.

A separator stands in the text between blanks that it takes (`FoundAt.exists_split`), and what it
keeps is of its kind (`FoundAt.wellCut`).
-/

namespace TreeQuery

theorem Text.isDigit_of_mem_spanDigits {cs : List Char} :
    ∀ c ∈ (Text.spanDigits cs).1, c.isDigit = true :=
  fun _ => List.mem_takeWhile_imp

theorem Text.isBlank_of_mem_takeWhile {cs : List Char} :
    ∀ c ∈ cs.takeWhile Text.isBlank, Text.isBlank c = true :=
  fun _ => List.mem_takeWhile_imp

namespace Separator

variable {cs text rest : List Char}

/-! ## The parts of a separator -/

theorem eq_of_fraction? (h : fraction? cs = some (text, rest)) : cs = text ++ rest ∧
    ∃ digits, text = '.' :: digits ∧ digits ≠ [] ∧ ∀ c ∈ digits, c.isDigit = true := by
  unfold fraction? at h
  split at h
  · next cs =>
    obtain ⟨hne, h⟩ := Option.ite_none_left_eq_some.1 h
    obtain ⟨rfl, rfl⟩ := Prod.mk.inj (Option.some.inj h)
    refine ⟨congrArg _ (Text.spanDigits_append cs).symm, _, rfl, by simpa using hne, ?_⟩
    exact Text.isDigit_of_mem_spanDigits
  · exact absurd h (by simp)

theorem eq_of_unsigned? (h : unsigned? cs = some (text, rest)) : cs = text ++ rest ∧
    ∃ whole point digits, text = whole ++ (point ++ digits) ∧ (∀ c ∈ whole, c.isDigit = true) ∧
      (point = [] ∨ point = ['.']) ∧ digits ≠ [] ∧ ∀ c ∈ digits, c.isDigit = true := by
  have hsplit := Text.spanDigits_append cs
  simp only [unsigned?] at h
  split at h
  · next fraction rest' hfraction =>
    obtain ⟨rfl, rfl⟩ := Prod.mk.inj (Option.some.inj h)
    obtain ⟨heq, digits, rfl, hne, hdigits⟩ := eq_of_fraction? hfraction
    refine ⟨by rw [List.append_assoc, ← heq, hsplit], _, ['.'], digits, rfl, ?_, .inr rfl, hne,
      hdigits⟩
    exact Text.isDigit_of_mem_spanDigits
  · obtain ⟨hne, h⟩ := Option.ite_none_left_eq_some.1 h
    obtain ⟨rfl, rfl⟩ := Prod.mk.inj (Option.some.inj h)
    refine ⟨hsplit.symm, [], [], _, rfl, List.forall_mem_nil _, .inl rfl, ?_, ?_⟩
    · exact mt List.isEmpty_iff.2 hne
    · exact Text.isDigit_of_mem_spanDigits

/-- **A number that is found is a numeral.** -/
theorem eq_of_number? (h : number? cs = some (text, rest)) :
    cs = text ++ rest ∧ IsNumeral text := by
  cases cs with
  | nil => exact absurd h (by simp [number?])
  | cons c cs =>
    rw [number?] at h
    split at h
    · next hsign =>
      split at h
      · next text' rest' hunsigned =>
        obtain ⟨rfl, rfl⟩ := Prod.mk.inj (Option.some.inj h)
        obtain ⟨heq, whole, point, digits, rfl, hshape⟩ := eq_of_unsigned? hunsigned
        refine ⟨congrArg _ heq, ⟨[c], whole, point, digits, rfl, ?_, hshape⟩⟩
        rcases hsign with rfl | rfl
        · exact .inr (.inl rfl)
        · exact .inr (.inr rfl)
      · exact absurd h (by simp)
    · obtain ⟨heq, whole, point, digits, rfl, hshape⟩ := eq_of_unsigned? h
      exact ⟨heq, ⟨[], whole, point, digits, rfl, .inl rfl, hshape⟩⟩

theorem eq_of_closing? : ∀ {cs body rest : List Char}, closing? cs = some (body, rest) →
    cs = body ++ '"' :: rest ∧ '"' ∉ body
  | [], _, _, h => absurd h (by simp [closing?])
  | c :: cs, _, _, h => by
    rw [closing?] at h
    split at h
    · next hc =>
      obtain ⟨rfl, rfl⟩ := Prod.mk.inj (Option.some.inj h)
      exact ⟨by rw [hc]; rfl, List.not_mem_nil⟩
    · next hc =>
      split at h
      · next body' rest' hclosing =>
        obtain ⟨rfl, rfl⟩ := Prod.mk.inj (Option.some.inj h)
        obtain ⟨rfl, hbody⟩ := eq_of_closing? hclosing
        exact ⟨rfl, by simpa [hbody] using Ne.symm hc⟩
      · exact absurd h (by simp)

/-- The texts that are punctuation marks. -/
def IsMark (text : List Char) : Prop := text = ['<', '='] ∨ ∃ m ∈ marks, text = [m]

theorem IsMark.mem_marks (h : IsMark text) : text ≠ [] ∧ ∀ c ∈ text, c ∈ marks := by
  rcases h with rfl | ⟨m, hm, rfl⟩
  · simp [marks]
  · simpa using hm

theorem eq_of_mark? (h : mark? cs = some (text, rest)) : cs = text ++ rest ∧ IsMark text := by
  unfold mark? at h
  split at h
  · obtain ⟨rfl, rfl⟩ := Prod.mk.inj (Option.some.inj h)
    exact ⟨rfl, .inl rfl⟩
  · next c cs _ =>
    obtain ⟨hc, h⟩ := Option.ite_none_right_eq_some.1 h
    obtain ⟨rfl, rfl⟩ := Prod.mk.inj (Option.some.inj h)
    exact ⟨rfl, .inr ⟨c, hc, rfl⟩⟩
  · exact absurd h (by simp)

/-! ## What the scanner finds -/

/-- **A separator at the front of a text** and what is left after it. -/
inductive FoundAt : List Char → Separator → List Char → Prop
  | number {text rest : List Char} (h : IsNumeral text) :
      FoundAt (text ++ rest) (.number text) rest
  | colon {rest : List Char} : FoundAt (':' :: rest) .colon rest
  | quoted {body rest : List Char} (h : '"' ∉ body) :
      FoundAt ('"' :: (body ++ '"' :: rest)) (.quoted body) rest
  | mark {before text rest : List Char} (hbefore : ∀ c ∈ before, Text.isBlank c = true)
      (h : IsMark text) : FoundAt (before ++ (text ++ rest)) (.mark text) (Text.dropBlanks rest)
  | blank {front rest : List Char} {last : Char} (hfront : ∀ c ∈ front, Text.isBlank c = true)
      (hlast : Text.isBlank last = true)
      (hrest : ∀ c ∈ rest.head?, Text.isBlank c = false ∧ c ∉ marks) :
      FoundAt (front ++ last :: rest) (.blank last) rest

theorem foundAt_of_markOrBlanks? {found : Separator} (h : markOrBlanks? cs = some (found, rest)) :
    FoundAt cs found rest := by
  have hsplit : cs.takeWhile Text.isBlank ++ Text.dropBlanks cs = cs :=
    List.takeWhile_append_dropWhile
  simp only [markOrBlanks?] at h
  split at h
  · next text rest' hmark =>
    obtain ⟨rfl, rfl⟩ := Prod.mk.inj (Option.some.inj h)
    obtain ⟨heq, htext⟩ := eq_of_mark? hmark
    rw [heq] at hsplit
    exact hsplit ▸ .mark Text.isBlank_of_mem_takeWhile htext
  · next hmark =>
    obtain ⟨last, hlast, h⟩ := Option.map_eq_some_iff.1 h
    obtain ⟨rfl, rfl⟩ := Prod.mk.inj h
    obtain ⟨front, hfront⟩ := List.getLast?_eq_some_iff.1 hlast
    have hblank : ∀ c ∈ front ++ [last], Text.isBlank c = true :=
      hfront ▸ Text.isBlank_of_mem_takeWhile
    rw [hfront, List.append_assoc, List.singleton_append] at hsplit
    have hrest : ∀ c ∈ (Text.dropBlanks cs).head?, Text.isBlank c = false ∧ c ∉ marks := by
      refine fun c hc => ⟨Text.head_dropBlanks c hc, fun hmem => ?_⟩
      obtain ⟨tail, htail⟩ := List.head?_eq_some_iff.1 hc
      have hsome : (mark? (c :: tail)).isSome = true := isSome_mark?_of_mem_marks hmem
      simp [← htail, hmark] at hsome
    have hfront' : ∀ c ∈ front, Text.isBlank c = true := fun c hc => hblank c (by simp [hc])
    have hfound := FoundAt.blank hfront' (hblank last (by simp)) hrest
    rwa [hsplit] at hfound

/-- **The scanner finds nothing else.** -/
theorem foundAt_of_scan? {found : Separator} (h : scan? cs = some (found, rest)) :
    FoundAt cs found rest := by
  unfold scan? at h
  split at h
  · next text rest' hnumber =>
    obtain ⟨rfl, rfl⟩ := Prod.mk.inj (Option.some.inj h)
    obtain ⟨rfl, htext⟩ := eq_of_number? hnumber
    exact .number htext
  · split at h
    · obtain ⟨rfl, rfl⟩ := Prod.mk.inj (Option.some.inj h)
      exact .colon
    · split at h
      · next body rest' hclosing =>
        obtain ⟨rfl, rfl⟩ := Prod.mk.inj (Option.some.inj h)
        obtain ⟨rfl, hbody⟩ := eq_of_closing? hclosing
        exact .quoted hbody
      · exact absurd h (by simp)
    · exact foundAt_of_markOrBlanks? h

/-! ## What is kept of a text and what is left of it -/

variable {found : Separator}

/-- **A separator stands at the front of a text**, between blanks that it takes. -/
theorem FoundAt.exists_split (h : FoundAt cs found rest) :
    ∃ before after, (∀ c ∈ before, Text.isBlank c = true) ∧ (∀ c ∈ after, Text.isBlank c = true) ∧
      cs = before ++ (found.text ++ (after ++ rest)) := by
  have hnil := List.forall_mem_nil (Text.isBlank · = true)
  cases h with
  | number => exact ⟨[], [], hnil, hnil, rfl⟩
  | colon => exact ⟨[], [], hnil, hnil, rfl⟩
  | quoted => exact ⟨[], [], hnil, hnil, by simp [Separator.text]⟩
  | @mark before text rest hbefore =>
    obtain ⟨after, hafter, hrest⟩ := Text.exists_dropBlanks rest
    exact ⟨before, after, hbefore, hafter, by rw [← hrest]; rfl⟩
  | @blank front _ last hfront => exact ⟨front, [], hfront, hnil, rfl⟩

/-- **What a separator keeps**: a numeral, a text without quotes between quotes, a mark or a
blank. -/
def WellCut : Separator → Prop
  | .number text => IsNumeral text
  | .colon => True
  | .quoted body => '"' ∉ body
  | .mark text => IsMark text
  | .blank last => Text.isBlank last = true

theorem FoundAt.wellCut (h : FoundAt cs found rest) : found.WellCut := by
  cases h with
  | number h => exact h
  | colon => trivial
  | quoted h => exact h
  | mark _ h => exact h
  | blank _ hlast => exact hlast

/-- The quotes of a separator are closed within it. -/
theorem WellCut.even_count (h : found.WellCut) : Even (found.text.count '"') := by
  have heven {text : List Char} (hnone : '"' ∉ text) : Even (text.count '"') := by
    rw [List.count_eq_zero_of_not_mem hnone]
    decide
  cases found with
  | number text => exact heven fun hmem => by simpa using IsNumeral.mem h _ hmem
  | colon => exact heven (by decide)
  | quoted body =>
    have hbody : body.count '"' = 0 := List.count_eq_zero_of_not_mem h
    simp only [Separator.text, List.cons_append, List.count_cons_self, List.count_append, hbody]
    decide
  | mark text => exact heven fun hmem => absurd (IsMark.mem_marks h |>.2 _ hmem) (by decide)
  | blank last =>
    exact heven fun hmem => Text.ne_of_isBlank h (by decide) (List.mem_singleton.1 hmem).symm

end Separator

end TreeQuery
