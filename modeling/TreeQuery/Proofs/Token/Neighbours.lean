import Mathlib.Data.List.Chain
import TreeQuery.Proofs.Token.Found

/-!
# Proofs/Token/Neighbours — which tokens stand next to a blank

Marks and runs of blanks take the blanks around them, so of two neighbouring tokens a blank
operator never stands next to a mark or to another blank operator.  This is `BlanksApart`, and
`isChain_tokenize` is the main statement: it holds of every two neighbours in the tokens of every
text.
-/

namespace TreeQuery

namespace Token

/-- A blank operator: one that stands for the descendant combinator. -/
def IsBlank : Token → Prop
  | .operator op => op ≠ "" ∧ ∀ c ∈ op.toList, Text.isBlank c = true
  | _ => False

/-- **Two tokens that are the same, or both operators of one blank.** -/
inductive Alike : Token → Token → Prop
  | refl (token : Token) : Alike token token
  | blanks {c d : Char} (hc : Text.isBlank c = true) (hd : Text.isBlank d = true) :
      Alike (.operator (String.singleton c)) (.operator (String.singleton d))

/-- **The tokens that take the blanks around them**: the wildcard, and the operators that consist of
punctuation marks or blanks.  The colon is not among the marks. -/
def TakesBlanks : Token → Prop
  | .wildcard => True
  | .operator op => ∀ c ∈ op.toList, Text.isBlank c = true ∨ c ∈ marks
  | _ => False

theorem IsBlank.takesBlanks {token : Token} (h : token.IsBlank) : token.TakesBlanks := by
  cases token with
  | operator op => exact fun c hc => .inl (h.2 c hc)
  | _ => exact h.elim

/-! ## The class of a fragment tells what it consists of -/

variable {cs : List Char}

theorem eq_of_ofText_eq_operator {op : String} (h : ofText cs = .operator op) :
    String.ofList cs = op := by
  unfold ofText at h
  grind

theorem eq_of_ofText_eq_wildcard (h : ofText cs = .wildcard) : cs = ['*'] := by
  unfold ofText at h
  grind

/-- A blank operator is made of blanks. -/
theorem IsBlank.of_ofText (h : (ofText cs).IsBlank) : ∀ c ∈ cs, Text.isBlank c = true := by
  cases htoken : ofText cs with
  | operator op =>
    rw [htoken, ← eq_of_ofText_eq_operator htoken, IsBlank, String.toList_ofList] at h
    exact h.2
  | _ =>
    rw [htoken] at h
    exact h.elim

/-- A token that takes blanks is made of marks and blanks. -/
theorem TakesBlanks.of_ofText (h : (ofText cs).TakesBlanks) :
    ∀ c ∈ cs, Text.isBlank c = true ∨ c ∈ marks := by
  cases htoken : ofText cs with
  | wildcard => simp [eq_of_ofText_eq_wildcard htoken, marks]
  | operator op =>
    rw [htoken, ← eq_of_ofText_eq_operator htoken, TakesBlanks, String.toList_ofList] at h
    exact h
  | _ =>
    rw [htoken] at h
    exact h.elim

/-- A fragment with something that is neither a mark nor a blank takes no blanks. -/
theorem not_takesBlanks_ofText {c : Char} (hc : c ∈ cs) (hblank : Text.isBlank c = false)
    (hmark : c ∉ marks) : ¬ (ofText cs).TakesBlanks := fun h =>
  (h.of_ofText c hc).elim (by simp [hblank]) hmark

end Token

namespace Separator

variable {cs rest : List Char} {found : Separator}

theorem FoundAt.text_ne_nil (h : FoundAt cs found rest) : found.text ≠ [] := by
  cases h with
  | number h => exact h.ne_nil
  | mark _ h => exact h.mem_marks.1
  | _ => exact List.cons_ne_nil _ _

/-- A separator begins where the text begins, or after blanks. -/
theorem FoundAt.exists_head (h : FoundAt cs found rest) :
    ∃ c ∈ cs.head?, c ∈ found.text ∨ Text.isBlank c = true := by
  cases h with
  | number h =>
    obtain ⟨c, text, rfl⟩ := List.exists_cons_of_ne_nil h.ne_nil
    exact ⟨c, rfl, .inl List.mem_cons_self⟩
  | colon | quoted => exact ⟨_, rfl, .inl List.mem_cons_self⟩
  | @mark before text rest hbefore h =>
    cases before with
    | cons c before => exact ⟨c, rfl, .inr (hbefore c List.mem_cons_self)⟩
    | nil =>
      obtain ⟨c, text, rfl⟩ := List.exists_cons_of_ne_nil h.mem_marks.1
      exact ⟨c, rfl, .inl List.mem_cons_self⟩
  | @blank front _ _ hfront hlast _ =>
    cases front with
    | cons c front => exact ⟨c, rfl, .inr (hfront c List.mem_cons_self)⟩
    | nil => exact ⟨_, rfl, .inr hlast⟩

/-- Numbers, colons and quoted texts take no blanks. -/
theorem FoundAt.mark_or_blank_of_takesBlanks (h : FoundAt cs found rest)
    (htakes : (Token.ofText found.text).TakesBlanks) :
    (∃ text, found = .mark text) ∨ ∃ last, found = .blank last := by
  cases h with
  | number h =>
    obtain ⟨d, hd, hdigit⟩ := h.exists_isDigit
    refine absurd htakes (Token.not_takesBlanks_ofText hd ?_ ?_)
    · exact Bool.eq_false_iff.2 fun h => by simp [Text.isDigit_of_isBlank h] at hdigit
    · exact fun hm => by simp [(of_mem_marks d hm).2.1] at hdigit
  | colon =>
    refine absurd htakes (Token.not_takesBlanks_ofText List.mem_cons_self ?_ ?_) <;> decide
  | quoted =>
    refine absurd htakes (Token.not_takesBlanks_ofText List.mem_cons_self ?_ ?_) <;> decide
  | mark => exact .inl ⟨_, rfl⟩
  | blank => exact .inr ⟨_, rfl⟩

/-- A mark is no blank. -/
theorem IsMark.not_isBlank_ofText {text : List Char} (h : IsMark text) :
    ¬ (Token.ofText text).IsBlank := by
  intro hblank
  obtain ⟨c, hc⟩ := List.exists_mem_of_ne_nil _ h.mem_marks.1
  have := (of_mem_marks c (h.mem_marks.2 c hc)).1
  simp [hblank.of_ofText c hc] at this

/-- Where no separator begins, there is neither a blank nor a mark. -/
theorem head_of_scan?_eq_none {c : Char} (h : scan? (c :: cs) = none) :
    Text.isBlank c = false ∧ c ∉ marks := by
  have hnone : (scan? (c :: cs)).isSome = false := by rw [h, Option.isSome_none]
  constructor
  · exact Bool.eq_false_iff.2 fun hc => by simp [isSome_scan?_of_isBlank hc] at hnone
  · exact fun hc => by simp [isSome_scan?_of_mem_marks hc] at hnone

end Separator

/-! ## The first token of a text -/

section First

variable {cs : List Char} {token : Token}

theorem tokensFrom_cons_of_scan?_eq_none {c : Char} (h : Separator.scan? (c :: cs) = none) :
    tokensFrom (c :: cs) = Token.ofText (c :: (cut cs).1) :: tokensOf (cut cs).2 := by
  rw [tokensFrom, cut_cons h]
  exact tokensOf_cons (f := .gap (c :: (cut cs).1)) (List.cons_ne_nil _ _)

/-- The first token begins where the text begins, or after blanks. -/
theorem exists_head_of_head_tokensFrom (ht : token ∈ (tokensFrom cs).head?) :
    ∃ text, token = Token.ofText text ∧ ∃ c ∈ cs.head?, c ∈ text ∨ Text.isBlank c = true := by
  cases hscan : Separator.scan? cs with
  | none =>
    cases cs with
    | nil => simp [tokensFrom_nil] at ht
    | cons c cs =>
      rw [tokensFrom_cons_of_scan?_eq_none hscan] at ht
      exact ⟨_, (Option.some.inj ht).symm, c, rfl, .inl List.mem_cons_self⟩
  | some read =>
    obtain ⟨found, rest⟩ := read
    have hfound := Separator.foundAt_of_scan? hscan
    rw [tokensFrom_of_scan? hscan hfound.text_ne_nil] at ht
    exact ⟨_, (Option.some.inj ht).symm, hfound.exists_head⟩

/-- **The first token takes blanks only if the text begins with a blank or a mark.** -/
theorem head_of_takesBlanks (ht : token ∈ (tokensFrom cs).head?) (h : token.TakesBlanks) :
    ∃ c ∈ cs.head?, Text.isBlank c = true ∨ c ∈ marks := by
  obtain ⟨text, rfl, c, hc, htext | hblank⟩ := exists_head_of_head_tokensFrom ht
  · exact ⟨c, hc, h.of_ofText c htext⟩
  · exact ⟨c, hc, .inl hblank⟩

/-- **The first token is blank only if the text begins with a blank.** -/
theorem head_of_isBlank (ht : token ∈ (tokensFrom cs).head?) (h : token.IsBlank) :
    ∃ c ∈ cs.head?, Text.isBlank c = true := by
  obtain ⟨text, rfl, c, hc, htext | hblank⟩ := exists_head_of_head_tokensFrom ht
  · exact ⟨c, hc, h.of_ofText c htext⟩
  · exact ⟨c, hc, hblank⟩

end First

/-! ## Neighbours -/

/-- **Two neighbours keep blanks apart**: neither is blank if the other takes blanks. -/
structure BlanksApart (token next : Token) : Prop where
  right : token.IsBlank → ¬ next.TakesBlanks
  left : next.IsBlank → ¬ token.TakesBlanks

theorem BlanksApart.of_not_takesBlanks {token next : Token} (h : ¬ token.TakesBlanks) :
    BlanksApart token next :=
  ⟨fun hblank => absurd hblank.takesBlanks h, fun _ => h⟩

/-- The token of a separator and the first token of what it leaves. -/
theorem Separator.FoundAt.blanksApart {cs rest : List Char} {found : Separator} {next : Token}
    (h : FoundAt cs found rest) (hnext : next ∈ (tokensFrom rest).head?) :
    BlanksApart (Token.ofText found.text) next := by
  by_cases htakes : (Token.ofText found.text).TakesBlanks
  · obtain ⟨text, rfl⟩ | ⟨last, rfl⟩ := h.mark_or_blank_of_takesBlanks htakes
    · cases h with
      | mark _ htext =>
        refine ⟨fun hblank => absurd hblank htext.not_isBlank_ofText, fun hblank => ?_⟩
        obtain ⟨c, hc, hblank⟩ := head_of_isBlank hnext hblank
        simp [Text.head_dropBlanks c hc] at hblank
    · cases h with
      | blank _ _ hrest =>
        have hnot : ¬ next.TakesBlanks := fun htakes => by
          obtain ⟨c, hc, h⟩ := head_of_takesBlanks hnext htakes
          exact h.elim (by simp [(hrest c hc).1]) (hrest c hc).2
        exact ⟨fun _ => hnot, fun hblank => absurd hblank.takesBlanks hnot⟩
  · exact .of_not_takesBlanks htakes

theorem isChain_tokensFrom (cs : List Char) : (tokensFrom cs).IsChain BlanksApart := by
  induction cs using cut_induction with
  | nil =>
    rw [tokensFrom_nil]
    exact .nil
  | gap c cs hscan ih =>
    -- the tokens after a gap are those of a shorter text, less the gap at its front
    have hlater : (tokensOf (cut cs).2).IsChain BlanksApart := by
      by_cases hgap : (cut cs).1 = []
      · rwa [tokensFrom, tokensOf_cons_of_empty (f := .gap (cut cs).1) hgap] at ih
      · rw [tokensFrom, tokensOf_cons (f := .gap (cut cs).1) hgap] at ih
        exact ih.tail
    obtain ⟨hblank, hmark⟩ := Separator.head_of_scan?_eq_none hscan
    rw [tokensFrom_cons_of_scan?_eq_none hscan]
    exact List.isChain_cons.2 ⟨fun _ _ => .of_not_takesBlanks <|
      Token.not_takesBlanks_ofText List.mem_cons_self hblank hmark, hlater⟩
  | separator cs found rest hscan ih =>
    have hfound := Separator.foundAt_of_scan? hscan
    rw [tokensFrom_of_scan? hscan hfound.text_ne_nil]
    exact List.isChain_cons.2 ⟨fun _ hnext => hfound.blanksApart hnext, ih⟩

/-- **Of two neighbouring tokens of a text, neither is blank if the other takes blanks.** -/
theorem isChain_tokenize (text : String) : (tokenize text).IsChain BlanksApart :=
  tokenize_eq text ▸ isChain_tokensFrom _

end TreeQuery
