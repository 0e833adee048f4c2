import TreeQuery.Proofs.Token.Gap
import TreeQuery.Proofs.Token.Quoted

/-!
# Proofs/Token/Stream — what the tokens of a text look like

`Fragment.Becomes` lists the tokens that fragments become, by what they consist of
(`Fragment.WellCut.becomes`).  From it and from the neighbours of fragments and tokens comes the
shape of every row of tokens, `StreamShape`: what each token holds, which tokens stand next to each
other, and that the digits of a text lie in its numbers.

Quoted texts of several lines are left out: such a text becomes one operator, quotes and all.  No
other token depends on them.
-/

namespace TreeQuery

/-! ## The token of a fragment -/

/-- The operators that are not blank. -/
def punctuation : List String := [":", "~", ">", "<", "<=", "=", "+", "[", "]", "(", ")"]

/-- **Which token a fragment becomes.** -/
inductive Fragment.Becomes : Fragment → Token → Prop
  | keyword {f : Fragment} (h : hasReservedWord f.text = true) :
      Becomes f (.keyword (String.ofList f.text))
  | identifier {text : List Char} (hchars : ∀ c ∈ text, GapChar c) (hne : text ≠ [])
      (h : hasReservedWord text = false) :
      Becomes (.gap text) (.identifier (String.ofList text))
  | number {text : List Char} (h : IsNumeral text) (x : Float) :
      Becomes (.separator (.number text)) (.number x)
  | string {body : List Char} (hquote : '"' ∉ body) (hline : '\n' ∉ body)
      (h : hasReservedWord body = false) :
      Becomes (.separator (.quoted body)) (.string (String.ofList body))
  | quotedLines {body : List Char} (hline : '\n' ∈ body) :
      Becomes (.separator (.quoted body)) (.operator (String.ofList ('"' :: body ++ ['"'])))
  | wildcard : Becomes (.separator (.mark ['*'])) .wildcard
  | mark {found : Separator} {op : String} (h : op ∈ punctuation) :
      Becomes (.separator found) (.operator op)
  | blank {c : Char} (h : Text.isBlank c = true) :
      Becomes (.separator (.blank c)) (.operator (String.singleton c))

section Becomes

variable {cs text body : List Char}

/-- A mark is a wildcard or an operator. -/
theorem ofText_mark (h : Separator.IsMark text) :
    text = ['*'] ∧ Token.ofText text = .wildcard ∨
      ∃ op ∈ punctuation, Token.ofText text = .operator op := by
  rcases h with rfl | ⟨m, hm, rfl⟩
  · exact .inr ⟨"<=", by decide, by decide⟩
  · have hmarks : ∀ m ∈ marks, m = '*' ∨ m = '<' ∨ m ∈ operatorMarks := by
      simp [marks, operatorMarks]
    have hops : ∀ m ∈ operatorMarks, String.singleton m ∈ punctuation := by
      simp [operatorMarks, punctuation]
    rcases hmarks m hm with rfl | rfl | hop
    · exact .inl ⟨rfl, by decide⟩
    · exact .inr ⟨"<", by decide, by decide⟩
    · exact .inr ⟨_, hops m hop, ofText_operatorMark hop⟩

/-- What has no reserved word has none in any part. -/
theorem hasReservedWord_eq_false_of_infix {part : List Char} (h : hasReservedWord cs = false)
    (hpart : part <:+: cs) : hasReservedWord part = false :=
  hasReservedWord_eq_false_iff.2 fun word hword hoccurs =>
    hasReservedWord_eq_false_iff.1 h word hword (hoccurs.trans hpart)

/-- **Every fragment becomes a token of its kind.** -/
theorem Fragment.WellCut.becomes {f : Fragment} (h : f.WellCut) (hne : f.text ≠ []) :
    f.Becomes (Token.ofText f.text) := by
  by_cases hreserved : hasReservedWord f.text = true
  · rw [ofText_of_hasReservedWord hreserved]
    exact .keyword hreserved
  rw [Bool.not_eq_true] at hreserved
  match f with
  | .gap text =>
    rw [Fragment.text, ofText_gap h.1 h.2 hreserved]
    exact .identifier h.1 hne hreserved
  | .separator (.number text) =>
    obtain ⟨x, hx⟩ := IsNumeral.exists_numberOf? h
    rw [Fragment.text, Separator.text, ofText_numeral h hx]
    exact .number h x
  | .separator .colon =>
    rw [Fragment.text, Separator.text, ofText_colon]
    exact .mark (by decide)
  | .separator (.quoted body) =>
    have hbody : hasReservedWord body = false :=
      hasReservedWord_eq_false_of_infix hreserved ⟨['"'], ['"'], rfl⟩
    rw [Fragment.text, Separator.text]
    by_cases hline : '\n' ∈ body
    · rw [ofText_quotedLines h hline hbody]
      exact .quotedLines hline
    · rw [ofText_quoted hline hbody]
      exact .string h hline hbody
  | .separator (.mark text) =>
    rw [Fragment.text, Separator.text]
    rcases ofText_mark h with ⟨rfl, hwildcard⟩ | ⟨op, hop, hmark⟩
    · exact hwildcard ▸ .wildcard
    · exact hmark ▸ .mark hop
  | .separator (.blank c) =>
    rw [Fragment.text, Separator.text, ofText_blank h, ← String.singleton_eq_ofList]
    exact .blank h

end Becomes

/-! ## Tokens of texts -/

/-- **What the tokens of a text hold**, class by class. -/
def Token.WellFormed : Token → Prop
  | .wildcard | .number _ => True
  | .keyword text => ∃ word ∈ reservedWords, word.toList <:+: text.toList
  | .string text => '"' ∉ text.toList ∧ ∀ word ∈ reservedWords, ¬ word.toList <:+: text.toList
  | .operator op => op ∈ punctuation ∨ ∃ c, Text.isBlank c = true ∧ op = String.singleton c
  | .identifier name => name ≠ "" ∧
      (∀ c ∈ name.toList, c.isDigit = false ∧ Text.isBlank c = false ∧ c ∉ ":*~<>=+[]()".toList) ∧
      ∀ word ∈ reservedWords, ¬ word.toList <:+: name.toList

/-- Whether a token is an identifier. -/
def Token.IsIdentifier : Token → Prop
  | .identifier _ => True
  | _ => False

section Tokens

variable {f : Fragment} {token : Token}

theorem GapChar.not_mem_punctuation {c : Char} (h : GapChar c) : c ∉ ":*~<>=+[]()".toList := by
  have hpunctuation : ∀ d ∈ ":*~<>=+[]()".toList, d = ':' ∨ d ∈ marks := by simp [marks]
  exact fun hc => (hpunctuation c hc).elim h.notColon h.notMark

/-- **A fragment becomes a well-formed token**, unless it is a quoted text of several lines. -/
theorem Fragment.Becomes.wellFormed (h : f.Becomes token)
    (hline : ∀ body, f = .separator (.quoted body) → '\n' ∉ body) : token.WellFormed := by
  cases h with
  | keyword h =>
    obtain ⟨word, hword, hoccurs⟩ := List.any_eq_true.1 h
    exact ⟨word, hword, by rwa [String.toList_ofList, ← occursIn_iff]⟩
  | @identifier text hchars hne h =>
    refine ⟨fun hempty => hne ?_, fun c hc => ?_, ?_⟩
    · rw [← String.toList_ofList (l := text), hempty, String.toList_empty]
    · rw [String.toList_ofList] at hc
      exact ⟨(hchars c hc).notDigit, (hchars c hc).notBlank, (hchars c hc).not_mem_punctuation⟩
    · rw [String.toList_ofList]
      exact hasReservedWord_eq_false_iff.1 h
  | string hquote _ h =>
    rw [Token.WellFormed, String.toList_ofList]
    exact ⟨hquote, hasReservedWord_eq_false_iff.1 h⟩
  | quotedLines hline' => exact absurd hline' (hline _ rfl)
  | mark h => exact .inl h
  | blank h => exact .inr ⟨_, h, rfl⟩
  | _ => trivial

/-- Only gaps become identifiers. -/
theorem Fragment.Becomes.isGap (h : f.Becomes token) (hid : token.IsIdentifier) : f.IsGap := by
  cases h with
  | identifier => trivial
  | _ => exact hid.elim

/-- **Identifiers consist of gap characters**, wherever quotes stand in the text. -/
theorem gapChar_of_mem_identifier {text name : String} {c : Char}
    (h : .identifier name ∈ tokenize text) (hc : c ∈ name.toList) : GapChar c := by
  obtain ⟨f, hf, htoken⟩ := List.mem_map.1 h
  obtain ⟨hwell, hne⟩ := wellCut_of_mem_fragments hf
  have hbecomes := hwell.becomes hne
  rw [htoken] at hbecomes
  cases hbecomes with
  | identifier hchars =>
    rw [String.toList_ofList] at hc
    exact hchars c hc

end Tokens

/-! ## Where a character stands -/

namespace Text

/-- **Between the quotes of a quoted text**: of what stands between these two texts, a quote opens a
quoted text before it and another one closes it. -/
def Enclosed (before after : List Char) : Prop := ¬ Even (before.count '"') ∧ '"' ∈ after

instance (before after : List Char) : Decidable (Enclosed before after) :=
  inferInstanceAs (Decidable (_ ∧ _))

/-- **No quoted text goes over a line feed.** -/
def QuotedOnLines (cs : List Char) : Prop :=
  ∀ before after, cs = before ++ '\n' :: after → ¬ Enclosed before after

theorem quotedOnLines_iff {cs : List Char} : QuotedOnLines cs ↔
    ∀ i < cs.length, cs[i]? = some '\n' → ¬ Enclosed (cs.take i) (cs.drop (i + 1)) := by
  constructor
  · intro h i hi hline
    obtain ⟨_, hget⟩ := List.getElem?_eq_some_iff.1 hline
    refine h _ _ ?_
    rw [← hget, List.getElem_cons_drop, List.take_append_drop]
  · rintro h before after rfl
    have hat := h before.length (by simp) (by simp)
    simpa using hat

instance (cs : List Char) : Decidable (QuotedOnLines cs) :=
  decidable_of_iff _ quotedOnLines_iff.symm

/-- **A character stands in a piece**: what comes before the piece covers the text in front of it,
up to what the piece holds of it, and what comes after the piece covers the text behind. -/
def StandsIn (before : List Char) (c : Char) (after : List Char) (front : List (List Char))
    (piece : List Char) (back : List (List Char)) : Prop :=
  ∃ covered left right covered', before = covered ++ left ∧ piece = left ++ c :: right ∧
    after = right ++ covered' ∧ Covers front covered ∧ Covers back covered'

/-- **Every character that is no blank stands in a piece.** -/
theorem Covers.exists_standsIn {pieces : List (List Char)} {cs before after : List Char} {c : Char}
    (h : Covers pieces cs) (hcs : cs = before ++ c :: after) (hc : isBlank c = false) :
    ∃ front piece back, pieces = front ++ piece :: back ∧
      StandsIn before c after front piece back := by
  have hnot {blanks : List Char} (hblanks : ∀ c ∈ blanks, isBlank c = true) : c ∉ blanks :=
    fun hmem => by simp [hblanks c hmem] at hc
  induction h generalizing before with
  | nil hblanks => exact absurd (hcs ▸ by simp) (hnot hblanks)
  | @cons blanks piece cs pieces hblanks hne h ih =>
    obtain ⟨rest, rfl, hrest⟩ := exists_of_append_cons_eq_append (hnot hblanks) hcs.symm
    -- in this piece or in a later one
    have hlater (later : List Char) (hcs : cs = later ++ c :: after)
        (hlater : rest = piece ++ later) :
        ∃ front found back, piece :: pieces = front ++ found :: back ∧
          StandsIn (blanks ++ rest) c after front found back := by
      obtain ⟨front, found, back, rfl, covered, left, right, covered', rfl, rfl, rfl, hfront,
        hback⟩ := ih hcs
      exact ⟨piece :: front, _, back, rfl, blanks ++ (piece ++ covered), left, right, covered',
        by simp [hlater], rfl, rfl, .cons hblanks hne hfront, hback⟩
    rcases List.append_eq_append_iff.1 hrest with ⟨later, hrest, hcs⟩ | ⟨right, hpiece, hright⟩
    · exact hlater later hcs hrest
    · cases right with
      | nil => exact hlater [] hright.symm (by simpa using hpiece.symm)
      | cons d right =>
        obtain ⟨rfl, rfl⟩ := List.cons.inj hright
        exact ⟨[], piece, pieces, rfl, blanks, rest, right, cs, rfl, hpiece, rfl, .nil hblanks, h⟩

end Text

open Text (Enclosed QuotedOnLines StandsIn)

section Quoted

variable {cs before after body : List Char} {c : Char} {front back : List Fragment}

theorem exists_of_quoted_eq {left right : List Char} (h : '"' :: body ++ ['"'] = left ++ c :: right)
    (hc : c ≠ '"') :
    ∃ left' right', left = '"' :: left' ∧ right = right' ++ ['"'] ∧
      body = left' ++ c :: right' := by
  cases left with
  | nil => exact absurd (List.cons.inj h).1.symm hc
  | cons quote left =>
    obtain ⟨rfl, htail⟩ := List.cons.inj h
    change body ++ ['"'] = left ++ c :: right at htail
    obtain rfl | ⟨right, quote, rfl⟩ := List.eq_nil_or_concat' right
    · exact absurd (List.append_singleton_inj.1 htail).2.symm hc
    · rw [← List.cons_append, ← List.append_assoc, List.append_singleton_inj] at htail
      obtain ⟨rfl, rfl⟩ := htail
      exact ⟨left, right, rfl, rfl, rfl⟩

/-- **What stands in a quoted text, the quotes apart, is enclosed by them.** -/
theorem enclosed_of_standsIn
    (hfragments : fragments cs = front ++ .separator (.quoted body) :: back) (hbody : '"' ∉ body)
    (h : StandsIn before c after (front.map Fragment.text) ('"' :: body ++ ['"'])
      (back.map Fragment.text)) (hc : c ≠ '"') : Enclosed before after := by
  obtain ⟨covered, left, right, covered', rfl, hpiece, rfl, hfront, -⟩ := h
  obtain ⟨left, right, rfl, rfl, rfl⟩ := exists_of_quoted_eq hpiece hc
  have heven : Even (covered.count '"') := by
    rw [← hfront.count_flatten (by decide)]
    exact even_count_of_quoted hfragments trivial
  have hleft : '"' ∉ left := fun hmem => hbody (List.mem_append_left _ hmem)
  refine ⟨?_, by simp⟩
  simp [List.count_eq_zero_of_not_mem hleft, Nat.even_add_one, heven]

/-- Where no quoted text goes over a line feed, none of the fragments does. -/
theorem line_not_mem_of_quotedOnLines (h : QuotedOnLines cs)
    (hf : .separator (.quoted body) ∈ fragments cs) : '\n' ∉ body := by
  intro hline
  have hbody : '"' ∉ body := (wellCut_of_mem_fragments hf).1
  obtain ⟨front, back, hfragments⟩ := List.append_of_mem hf
  have hcovers := covers_fragments cs
  rw [hfragments, List.map_append, List.map_cons] at hcovers
  obtain ⟨before, after, hcs, hfront, hback⟩ := hcovers.exists_split
  obtain ⟨left, right, rfl⟩ := List.append_of_mem hline
  have hstands : StandsIn (before ++ '"' :: left) '\n' (right ++ ['"'] ++ after)
      (front.map Fragment.text) ('"' :: (left ++ '\n' :: right) ++ ['"'])
      (back.map Fragment.text) :=
    ⟨before, '"' :: left, right ++ ['"'], after, rfl, by simp, rfl, hfront, hback⟩
  refine h _ _ ?_ (enclosed_of_standsIn hfragments hbody hstands (by decide))
  simpa [Fragment.text, Separator.text] using hcs

end Quoted

/-! ## The shape of a row of tokens -/

section Shape

variable {text : String} {cs : List Char} {f : Fragment} {token : Token}

/-- A fragment with a digit is a number or a quoted text. -/
theorem Fragment.WellCut.of_isDigit {d : Char} (h : f.WellCut) (hd : d ∈ f.text)
    (hdigit : d.isDigit = true) :
    (∃ numeral, f = .separator (.number numeral)) ∨ ∃ body, f = .separator (.quoted body) := by
  match f with
  | .gap text => simp [(h.1 d hd).notDigit] at hdigit
  | .separator (.number text) => exact .inl ⟨text, rfl⟩
  | .separator .colon =>
    obtain rfl := List.mem_singleton.1 hd
    exact absurd hdigit (by decide)
  | .separator (.quoted body) => exact .inr ⟨body, rfl⟩
  | .separator (.mark text) =>
    have := Separator.of_mem_marks d ((Separator.IsMark.mem_marks h).2 d hd)
    simp [this.2.1] at hdigit
  | .separator (.blank c) =>
    obtain rfl := List.mem_singleton.1 hd
    simp [Text.isDigit_of_isBlank h] at hdigit

/-- **A digit that no quotes enclose stands in a number.** -/
theorem exists_number_of_isDigit {before after : List Char} {d : Char}
    (hcs : cs = before ++ d :: after) (hdigit : d.isDigit = true) (hout : ¬ Enclosed before after) :
    ∃ front numeral back, (fragments cs).map Fragment.text = front ++ numeral :: back ∧
      StandsIn before d after front numeral back ∧ ∃ x, Token.ofText numeral = .number x := by
  have hblank : Text.isBlank d = false :=
    Bool.eq_false_iff.2 fun h => by simp [Text.isDigit_of_isBlank h] at hdigit
  obtain ⟨_, _, _, hpieces, hstands⟩ := (covers_fragments cs).exists_standsIn hcs hblank
  obtain ⟨front, later, hfragments, rfl, hlater⟩ := List.map_eq_append_iff.1 hpieces
  obtain ⟨f, back, rfl, rfl, rfl⟩ := List.map_eq_cons_iff.1 hlater
  have hf : f ∈ fragments cs := hfragments ▸ List.mem_append_right _ List.mem_cons_self
  have hwell := (wellCut_of_mem_fragments hf).1
  have hmem : d ∈ f.text := by
    obtain ⟨_, left, right, _, _, hpiece, _⟩ := hstands
    simp [hpiece]
  refine ⟨_, _, _, hpieces, hstands, ?_⟩
  rcases hwell.of_isDigit hmem hdigit with ⟨numeral, rfl⟩ | ⟨body, rfl⟩
  · obtain ⟨x, hx⟩ := IsNumeral.exists_numberOf? hwell
    exact ⟨x, ofText_numeral hwell hx⟩
  · have hquote : d ≠ '"' := by
      rintro rfl
      exact absurd hdigit (by decide)
    exact absurd (enclosed_of_standsIn hfragments hwell hstands hquote) hout

/-- **No two identifiers stand next to each other.** -/
theorem isChain_isIdentifier (text : String) :
    (tokenize text).IsChain fun token next => ¬ (token.IsIdentifier ∧ next.IsIdentifier) := by
  rw [tokenize, List.isChain_map]
  refine (isChain_fragments _).imp_of_mem_imp fun f g hf hg hparted hids => hparted ?_
  obtain ⟨hf, hfne⟩ := wellCut_of_mem_fragments hf
  obtain ⟨hg, hgne⟩ := wellCut_of_mem_fragments hg
  exact ⟨(hf.becomes hfne).isGap hids.1, (hg.becomes hgne).isGap hids.2⟩

/-- The fragments of a text cover what trimming leaves of it. -/
theorem covers_trim (cs : List Char) :
    Text.Covers ((fragments cs).map Fragment.text) (Text.trim cs) :=
  covers_cut (Text.trim cs)

theorem not_isBlank_of_exists {cs : List Char} (h : ∃ c ∈ cs, Text.isBlank c = false) :
    ¬ (Token.ofText cs).IsBlank := fun hblank => by
  obtain ⟨c, hc, hnot⟩ := h
  simp [hblank.of_ofText c hc] at hnot

/-- **The first token is not blank**, … -/
theorem not_isBlank_of_head (text : String) :
    ∀ token ∈ (tokenize text).head?, ¬ token.IsBlank := by
  intro token h
  obtain ⟨later, htokens⟩ := List.head?_eq_some_iff.1 h
  rw [tokenize_eq_map] at htokens
  obtain ⟨piece, pieces, hpieces, rfl, -⟩ := List.map_eq_cons_iff.1 htokens
  have hcovers := covers_trim text.toList
  rw [hpieces] at hcovers
  refine not_isBlank_of_exists (hcovers.exists_of_head ?_)
  rw [← Text.dropBlanks_trimEnd]
  exact Text.head_dropBlanks

/-- … **and neither is the last.** -/
theorem not_isBlank_of_getLast (text : String) :
    ∀ token ∈ (tokenize text).getLast?, ¬ token.IsBlank := by
  intro token h
  obtain ⟨front, htokens⟩ := List.getLast?_eq_some_iff.1 h
  rw [tokenize_eq_map] at htokens
  obtain ⟨pieces, last, hpieces, -, hlast⟩ := List.map_eq_append_iff.1 htokens
  obtain ⟨piece, _, rfl, rfl, hnil⟩ := List.map_eq_cons_iff.1 hlast
  obtain rfl := List.map_eq_nil_iff.1 hnil
  have hcovers := covers_trim text.toList
  have hne : piece ≠ [] := by
    have hmem : piece ∈ (fragments text.toList).map Fragment.text := by simp [hpieces]
    obtain ⟨f, hf, rfl⟩ := List.mem_map.1 hmem
    exact (wellCut_of_mem_fragments hf).2
  rw [hpieces] at hcovers
  refine not_isBlank_of_exists (hcovers.exists_of_getLast hne ?_)
  rw [Text.trim_eq_trimEnd]
  exact Text.getLast_trimEnd

/-- **What the tokens of a text look like.** -/
theorem wellFormed_of_mem_tokenize (hlines : QuotedOnLines text.toList) :
    ∀ token ∈ tokenize text, token.WellFormed := by
  intro token htoken
  obtain ⟨f, hf, rfl⟩ := List.mem_map.1 htoken
  obtain ⟨hwell, hne⟩ := wellCut_of_mem_fragments hf
  refine (hwell.becomes hne).wellFormed fun body hbody => ?_
  subst hbody
  exact line_not_mem_of_quotedOnLines hlines hf

/-- **The shape of the tokens of a text.** -/
structure StreamShape (text : String) : Prop where
  /-- Every token holds what its class says. -/
  wellFormed : ∀ token ∈ tokenize text, token.WellFormed
  /-- Every digit that no quotes enclose stands in a number. -/
  digit {before after : List Char} {d : Char} (h : text.toList = before ++ d :: after)
    (hdigit : d.isDigit = true) (hout : ¬ Enclosed before after) :
    ∃ front numeral back, (fragments text.toList).map Fragment.text = front ++ numeral :: back ∧
      StandsIn before d after front numeral back ∧ ∃ x, Token.ofText numeral = .number x
  /-- The tokens are those of the fragments, and of two neighbours one is a separator, … -/
  tokens : tokenize text = (fragments text.toList).map fun f => Token.ofText f.text
  parted : (fragments text.toList).IsChain fun f g => ¬ (f.IsGap ∧ g.IsGap)
  /-- … so no two identifiers stand next to each other. -/
  identifiers : (tokenize text).IsChain fun token next => ¬ (token.IsIdentifier ∧ next.IsIdentifier)
  /-- Neither the first token nor the last is blank, … -/
  head : ∀ token ∈ (tokenize text).head?, ¬ token.IsBlank
  getLast : ∀ token ∈ (tokenize text).getLast?, ¬ token.IsBlank
  /-- … and none next to a blank, a mark or the wildcard. -/
  blanksApart : (tokenize text).IsChain BlanksApart

/-- **The tokens of every text are in shape**, if no quoted text of it goes over a line feed. -/
theorem streamShape (text : String) (hlines : QuotedOnLines text.toList) : StreamShape text where
  wellFormed := wellFormed_of_mem_tokenize hlines
  digit := exists_number_of_isDigit
  tokens := rfl
  parted := isChain_fragments _
  identifiers := isChain_isIdentifier text
  head := not_isBlank_of_head text
  getLast := not_isBlank_of_getLast text
  blanksApart := isChain_tokenize text

/-- In `a1 >=\n[b = "2 ~"] "c 3` a line feed stands outside of the quoted text, and the last quote
encloses nothing: the `3` behind it is a number, the `2` is none. -/
theorem streamShape_unclosedQuote :
    QuotedOnLines "a1 >=\n[b = \"2 ~\"] \"c 3".toList ∧
    StreamShape "a1 >=\n[b = \"2 ~\"] \"c 3" ∧
    tokenize "a1 >=\n[b = \"2 ~\"] \"c 3" = [.identifier "a", .number 1, .operator ">",
      .operator "=", .operator "[", .identifier "b", .operator "=", .string "2 ~", .operator "]",
      .identifier "\"c", .operator " ", .number 3] := by
  have hlines : QuotedOnLines "a1 >=\n[b = \"2 ~\"] \"c 3".toList := by decide
  exact ⟨hlines, streamShape _ hlines, by decide +kernel⟩

end Shape

end TreeQuery
