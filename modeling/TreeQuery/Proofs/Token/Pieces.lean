import TreeQuery.Proofs.Token.Scan
import TreeQuery.Token.Lexer

/-!
# Proofs/Token/Pieces — a text is lexed piece by piece

`tokensFrom` is the lexing of a text as it stands.  For each kind of piece — a name, a keyword, a
numeral, a quoted text, a colon, a mark, a run of blanks — one lemma says which token it gives in
front of a rest, and on which rest this depends: the tokens of a whole text are then read off piece
by piece, from its front.
-/

namespace TreeQuery

/-! ## Cutting, by equation -/

section Cut

variable {cs rest : List Char} {found : Separator}

theorem cut_nil : cut [] = ([], []) := by
  rw [cut]
  rfl

theorem cut_of_scan? (h : Separator.scan? cs = some (found, rest)) :
    cut cs = ([], .separator found :: .gap (cut rest).1 :: (cut rest).2) := by
  rw [cut]
  split
  · next h' =>
    obtain ⟨rfl, rfl⟩ := Prod.mk.inj (Option.some.inj (h'.symm.trans h))
    rfl
  · next h' => exact absurd (h'.symm.trans h) (by simp)

theorem cut_cons {c : Char} (h : Separator.scan? (c :: cs) = none) :
    cut (c :: cs) = (c :: (cut cs).1, (cut cs).2) := by
  rw [cut]
  split
  · next h' => exact absurd (h'.symm.trans h) (by simp)
  · rfl

/-- **Induction over the cut of a text**: where no separator begins, from the text behind the first
character; else from what the separator leaves. -/
@[elab_as_elim]
theorem cut_induction {motive : List Char → Prop} (nil : motive [])
    (gap : ∀ c cs, Separator.scan? (c :: cs) = none → motive cs → motive (c :: cs))
    (separator : ∀ cs found rest, Separator.scan? cs = some (found, rest) → motive rest → motive cs)
    (cs : List Char) : motive cs := by
  cases hscan : Separator.scan? cs with
  | none =>
    cases cs with
    | nil => exact nil
    | cons c cs => exact gap c cs hscan (cut_induction nil gap separator cs)
  | some read =>
    have hshorter := Separator.scan?_shorter hscan
    exact separator cs read.1 read.2 hscan (cut_induction nil gap separator read.2)
termination_by cs.length

/-- A run of plain characters goes to the gap at the front. -/
theorem cut_plain (hrest : EndsNumber rest) : ∀ {text : List Char}, (∀ c ∈ text, PlainChar c) →
    cut (text ++ rest) = (text ++ (cut rest).1, (cut rest).2)
  | [], _ => rfl
  | c :: text, h => by
    have hscan := Separator.scan?_plain h (List.cons_ne_nil _ _) hrest
    have ih := cut_plain hrest (List.forall_mem_cons.1 h).2
    exact (cut_cons hscan).trans (by rw [List.append_eq, ih]; rfl)

end Cut

/-- The tokens of some fragments; those that are empty give none. -/
def tokensOf (fragments : List Fragment) : List Token :=
  (fragments.filter fun f => !f.text.isEmpty).map fun f => Token.ofText f.text

theorem tokensOf_cons_of_empty {f : Fragment} {fragments : List Fragment} (h : f.text = []) :
    tokensOf (f :: fragments) = tokensOf fragments := by
  simp [tokensOf, h]

theorem tokensOf_cons {f : Fragment} {fragments : List Fragment} (h : f.text ≠ []) :
    tokensOf (f :: fragments) = Token.ofText f.text :: tokensOf fragments := by
  simp [tokensOf, h]

theorem tokensOf_append (fragments more : List Fragment) :
    tokensOf (fragments ++ more) = tokensOf fragments ++ tokensOf more := by
  simp [tokensOf]

/-- **The tokens of a text as it stands**, its blanks at the ends included. -/
def tokensFrom (cs : List Char) : List Token :=
  tokensOf (.gap (cut cs).1 :: (cut cs).2)

theorem tokenize_eq (selector : String) :
    tokenize selector = tokensFrom (Text.trim selector.toList) :=
  rfl

theorem tokensFrom_nil : tokensFrom [] = [] := by
  rw [tokensFrom, cut_nil]
  rfl

/-- **A separator at the front gives the first token.** -/
theorem tokensFrom_of_scan? {cs rest : List Char} {found : Separator}
    (h : Separator.scan? cs = some (found, rest)) (hne : found.text ≠ []) :
    tokensFrom cs = Token.ofText found.text :: tokensFrom rest := by
  simp only [tokensFrom, cut_of_scan? h]
  rw [tokensOf_cons_of_empty rfl, tokensOf_cons (f := .separator found) hne]
  rfl

/-- Whether what follows a name ends it: nothing, a blank, a colon or a mark. -/
def EndsName (rest : List Char) : Prop :=
  ∀ c ∈ rest.head?, Text.isBlank c = true ∨ c = ':' ∨ c ∈ marks

theorem EndsName.endsNumber {rest : List Char} (h : EndsName rest) : EndsNumber rest := by
  intro c hc
  rcases h c hc with hblank | rfl | hm
  · exact ⟨Text.isDigit_of_isBlank hblank, Text.ne_of_isBlank hblank (by decide)⟩
  · decide
  · obtain ⟨_, hdigit, hpoint, _⟩ := Separator.of_mem_marks c hm
    exact ⟨hdigit, hpoint⟩

namespace Separator

variable {c : Char} {rest : List Char}

theorem isSome_scan?_of_isBlank (hc : Text.isBlank c = true) :
    (scan? (c :: rest)).isSome = true := by
  rw [scan?_of_isBlank hc, markOrBlanks?]
  split
  · rfl
  · simp [hc]

theorem isSome_mark?_of_mem_marks (hc : c ∈ marks) : (mark? (c :: rest)).isSome = true := by
  unfold mark?
  split
  · rfl
  · next h =>
    obtain ⟨rfl, rfl⟩ := List.cons.inj h
    exact Option.isSome_iff_exists.2 ⟨_, if_pos hc⟩
  · next h => exact absurd h (List.cons_ne_nil _ _)

theorem isSome_scan?_of_mem_marks (hc : c ∈ marks) : (scan? (c :: rest)).isSome = true := by
  obtain ⟨hblank, _, _, _, hcolon, hquote⟩ := of_mem_marks c hc
  cases hnumber : number? (c :: rest) with
  | some read =>
    unfold scan?
    rw [hnumber]
    rfl
  | none =>
    have hdrop : Text.dropBlanks (c :: rest) = c :: rest :=
      Text.dropBlanks_of_head (by rintro _ ⟨⟩; exact hblank)
    have hsome : (mark? (c :: rest)).isSome = true := isSome_mark?_of_mem_marks hc
    obtain ⟨kept, hmark⟩ := Option.isSome_iff_exists.1 hsome
    rw [scan?_of_head hnumber (by rintro _ ⟨⟩; exact ⟨hcolon, hquote⟩), markOrBlanks?, hdrop, hmark]
    rfl

end Separator

/-- A separator begins where a name ends. -/
theorem EndsName.cut_fst {rest : List Char} (h : EndsName rest) : (cut rest).1 = [] := by
  cases rest with
  | nil => rw [cut_nil]
  | cons c rest =>
    have hscan : (Separator.scan? (c :: rest)).isSome = true := by
      rcases h c rfl with hblank | rfl | hm
      · exact Separator.isSome_scan?_of_isBlank hblank
      · rw [Separator.scan?_colon]
        rfl
      · exact Separator.isSome_scan?_of_mem_marks hm
    obtain ⟨⟨found, later⟩, hfound⟩ := Option.isSome_iff_exists.1 hscan
    rw [cut_of_scan? hfound]

/-- **A run of plain characters gives one token.** -/
theorem tokensFrom_plain {text rest : List Char} (htext : ∀ c ∈ text, PlainChar c) (hne : text ≠ [])
    (hrest : EndsName rest) : tokensFrom (text ++ rest) = Token.ofText text :: tokensFrom rest := by
  simp only [tokensFrom, cut_plain hrest.endsNumber htext, hrest.cut_fst, List.append_nil]
  rw [tokensOf_cons (f := .gap text) hne, tokensOf_cons_of_empty rfl]
  rfl

/-! ## The classes of fragments -/

theorem occursIn_iff {part : List Char} : ∀ {cs : List Char}, occursIn part cs = true ↔ part <:+: cs
  | [] => by simp [occursIn]
  | c :: cs => by
    rw [occursIn, Bool.or_eq_true, List.isPrefixOf_iff_prefix, occursIn_iff, List.infix_cons_iff]

theorem hasReservedWord_eq_false_iff {cs : List Char} :
    hasReservedWord cs = false ↔ ∀ word ∈ reservedWords, ¬ word.toList <:+: cs := by
  simp only [hasReservedWord, List.any_eq_false, occursIn_iff]

/-- Every reserved word has an `l`. -/
theorem hasReservedWord_eq_false {cs : List Char} (h : 'l' ∉ cs) : hasReservedWord cs = false := by
  have hl : ∀ word ∈ reservedWords, 'l' ∈ word.toList := by decide
  exact hasReservedWord_eq_false_iff.2 fun word hword hoccurs => h (hoccurs.subset (hl word hword))

theorem mem_of_quoteOnLine : ∀ {cs : List Char}, quoteOnLine cs = true → '"' ∈ cs
  | [], h => absurd h Bool.false_ne_true
  | c :: cs, h => by
    rw [quoteOnLine, Bool.or_eq_true, beq_iff_eq, Bool.and_eq_true] at h
    rcases h with rfl | ⟨_, h⟩
    · exact List.mem_cons_self
    · exact List.mem_cons_of_mem c (mem_of_quoteOnLine h)

/-- It takes two quotes to quote a text. -/
theorem two_le_count_of_hasQuotedLine : ∀ {cs : List Char}, hasQuotedLine cs = true →
    2 ≤ cs.count '"'
  | [], h => absurd h Bool.false_ne_true
  | c :: cs, h => by
    rw [hasQuotedLine, Bool.or_eq_true, Bool.and_eq_true, beq_iff_eq] at h
    rcases h with ⟨rfl, h⟩ | h
    · have := List.count_pos_iff.2 (mem_of_quoteOnLine h)
      rw [List.count_cons_self]
      omega
    · exact Nat.le_trans (two_le_count_of_hasQuotedLine h) List.count_le_count_cons

theorem hasQuotedLine_eq_false_of_count {cs : List Char} (h : cs.count '"' ≤ 1) :
    hasQuotedLine cs = false :=
  Bool.eq_false_iff.2 fun hline => by
    have := two_le_count_of_hasQuotedLine hline
    omega

theorem hasQuotedLine_eq_false {cs : List Char} (h : '"' ∉ cs) : hasQuotedLine cs = false :=
  hasQuotedLine_eq_false_of_count (by simp [List.count_eq_zero_of_not_mem h])

/-- What has a reserved word in it is a keyword. -/
theorem ofText_of_hasReservedWord {cs : List Char} (h : hasReservedWord cs = true) :
    Token.ofText cs = .keyword (String.ofList cs) := by
  have hstar : cs ≠ ['*'] := by
    rintro rfl
    exact absurd h (by decide)
  rw [Token.ofText, if_neg hstar, if_pos h]

theorem ofText_reservedWord {word : String} (h : word ∈ reservedWords) :
    Token.ofText word.toList = .keyword word := by
  have hreserved : hasReservedWord word.toList = true :=
    List.any_eq_true.2 ⟨word, h, occursIn_iff.2 (List.infix_refl _)⟩
  rw [ofText_of_hasReservedWord hreserved, String.ofList_toList]

theorem isOperatorChar_of_gapChar {c : Char} (h : GapChar c) : isOperatorChar c = false := by
  have hmarks : ∀ d ∈ ['~', '<', '>', '=', ':', '+', '[', ']', '(', ')'], d = ':' ∨ d ∈ marks := by
    simp [marks]
  rw [isOperatorChar, h.notBlank, Bool.or_false, decide_eq_false_iff_not]
  exact fun hc => (hmarks c hc).elim h.notColon h.notMark

theorem numberOf?_eq_none {text : List Char} (h : Separator.number? text = none) :
    numberOf? text = none := by
  unfold numberOf?
  rw [h]

/-- **A gap without a reserved word is an identifier.** -/
theorem ofText_gap {text : List Char} (hchars : ∀ c ∈ text, GapChar c)
    (hquotes : text.count '"' ≤ 1) (hreserved : hasReservedWord text = false) :
    Token.ofText text = .identifier (String.ofList text) := by
  have hstar : text ≠ ['*'] := by
    rintro rfl
    exact (hchars '*' List.mem_cons_self).notMark (by decide)
  have hline : hasQuotedLine text = false := hasQuotedLine_eq_false_of_count hquotes
  have hnumber : numberOf? text = none :=
    numberOf?_eq_none (Separator.number?_eq_none_of_isDigit fun c hc => (hchars c hc).notDigit)
  have hop : text.any isOperatorChar = false :=
    List.any_eq_false.2 fun c hc => by simp [isOperatorChar_of_gapChar (hchars c hc)]
  simp [Token.ofText, hstar, hreserved, hline, hnumber, hop]

theorem ofText_plain {text : List Char} (htext : ∀ c ∈ text, PlainChar c)
    (hreserved : hasReservedWord text = false) :
    Token.ofText text = .identifier (String.ofList text) := by
  have hquote : '"' ∉ text := fun hmem => (htext _ hmem).notQuote rfl
  refine ofText_gap (fun c hc => (htext c hc).gapChar) ?_ hreserved
  simp [List.count_eq_zero_of_not_mem hquote]

theorem IsNumeral.mem {text : List Char} (h : IsNumeral text) :
    ∀ c ∈ text, c.isDigit = true ∨ c = '.' ∨ c = '+' ∨ c = '-' := by
  obtain ⟨sign, whole, point, digits, rfl, hsign, hwhole, hpoint, _, hdigits⟩ := h.shape
  intro c hc
  simp only [List.mem_append] at hc
  rcases hc with hc | hc | hc | hc
  · rcases hsign with rfl | rfl | rfl <;> simp_all
  · exact .inl (hwhole c hc)
  · rcases hpoint with rfl | rfl <;> simp_all
  · exact .inl (hdigits c hc)

theorem IsNumeral.ne_nil {text : List Char} (h : IsNumeral text) : text ≠ [] := by
  obtain ⟨sign, whole, point, digits, rfl, _, _, _, hne, _⟩ := h.shape
  simp [hne]

theorem IsNumeral.exists_numberOf? {text : List Char} (h : IsNumeral text) :
    ∃ x, numberOf? text = some x := by
  have hend : EndsNumber [] := by simp [EndsNumber]
  have hnumber := Separator.number?_append h hend
  rw [List.append_nil] at hnumber
  unfold numberOf?
  rw [hnumber]
  exact ⟨_, rfl⟩

theorem IsNumeral.exists_isDigit {text : List Char} (h : IsNumeral text) :
    ∃ c ∈ text, c.isDigit = true := by
  obtain ⟨sign, whole, point, digits, rfl, _, _, _, hne, hdigits⟩ := h.shape
  obtain ⟨d, hd⟩ := List.exists_mem_of_ne_nil _ hne
  exact ⟨d, by simp [hd], hdigits d hd⟩

theorem ofText_numeral {text : List Char} {x : Float} (h : IsNumeral text)
    (hx : numberOf? text = some x) : Token.ofText text = .number x := by
  have hstar : text ≠ ['*'] := by
    rintro rfl
    simpa using h.mem '*' List.mem_cons_self
  have hreserved := hasReservedWord_eq_false fun hc => by simpa using h.mem 'l' hc
  have hquote := hasQuotedLine_eq_false fun hc => by simpa using h.mem '"' hc
  simp [Token.ofText, hstar, hreserved, hquote, hx]

/-- A single character that is punctuation or blank is an operator. -/
theorem ofText_operatorChar {c : Char} (hop : isOperatorChar c = true) (hstar : c ≠ '*')
    (hl : c ≠ 'l') (hquote : c ≠ '"') (hdigit : c.isDigit = false) :
    Token.ofText [c] = .operator (String.ofList [c]) := by
  have hreserved : hasReservedWord [c] = false := hasReservedWord_eq_false (by simpa using hl.symm)
  have hline : hasQuotedLine [c] = false := hasQuotedLine_eq_false (by simpa using hquote.symm)
  have hnumber : numberOf? [c] = none :=
    numberOf?_eq_none (Separator.number?_eq_none_of_isDigit (by simpa using hdigit))
  simp [Token.ofText, hstar, hreserved, hline, hnumber, hop]

theorem ofText_colon : Token.ofText [':'] = .operator ":" :=
  ofText_operatorChar (by decide) (by decide) (by decide) (by decide) (by decide)

theorem ofText_blank {c : Char} (hc : Text.isBlank c = true) :
    Token.ofText [c] = .operator (String.ofList [c]) := by
  have hne : ∀ {d : Char}, Text.isBlank d = false → c ≠ d := Text.ne_of_isBlank hc
  have hop : isOperatorChar c = true := by simp [isOperatorChar, hc]
  exact ofText_operatorChar hop (hne (by decide)) (hne (by decide)) (hne (by decide))
    (Text.isDigit_of_isBlank hc)

/-- What is found in a quoted text and has no quote is found between the quotes. -/
theorem infix_of_infix_quoted {part body : List Char} (hne : part ≠ []) (hquote : '"' ∉ part)
    (h : part <:+: '"' :: body ++ ['"']) : part <:+: body := by
  rcases List.infix_concat_iff.1 h with hsuffix | h
  · obtain ⟨front, hfront⟩ := hsuffix
    have hlast := congrArg List.getLast? hfront
    rw [List.getLast?_append_of_ne_nil _ hne, List.getLast?_concat] at hlast
    exact absurd (List.mem_of_getLast? hlast) hquote
  · rcases List.infix_cons_iff.1 h with hprefix | h
    · obtain ⟨c, part, rfl⟩ := List.exists_cons_of_ne_nil hne
      obtain ⟨rfl, -⟩ := List.cons_prefix_cons.1 hprefix
      exact absurd List.mem_cons_self hquote
    · exact h

theorem quoteOnLine_append : ∀ {body : List Char}, '\n' ∉ body → quoteOnLine (body ++ ['"']) = true
  | [], _ => rfl
  | c :: body, h => by
    obtain ⟨hc, hbody⟩ := List.ne_and_not_mem_of_not_mem_cons h
    simp [quoteOnLine, quoteOnLine_append hbody, hc.symm]

theorem hasReservedWord_quoted {body : List Char} (h : hasReservedWord body = false) :
    hasReservedWord ('"' :: body ++ ['"']) = false := by
  have hword : ∀ word ∈ reservedWords, word.toList ≠ [] ∧ '"' ∉ word.toList := by decide
  refine hasReservedWord_eq_false_iff.2 fun word hmem hoccurs => ?_
  obtain ⟨hne, hquote⟩ := hword word hmem
  exact hasReservedWord_eq_false_iff.1 h word hmem (infix_of_infix_quoted hne hquote hoccurs)

theorem ofText_quoted {body : List Char} (hline : '\n' ∉ body)
    (hreserved : hasReservedWord body = false) :
    Token.ofText ('"' :: body ++ ['"']) = .string (String.ofList body) := by
  have hreserved' := hasReservedWord_quoted hreserved
  have hquoted : hasQuotedLine ('"' :: body ++ ['"']) = true := by
    simp [hasQuotedLine, quoteOnLine_append hline]
  have hunquote : unquote ('"' :: body ++ ['"']) = body := by
    simp [unquote]
  rw [Token.ofText, if_neg (by simp), if_neg (Bool.eq_false_iff.1 hreserved'), if_pos hquoted,
    hunquote]

/-! ## The first token of a text -/

section First

variable {rest : List Char}

theorem tokensFrom_name {name : String} (hplain : ∀ c ∈ name.toList, PlainChar c)
    (hne : name.toList ≠ []) (hreserved : hasReservedWord name.toList = false)
    (hrest : EndsName rest) :
    tokensFrom (name.toList ++ rest) = .identifier name :: tokensFrom rest := by
  rw [tokensFrom_plain hplain hne hrest, ofText_plain hplain hreserved, String.ofList_toList]

theorem tokensFrom_keyword {word : String} (h : word ∈ reservedWords) (hrest : EndsName rest) :
    tokensFrom (word.toList ++ rest) = .keyword word :: tokensFrom rest := by
  have hwords : ∀ word ∈ reservedWords,
      word.toList ≠ [] ∧ word.toList.all (PlainChar ·) = true := by decide
  obtain ⟨hne, hplain⟩ := hwords word h
  have hplain : ∀ c ∈ word.toList, PlainChar c := by simpa using hplain
  rw [tokensFrom_plain hplain hne hrest, ofText_reservedWord h]

theorem tokensFrom_colon : tokensFrom (':' :: rest) = .operator ":" :: tokensFrom rest := by
  rw [tokensFrom_of_scan? Separator.scan?_colon (List.cons_ne_nil _ _)]
  exact congrArg (· :: _) ofText_colon

theorem tokensFrom_quoted {body : List Char} (hquote : '"' ∉ body) (hline : '\n' ∉ body)
    (hreserved : hasReservedWord body = false) :
    tokensFrom ('"' :: (body ++ '"' :: rest)) =
      .string (String.ofList body) :: tokensFrom rest := by
  rw [tokensFrom_of_scan? (Separator.scan?_quoted hquote) (List.cons_ne_nil _ _)]
  exact congrArg (· :: _) (ofText_quoted hline hreserved)

theorem tokensFrom_numeral {text : List Char} {x : Float} (h : IsNumeral text)
    (hx : numberOf? text = some x) (hrest : EndsNumber rest) :
    tokensFrom (text ++ rest) = .number x :: tokensFrom rest := by
  rw [tokensFrom_of_scan? (Separator.scan?_numeral h hrest) h.ne_nil]
  exact congrArg (· :: _) (ofText_numeral h hx)

/-- A mark is a token of its own and drops the blanks around it. -/
theorem tokensFrom_mem_marks {before : List Char} {m : Char}
    (hbefore : ∀ c ∈ before, Text.isBlank c = true) (hm : m ∈ marks) (hless : m ≠ '<')
    (hplus : m = '+' → Separator.unsigned? rest = none) :
    tokensFrom (before ++ m :: rest) = Token.ofText [m] :: tokensFrom (Text.dropBlanks rest) :=
  tokensFrom_of_scan? (Separator.scan?_mark hbefore hm hless hplus) (List.cons_ne_nil _ _)

theorem tokensFrom_wildcard :
    tokensFrom ('*' :: rest) = .wildcard :: tokensFrom (Text.dropBlanks rest) :=
  tokensFrom_mem_marks (List.forall_mem_nil _) (by decide) (by decide) (by simp)

/-- The marks that are operators, whatever follows: all but the wildcard and `<`, which takes an
equals sign with it. -/
def operatorMarks : List Char := ['~', '>', '=', '+', '[', ']', '(', ')']

theorem of_mem_operatorMarks : ∀ m ∈ operatorMarks, m ∈ marks ∧ m ≠ '<' ∧ m ≠ '*' ∧ m ≠ 'l' ∧
    isOperatorChar m = true := by
  simp [operatorMarks, marks, isOperatorChar]

theorem EndsName.of_head {c : Char} (h : Text.isBlank c = true ∨ c = ':' ∨ c ∈ marks) :
    EndsName (c :: rest) := by
  rintro _ ⟨⟩
  exact h

theorem EndsName.of_mark {m : Char} (h : m ∈ operatorMarks) : EndsName (m :: rest) :=
  .of_head (.inr (.inr (of_mem_operatorMarks m h).1))

theorem ofText_operatorMark {m : Char} (h : m ∈ operatorMarks) :
    Token.ofText [m] = .operator (String.ofList [m]) := by
  obtain ⟨hmark, _, hstar, hl, hop⟩ := of_mem_operatorMarks m h
  obtain ⟨_, hdigit, _, _, _, hquote⟩ := Separator.of_mem_marks m hmark
  exact ofText_operatorChar hop hstar hl hquote hdigit

/-- A mark gives an operator and drops the blanks around it. -/
theorem tokensFrom_mark {before : List Char} {m : Char}
    (hbefore : ∀ c ∈ before, Text.isBlank c = true) (hm : m ∈ operatorMarks)
    (hplus : m = '+' → Separator.unsigned? rest = none) :
    tokensFrom (before ++ m :: rest) =
      .operator (String.ofList [m]) :: tokensFrom (Text.dropBlanks rest) := by
  obtain ⟨hmark, hless, -⟩ := of_mem_operatorMarks m hm
  rw [tokensFrom_mem_marks hbefore hmark hless hplus, ofText_operatorMark hm]

/-- Marks other than signs need no care for what follows. -/
theorem tokensFrom_operator {m : Char} (hm : m ∈ operatorMarks) (hplus : m ≠ '+') :
    tokensFrom (m :: rest) = .operator (String.ofList [m]) :: tokensFrom (Text.dropBlanks rest) :=
  tokensFrom_mark (List.forall_mem_nil _) hm fun h => absurd h hplus

/-- A run of blanks gives the operator of its last one. -/
theorem tokensFrom_blanks {front : List Char} {last : Char}
    (hfront : ∀ c ∈ front, Text.isBlank c = true) (hlast : Text.isBlank last = true)
    (hrest : ∀ c ∈ rest.head?, Text.isBlank c = false ∧ c ∉ marks) :
    tokensFrom (front ++ [last] ++ rest) = .operator (String.ofList [last]) :: tokensFrom rest := by
  rw [tokensFrom_of_scan? (Separator.scan?_blanks hfront hlast hrest) (List.cons_ne_nil _ _)]
  exact congrArg (· :: _) (ofText_blank hlast)

end First

end TreeQuery
