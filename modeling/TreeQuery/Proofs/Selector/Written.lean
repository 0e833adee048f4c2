import TreeQuery.Proofs.Selector.Reading
import TreeQuery.Proofs.Token.Pieces

/-!
# Proofs/Selector/Written — a selector that is written out is read back

`Selector.Writes` relates a selector to the texts that write it: term after term, with any blanks
around the marks of combinators and any run of blanks for the descendant combinator.
`Selector.Writable` are the selectors that such a text determines: right operands are single terms,
names are plain, and blanks stand for a combinator only where no punctuation takes them.

`parse_written` is the main statement.  Behind it, `Selector.Writes.lexesTo` lexes a written
selector in front of any text that can follow it (`Selector.Follows`).
-/

namespace TreeQuery

/-! ## Texts that write a selector -/

/-- A literal and its texts: a numeral of its value, or its characters in quotes. -/
inductive Literal.Writes : Literal → List Char → Prop
  | number {x : Float} {text : List Char} (h : IsNumeral text) (hx : numberOf? text = some x) :
      Writes (.number x) text
  | string (s : String) : Writes (.string s) ('"' :: (s.toList ++ ['"']))

/-- The mark of a combinator.  The descendant combinator has none. -/
def Combinator.mark? : Combinator → Option Char
  | .descendant => none
  | .child => some '>'
  | .sibling => some '~'
  | .adjacent => some '+'

/-- **A selector and the texts that write it.** -/
inductive Selector.Writes : Selector → List Char → Prop
  | wildcard : Writes .wildcard ['*']
  | identifier (name : String) : Writes (.identifier name) name.toList
  | firstChild : Writes (.nthChild (.number 0.0)) (':' :: "first-child".toList)
  | lastChild : Writes (.nthChild (.number (-1.0))) (':' :: "last-child".toList)
  | nthChild {position : Literal} {text : List Char} (notFirst : position ≠ .number 0.0)
      (notLast : position ≠ .number (-1.0)) (h : position.Writes text) :
      Writes (.nthChild position) (':' :: ("nth-child".toList ++ '(' :: (text ++ [')'])))
  | present (name : String) : Writes (.attribute name .present) ('[' :: (name.toList ++ [']']))
  | equal (name : String) {literal : Literal} {text : List Char} (h : literal.Writes text) :
      Writes (.attribute name (.equal literal)) ('[' :: (name.toList ++ '=' :: (text ++ [']'])))
  | both {left right : Selector} {text more : List Char} (hleft : Writes left text)
      (hright : Writes right more) : Writes (.both left right) (text ++ more)
  | descendant {left right : Selector} {text blanks more : List Char} (hleft : Writes left text)
      (nonempty : blanks ≠ []) (blank : ∀ c ∈ blanks, Text.isBlank c = true)
      (hright : Writes right more) :
      Writes (.combine .descendant left right) (text ++ (blanks ++ more))
  | marked {combinator : Combinator} {mark : Char} {left right : Selector}
      {text before after more : List Char} (hmark : combinator.mark? = some mark)
      (hleft : Writes left text) (hbefore : ∀ c ∈ before, Text.isBlank c = true)
      (hafter : ∀ c ∈ after, Text.isBlank c = true) (hright : Writes right more) :
      Writes (.combine combinator left right) (text ++ (before ++ mark :: (after ++ more)))

/-! ## Selectors that can be written -/

/-- **A plain name**: not empty, of plain characters, without a reserved word. -/
structure PlainName (name : String) : Prop where
  nonempty : name.toList ≠ []
  plain : ∀ c ∈ name.toList, PlainChar c
  notReserved : hasReservedWord name.toList = false

/-- The literals that can be written: the values of numerals, and the texts without a quote, a line
feed or a reserved word. -/
def Literal.Writable : Literal → Prop
  | .number x => ∃ text, IsNumeral text ∧ numberOf? text = some x
  | .string s => '"' ∉ s.toList ∧ '\n' ∉ s.toList ∧ hasReservedWord s.toList = false

theorem Literal.Writable.exists_writes {literal : Literal} (h : literal.Writable) :
    ∃ text, literal.Writes text := by
  cases literal with
  | number x =>
    obtain ⟨text, htext, hx⟩ := h
    exact ⟨text, .number htext hx⟩
  | string s => exact ⟨_, .string s⟩

/-- The tests that can be written: of a property's presence, and against literals that can be. -/
def AttributeTest.Writable : AttributeTest → Prop
  | .present => True
  | .equal literal => literal.Writable

namespace Selector

/-- Whether a selector is a single term. -/
def IsTerm : Selector → Prop
  | .wildcard | .identifier _ | .nthChild _ | .attribute _ _ => True
  | _ => False

/-- Whether a selector is a position or a property test. -/
def IsPredicate : Selector → Prop
  | .nthChild _ | .attribute _ _ => True
  | _ => False

/-- Whether a selector is a name or a position: a blank before it counts. -/
def BeginsOpen : Selector → Prop
  | .identifier _ | .nthChild _ => True
  | _ => False

/-- Whether the last term of a selector is a name or a pseudo-class without argument: a blank after
it counts. -/
def EndsOpen : Selector → Prop
  | .wildcard => False
  | .identifier _ => True
  | .combine _ _ right => right.EndsOpen
  | .both _ right => right.EndsOpen
  | .nthChild position => position = .number 0.0 ∨ position = .number (-1.0)
  | .attribute _ _ => False

/-- **The selectors that can be written.** -/
def Writable : Selector → Prop
  | .wildcard => True
  | .identifier name => PlainName name
  | .combine combinator left right => left.Writable ∧ right.Writable ∧ right.IsTerm ∧
      (combinator = .descendant → left.EndsOpen ∧ right.BeginsOpen)
  | .both left right => left.Writable ∧ right.Writable ∧ right.IsPredicate
  | .nthChild position => position.Writable
  | .attribute name test => PlainName name ∧ test.Writable

end Selector

/-! ## Lexing one term -/

open Grammar

/-- **What can follow a written selector**: something that ends a name, and blanks at its front only
where they count or a mark takes them. -/
structure Selector.Follows (S : Selector) (rest : List Char) : Prop where
  endsName : EndsName rest
  dropBlanks : ¬ S.EndsOpen → tokensFrom (Text.dropBlanks rest) = tokensFrom rest

variable {text rest : List Char}

/-- Whether a text begins with something that is not a blank. -/
def BeginsNonBlank (text : List Char) : Prop := ∃ c cs, text = c :: cs ∧ Text.isBlank c = false

/-- Whether a text ends with something that is not a blank. -/
def EndsNonBlank (text : List Char) : Prop := ∃ cs c, text = cs ++ [c] ∧ Text.isBlank c = false

theorem BeginsNonBlank.append (h : BeginsNonBlank text) (more : List Char) :
    BeginsNonBlank (text ++ more) := by
  obtain ⟨c, cs, rfl, hc⟩ := h
  exact ⟨c, cs ++ more, rfl, hc⟩

theorem EndsNonBlank.append (front : List Char) (h : EndsNonBlank text) :
    EndsNonBlank (front ++ text) := by
  obtain ⟨cs, c, rfl, hc⟩ := h
  exact ⟨front ++ cs, c, (List.append_assoc ..).symm, hc⟩

/-- A text without blanks at its ends is lexed as it stands. -/
theorem BeginsNonBlank.trim_eq (hfront : BeginsNonBlank text) (hback : EndsNonBlank text) :
    Text.trim text = text := by
  obtain ⟨c, cs, hcons, hc⟩ := hfront
  obtain ⟨ds, d, hconcat, hd⟩ := hback
  refine Text.trim_eq_self ?_ ?_
  · rw [hcons]
    rintro _ ⟨⟩
    exact hc
  · rw [hconcat, List.getLast?_concat]
    rintro _ ⟨⟩
    exact hd

theorem BeginsNonBlank.dropBlanks_append (h : BeginsNonBlank text) :
    Text.dropBlanks (text ++ rest) = text ++ rest := by
  obtain ⟨c, cs, rfl, hc⟩ := h
  exact Text.dropBlanks_of_head (by rintro _ ⟨⟩; exact hc)

theorem PlainName.beginsNonBlank {name : String} (h : PlainName name) :
    BeginsNonBlank name.toList := by
  obtain ⟨c, cs, hname⟩ := List.exists_cons_of_ne_nil h.nonempty
  exact ⟨c, cs, hname, (h.plain c (hname ▸ List.mem_cons_self)).notBlank⟩

theorem Literal.Writes.beginsNonBlank {literal : Literal} (h : literal.Writes text) :
    BeginsNonBlank text := by
  cases h with
  | number h _ =>
    obtain ⟨c, cs, rfl⟩ := List.exists_cons_of_ne_nil h.ne_nil
    refine ⟨c, cs, rfl, Bool.eq_false_iff.2 fun hblank => ?_⟩
    rcases h.mem c List.mem_cons_self with hc | rfl | rfl | rfl
    · simp [Text.isDigit_of_isBlank hblank] at hc
    all_goals exact absurd hblank (by decide)
  | string s => exact ⟨_, _, rfl, by decide⟩

/-- **A written literal is one token.** -/
theorem Literal.Writes.tokens {literal : Literal} (h : literal.Writes text)
    (hwritable : literal.Writable) : ∃ token, IsLiteral token literal ∧
      ∀ {rest}, EndsNumber rest → tokensFrom (text ++ rest) = token :: tokensFrom rest := by
  cases h with
  | number h hx => exact ⟨_, .number _, fun hrest => tokensFrom_numeral h hx hrest⟩
  | string s =>
    obtain ⟨hquote, hline, hreserved⟩ := hwritable
    exact ⟨_, .string s, fun _ => by simpa using tokensFrom_quoted hquote hline hreserved⟩

/-- A keyword after a colon. -/
theorem tokensFrom_pseudo {word : String} (h : word ∈ reservedWords) (hrest : EndsName rest) :
    tokensFrom (':' :: (word.toList ++ rest)) =
      .operator ":" :: .keyword word :: tokensFrom rest := by
  rw [tokensFrom_colon, tokensFrom_keyword h hrest]

/-- A plain name after an opening bracket. -/
theorem PlainName.tokensFrom_bracket {name : String} (h : PlainName name) (hrest : EndsName rest) :
    tokensFrom ('[' :: (name.toList ++ rest)) =
      .operator "[" :: .identifier name :: tokensFrom rest := by
  rw [tokensFrom_operator (by decide) (by decide), h.beginsNonBlank.dropBlanks_append,
    tokensFrom_name h.plain h.nonempty h.notReserved hrest]

/-- **A written term is an atom.** -/
theorem Selector.Writes.tokens_of_isTerm {S : Selector} (h : S.Writes text) (hterm : S.IsTerm)
    (hwritable : S.Writable) : ∃ tokens, IsAtom tokens S ∧
      ∀ rest, S.Follows rest → tokensFrom (text ++ rest) = tokens ++ tokensFrom rest := by
  cases h with
  | wildcard =>
    refine ⟨_, .wildcard, fun rest hrest => ?_⟩
    exact tokensFrom_wildcard.trans (congrArg _ (hrest.dropBlanks id))
  | identifier name =>
    refine ⟨_, .identifier name, fun rest hrest => ?_⟩
    exact tokensFrom_name hwritable.plain hwritable.nonempty hwritable.notReserved hrest.endsName
  | firstChild =>
    refine ⟨_, .predicate (.pseudo .firstChild), fun rest hrest => ?_⟩
    exact tokensFrom_pseudo (by decide) hrest.endsName
  | lastChild =>
    refine ⟨_, .predicate (.pseudo .lastChild), fun rest hrest => ?_⟩
    exact tokensFrom_pseudo (by decide) hrest.endsName
  | nthChild notFirst notLast h =>
    obtain ⟨token, hliteral, htokens⟩ := h.tokens hwritable
    refine ⟨_, .predicate (.pseudo (.nthChild hliteral)), fun rest hrest => ?_⟩
    have hdrop := hrest.dropBlanks (not_or_intro notFirst notLast)
    have hclose : EndsName (')' :: rest) := .of_mark (by decide)
    simp only [List.cons_append, List.append_assoc, List.nil_append]
    rw [tokensFrom_pseudo (by decide) (.of_mark (by decide)),
      tokensFrom_operator (by decide) (by decide), h.beginsNonBlank.dropBlanks_append,
      htokens hclose.endsNumber, tokensFrom_operator (by decide) (by decide), hdrop]
  | present name =>
    refine ⟨_, .predicate (.test (.present name)), fun rest hrest => ?_⟩
    simp only [List.cons_append, List.append_assoc, List.nil_append]
    rw [hwritable.1.tokensFrom_bracket (.of_mark (by decide)),
      tokensFrom_operator (by decide) (by decide), hrest.dropBlanks id]
  | equal name h =>
    obtain ⟨hname, hwritable⟩ := hwritable
    obtain ⟨token, hliteral, htokens⟩ := h.tokens hwritable
    refine ⟨_, .predicate (.test (.equal name hliteral)), fun rest hrest => ?_⟩
    simp only [List.cons_append, List.append_assoc, List.nil_append]
    have hclose : EndsName (']' :: rest) := .of_mark (by decide)
    rw [hname.tokensFrom_bracket (.of_mark (by decide)),
      tokensFrom_operator (by decide) (by decide), h.beginsNonBlank.dropBlanks_append,
      htokens hclose.endsNumber, tokensFrom_operator (by decide) (by decide), hrest.dropBlanks id]
  | both => exact hterm.elim
  | descendant => exact hterm.elim
  | marked => exact hterm.elim

/-! ## Lexing a whole selector -/

namespace Selector

variable {S : Selector} {more : List Char}

/-- A position or a property test begins with a colon or a bracket. -/
theorem Writes.exists_cons_of_isPredicate (h : S.Writes text) (hS : S.IsPredicate) :
    ∃ c cs, text = c :: cs ∧ (c = ':' ∨ c = '[') := by
  cases h with
  | firstChild | lastChild | nthChild => exact ⟨_, _, rfl, .inl rfl⟩
  | present | equal => exact ⟨_, _, rfl, .inr rfl⟩
  | _ => exact hS.elim

theorem IsPredicate.isTerm (h : S.IsPredicate) : S.IsTerm := by
  cases S with
  | nthChild | «attribute» => exact trivial
  | _ => exact h.elim

/-- No number begins where a term begins. -/
theorem Writes.unsigned?_eq_none (h : S.Writes text) (hterm : S.IsTerm) (hS : S.Writable)
    (hrest : EndsName rest) : Separator.unsigned? (text ++ rest) = none := by
  by_cases hpredicate : S.IsPredicate
  · obtain ⟨c, cs, rfl, rfl | rfl⟩ := h.exists_cons_of_isPredicate hpredicate
    all_goals exact Separator.unsigned?_eq_none_of_endsNumber (by rintro _ ⟨⟩; decide)
  · cases h with
    | wildcard => exact Separator.unsigned?_eq_none_of_endsNumber (by rintro _ ⟨⟩; decide)
    | identifier name => exact Separator.unsigned?_plain hS.plain hrest.endsNumber
    | both | descendant | marked => exact hterm.elim
    | _ => exact absurd trivial hpredicate

/-- A name or a position begins with neither a blank nor a mark. -/
theorem Writes.head_of_beginsOpen (h : S.Writes text) (hopen : S.BeginsOpen) (hS : S.Writable) :
    ∃ c cs, text = c :: cs ∧ Text.isBlank c = false ∧ c ∉ marks := by
  cases h with
  | identifier name =>
    obtain ⟨c, cs, hname⟩ := List.exists_cons_of_ne_nil hS.nonempty
    have hc := hS.plain c (hname ▸ List.mem_cons_self)
    exact ⟨c, cs, hname, hc.notBlank, hc.notMark⟩
  | firstChild | lastChild | nthChild => exact ⟨_, _, rfl, by decide, by decide⟩
  | _ => exact hopen.elim

theorem Writes.beginsNonBlank (h : S.Writes text) (hS : S.Writable) : BeginsNonBlank text := by
  induction h with
  | wildcard => exact ⟨_, _, rfl, by decide⟩
  | identifier name => exact hS.beginsNonBlank
  | both _ _ ihl _ => exact (ihl hS.1).append _
  | descendant _ _ _ _ ihl _ => exact (ihl hS.1).append _
  | marked _ _ _ _ _ ihl _ => exact (ihl hS.1).append _
  | _ => exact ⟨_, _, rfl, by decide⟩

/-- A mark can follow any selector. -/
theorem follows_cons {c : Char} {cs : List Char} (hblank : Text.isBlank c = false)
    (hc : c = ':' ∨ c ∈ marks) : S.Follows (c :: cs) where
  endsName := .of_head (.inr hc)
  dropBlanks _ := by rw [Text.dropBlanks_of_head (by rintro _ ⟨⟩; exact hblank)]

/-- The mark of a combinator can follow any selector, with blanks before it. -/
theorem follows_mark {before cs : List Char} {m : Char}
    (hbefore : ∀ c ∈ before, Text.isBlank c = true) (hm : m ∈ operatorMarks)
    (hplus : m = '+' → Separator.unsigned? cs = none) :
    S.Follows (before ++ m :: cs) where
  endsName := by
    cases before with
    | nil => exact .of_mark hm
    | cons c before => exact .of_head (.inl (hbefore c List.mem_cons_self))
  dropBlanks _ := by
    have hblank := (Separator.of_mem_marks m (of_mem_operatorMarks m hm).1).1
    have hdrop : Text.dropBlanks (before ++ m :: cs) = m :: cs :=
      Text.dropWhile_append_of_head hbefore (by rintro _ ⟨⟩; exact hblank)
    rw [hdrop, tokensFrom_mark hbefore hm hplus]
    exact tokensFrom_mark (List.forall_mem_nil _) hm hplus

/-- Blanks can follow a name. -/
theorem follows_blanks {blanks cs : List Char} (hopen : S.EndsOpen) (hne : blanks ≠ [])
    (hblanks : ∀ c ∈ blanks, Text.isBlank c = true) : S.Follows (blanks ++ cs) where
  endsName := by
    obtain ⟨c, blanks, rfl⟩ := List.exists_cons_of_ne_nil hne
    exact .of_head (.inl (hblanks c List.mem_cons_self))
  dropBlanks h := absurd hopen h

/-- **A text is lexed to tokens that denote the selector**, in front of whatever can follow. -/
def LexesTo (text : List Char) (S : Selector) : Prop :=
  ∃ tokens, Derives tokens S ∧
    ∀ rest, S.Follows rest → tokensFrom (text ++ rest) = tokens ++ tokensFrom rest

variable {left right : Selector}

theorem Writes.lexesTo_of_isTerm (h : S.Writes text) (hterm : S.IsTerm) (hS : S.Writable) :
    LexesTo text S := by
  obtain ⟨tokens, hatom, htokens⟩ := h.tokens_of_isTerm hterm hS
  exact ⟨tokens, derives_of_isAtom hatom, htokens⟩

theorem isPredicate_of_isAtom {tokens : List Token} (h : IsAtom tokens S) (hS : S.IsPredicate) :
    Grammar.IsPredicate tokens S := by
  cases h with
  | predicate h => exact h
  | _ => exact hS.elim

theorem LexesTo.both (hleft : LexesTo text left) (hright : right.Writes more)
    (hpredicate : right.IsPredicate) (hS : right.Writable) :
    LexesTo (text ++ more) (.both left right) := by
  obtain ⟨tokens, hderives, htokens⟩ := hleft
  obtain ⟨moreTokens, hatom, hmore⟩ := hright.tokens_of_isTerm hpredicate.isTerm hS
  obtain ⟨c, cs, hcons, hc⟩ := hright.exists_cons_of_isPredicate hpredicate
  refine ⟨tokens ++ moreTokens, hderives.snoc (.predicate (isPredicate_of_isAtom hatom hpredicate)),
    fun rest hrest => ?_⟩
  have hfollows : left.Follows (more ++ rest) := by
    rw [hcons]
    rcases hc with rfl | rfl <;> exact follows_cons (by decide) (by decide)
  rw [List.append_assoc, htokens _ hfollows, hmore rest ⟨hrest.endsName, hrest.dropBlanks⟩,
    List.append_assoc]

theorem LexesTo.descendant {blanks : List Char} (hleft : LexesTo text left) (hopen : left.EndsOpen)
    (hne : blanks ≠ []) (hblanks : ∀ c ∈ blanks, Text.isBlank c = true) (hright : right.Writes more)
    (hterm : right.IsTerm) (hbegins : right.BeginsOpen) (hS : right.Writable) :
    LexesTo (text ++ (blanks ++ more)) (.combine .descendant left right) := by
  obtain ⟨tokens, hderives, htokens⟩ := hleft
  obtain ⟨moreTokens, hatom, hmore⟩ := hright.tokens_of_isTerm hterm hS
  obtain ⟨c, cs, hcons, hblank, hmark⟩ := hright.head_of_beginsOpen hbegins hS
  obtain ⟨front, last, rfl⟩ := (List.eq_nil_or_concat' blanks).resolve_left hne
  have hfront : ∀ c ∈ front, Text.isBlank c = true := fun c hc => hblanks c (by simp [hc])
  have hlast : Text.isBlank last = true := hblanks last (by simp)
  have hjoins : Joins (.operator (String.ofList [last])) .descendant :=
    .descendant (by simp) (by simpa using hlast)
  refine ⟨tokens ++ _ :: moreTokens, hderives.snoc (.joined hjoins (.atom hatom)),
    fun rest hrest => ?_⟩
  have hhead : ∀ c ∈ (more ++ rest).head?, Text.isBlank c = false ∧ c ∉ marks := by
    rw [hcons]
    rintro _ ⟨⟩
    exact ⟨hblank, hmark⟩
  rw [List.append_assoc, List.append_assoc, htokens _ (follows_blanks hopen hne hblanks),
    tokensFrom_blanks hfront hlast hhead, hmore rest ⟨hrest.endsName, hrest.dropBlanks⟩,
    List.append_assoc, List.cons_append]

theorem joins_of_mark {combinator : Combinator} {mark : Char} (h : combinator.mark? = some mark) :
    mark ∈ operatorMarks ∧ Joins (.operator (String.ofList [mark])) combinator := by
  cases combinator with
  | descendant => exact nomatch h
  | child => exact Option.some.inj h ▸ ⟨by decide, .child⟩
  | sibling => exact Option.some.inj h ▸ ⟨by decide, .sibling⟩
  | adjacent => exact Option.some.inj h ▸ ⟨by decide, .adjacent⟩

theorem LexesTo.marked {combinator : Combinator} {mark : Char} {before after : List Char}
    (hleft : LexesTo text left) (hmark : combinator.mark? = some mark)
    (hbefore : ∀ c ∈ before, Text.isBlank c = true) (hafter : ∀ c ∈ after, Text.isBlank c = true)
    (hright : right.Writes more) (hterm : right.IsTerm) (hS : right.Writable) :
    LexesTo (text ++ (before ++ mark :: (after ++ more))) (.combine combinator left right) := by
  obtain ⟨tokens, hderives, htokens⟩ := hleft
  obtain ⟨moreTokens, hatom, hmore⟩ := hright.tokens_of_isTerm hterm hS
  obtain ⟨hmem, hjoins⟩ := joins_of_mark hmark
  refine ⟨tokens ++ _ :: moreTokens, hderives.snoc (.joined hjoins (.atom hatom)),
    fun rest hrest => ?_⟩
  have hunsigned : Separator.unsigned? (after ++ (more ++ rest)) = none := by
    cases after with
    | nil => exact hright.unsigned?_eq_none hterm hS hrest.endsName
    | cons c after =>
      refine Separator.unsigned?_eq_none_of_endsNumber ?_
      exact EndsName.endsNumber (.of_head (.inl (hafter c List.mem_cons_self)))
  have hdrop : Text.dropBlanks (after ++ (more ++ rest)) = more ++ rest := by
    rw [Text.dropBlanks, List.dropWhile_append_of_pos hafter]
    exact (hright.beginsNonBlank hS).dropBlanks_append
  have hfollows : left.Follows (before ++ mark :: (after ++ (more ++ rest))) :=
    follows_mark hbefore hmem fun _ => hunsigned
  simp only [List.append_assoc, List.cons_append]
  rw [htokens _ hfollows, tokensFrom_mark hbefore hmem fun _ => hunsigned, hdrop,
    hmore rest ⟨hrest.endsName, hrest.dropBlanks⟩]

/-- **A written selector is lexed to tokens that denote it.** -/
theorem Writes.lexesTo (h : S.Writes text) (hS : S.Writable) : LexesTo text S := by
  induction S generalizing text with
  | combine combinator left right ihl _ =>
    obtain ⟨hl, hr, hterm, hblank⟩ := hS
    cases h with
    | descendant hleft hne hblanks hright =>
      obtain ⟨hopen, hbegins⟩ := hblank rfl
      exact (ihl hleft hl).descendant hopen hne hblanks hright hterm hbegins hr
    | marked hmark hleft hbefore hafter hright =>
      exact (ihl hleft hl).marked hmark hbefore hafter hright hterm hr
  | both left right ihl _ =>
    obtain ⟨hl, hr, hpredicate⟩ := hS
    cases h with
    | both hleft hright => exact (ihl hleft hl).both hright hpredicate hr
  | _ => exact h.lexesTo_of_isTerm trivial hS

/-! ## Reading a written selector -/

/-- A written selector ends with something that is not a blank. -/
theorem Writes.endsNonBlank (h : S.Writes text) (hS : S.Writable) : EndsNonBlank text := by
  induction h with
  | wildcard => exact ⟨[], _, rfl, by decide⟩
  | identifier name =>
    obtain ⟨cs, c, hname⟩ := (List.eq_nil_or_concat' name.toList).resolve_left hS.nonempty
    exact ⟨cs, c, hname, (hS.plain c (by simp [hname])).notBlank⟩
  | firstChild => exact ⟨":first-chil".toList, _, rfl, by decide⟩
  | lastChild => exact ⟨":last-chil".toList, _, rfl, by decide⟩
  | @nthChild _ text => exact ⟨':' :: ("nth-child".toList ++ '(' :: text), ')', by simp, by decide⟩
  | present name => exact ⟨'[' :: name.toList, ']', rfl, by decide⟩
  | @equal name _ text => exact ⟨'[' :: (name.toList ++ '=' :: text), ']', by simp, by decide⟩
  | both _ _ _ ihr => exact (ihr hS.2.1).append _
  | descendant _ _ _ _ _ ihr => exact ((ihr hS.2.1).append _).append _
  | @marked _ mark _ _ _ before after _ _ _ _ _ _ _ ihr =>
    exact (((ihr hS.2.1).append (mark :: after)).append before).append _

/-- **Whatever can be written has a text.** -/
theorem Writable.exists_writes : ∀ {S : Selector}, S.Writable → ∃ text, S.Writes text
  | .wildcard, _ => ⟨_, .wildcard⟩
  | .identifier name, _ => ⟨_, .identifier name⟩
  | .combine combinator _ _, ⟨hl, hr, _, _⟩ => by
    obtain ⟨text, htext⟩ := exists_writes hl
    obtain ⟨more, hmore⟩ := exists_writes hr
    have hspace : ∀ c ∈ [' '], Text.isBlank c = true := by simp [Text.isBlank]
    cases combinator with
    | descendant => exact ⟨_, .descendant htext (List.cons_ne_nil _ _) hspace hmore⟩
    | child | sibling | adjacent =>
      exact ⟨_, .marked rfl htext (List.forall_mem_nil _) (List.forall_mem_nil _) hmore⟩
  | .both _ _, ⟨hl, hr, _⟩ => by
    obtain ⟨text, htext⟩ := exists_writes hl
    obtain ⟨more, hmore⟩ := exists_writes hr
    exact ⟨_, .both htext hmore⟩
  | .nthChild position, h => by
    by_cases notFirst : position = .number 0.0
    · exact notFirst ▸ ⟨_, Writes.firstChild⟩
    by_cases notLast : position = .number (-1.0)
    · exact notLast ▸ ⟨_, Writes.lastChild⟩
    obtain ⟨text, htext⟩ := Literal.Writable.exists_writes h
    exact ⟨_, .nthChild notFirst notLast htext⟩
  | .attribute name .present, _ => ⟨_, .present name⟩
  | .attribute name (.equal literal), ⟨_, h⟩ => by
    obtain ⟨text, htext⟩ := Literal.Writable.exists_writes h
    exact ⟨_, .equal name htext⟩

end Selector

/-- **Writing a selector out and reading it back gives it again**: it can be written, and every text
that writes it is read as this selector. -/
theorem parse_written (S : Selector) (h : S.Writable) :
    (∃ text : String, S.Writes text.toList) ∧
      ∀ text : String, S.Writes text.toList → parse text = .ok (some S) := by
  obtain ⟨text, htext⟩ := h.exists_writes
  refine ⟨⟨String.ofList text, by rwa [String.toList_ofList]⟩, fun text htext => ?_⟩
  obtain ⟨tokens, hderives, htokens⟩ := htext.lexesTo h
  have hnil : S.Follows [] := ⟨by simp [EndsName], fun _ => rfl⟩
  have hlexed : tokenize text = tokens := by
    have := htokens [] hnil
    have htrim := (htext.beginsNonBlank h).trim_eq (htext.endsNonBlank h)
    rwa [List.append_nil, tokensFrom_nil, List.append_nil, ← htrim, ← tokenize_eq] at this
  rw [parse, hlexed]
  exact parseTokens_eq_ok_iff.2 (isTerms_none_iff.2 (.inr ⟨S, rfl, hderives⟩))

/-- The selector of `a :first-child > b[c=3]`. -/
def sampleSelector : Selector :=
  .both (.combine .child (.combine .descendant (.identifier "a") (.nthChild (.number 0.0)))
    (.identifier "b")) (.attribute "c" (.equal (.number 3.0)))

theorem parse_sampleSelector : sampleSelector.Writable ∧
    parse "a :first-child > b[c=3]" = .ok (some sampleSelector) := by
  have hzero : IsNumeral ['0'] := ⟨[], [], [], ['0'], by simp⟩
  have hthree : IsNumeral ['3'] := ⟨[], [], [], ['3'], by simp⟩
  have hnames : ∀ name ∈ ["a", "b", "c"], name.toList ≠ [] ∧ name.toList.all (PlainChar ·) = true ∧
      hasReservedWord name.toList = false := by decide
  have hname : ∀ name ∈ ["a", "b", "c"], PlainName name := fun name h =>
    ⟨(hnames name h).1, by simpa using (hnames name h).2.1, (hnames name h).2.2⟩
  have hS : sampleSelector.Writable := by
    refine ⟨⟨⟨hname _ (by decide), ⟨['0'], hzero, rfl⟩, trivial, fun _ => ⟨trivial, trivial⟩⟩,
      hname _ (by decide), trivial, nofun⟩, ?_, trivial⟩
    exact ⟨hname _ (by decide), ['3'], hthree, rfl⟩
  have hspace : ∀ c ∈ [' '], Text.isBlank c = true := by simp [Text.isBlank]
  have hleft :=
    Selector.Writes.descendant (.identifier "a") (List.cons_ne_nil _ _) hspace .firstChild
  refine ⟨hS, (parse_written sampleSelector hS).2 _ ?_⟩
  exact .both (.marked rfl hleft hspace hspace (.identifier "b")) (.equal "c" (.number hthree rfl))

end TreeQuery
