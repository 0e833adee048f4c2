import TreeQuery.Selector.Cursor
import TreeQuery.Selector.Error
import TreeQuery.Token.Lexer

/-!
# Selector/Parser — from tokens to a selector

A selector is a row of terms, each joined onto the selector built so far: a term after a
combinator by that combinator, a predicate without one by conjunction.  So combinators group to
the left, and their right operand is a single term.

Each phrase is read by a function from a cursor to an `Outcome`: the phrase or an error, and the
cursor after it.  After an error the cursor stays where the error arose, and reading can go on
from there.
-/

namespace TreeQuery

/-- **The result of reading a phrase** and the cursor after it. -/
structure Outcome (α : Type) where
  result : Except ParseError α
  cursor : Cursor

namespace Outcome

variable {α β : Type}

/-- A phrase that was read. -/
def ok (phrase : α) (cursor : Cursor) : Outcome α :=
  ⟨.ok phrase, cursor⟩

/-- An error at the given token, which the cursor has passed. -/
def error (kind : ParseError.Kind) (token : Option Token) (built : Option Selector)
    (cursor : Cursor) : Outcome α :=
  ⟨.error ⟨kind, token, cursor.rest, built⟩, cursor⟩

/-- What follows a phrase, unless reading it failed. -/
def bind (outcome : Outcome α) (next : α → Cursor → Outcome β) : Outcome β :=
  match outcome.result with
  | .ok phrase => next phrase outcome.cursor
  | .error e => ⟨.error e, outcome.cursor⟩

/-- The phrase turned into another. -/
def map (f : α → β) (outcome : Outcome α) : Outcome β :=
  outcome.bind fun phrase cursor => ok (f phrase) cursor

end Outcome

/-! ## Phrases -/

/-- A literal: a number or a text. -/
def readLiteral (built : Option Selector) (cursor : Cursor) : Outcome Literal :=
  match cursor.next? with
  | some (.number x, cursor) => .ok (.number x) cursor
  | some (.string s, cursor) => .ok (.string s) cursor
  | some (token, cursor) => .error .unexpectedValue (some token) built cursor
  | none => .error .unexpectedValue none built cursor

/-- A literal in parentheses.  When the opening one is read, two tokens must be left. -/
def readArgument (built : Option Selector) (cursor : Cursor) : Outcome Literal :=
  match cursor.next? with
  | none => .error .unexpectedArgs none built cursor
  | some (token, cursor) =>
    if token.isOperator "(" ∧ 1 < cursor.remaining then
      (readLiteral built cursor).bind fun literal cursor =>
        match cursor.next? with
        | none => .error .unexpectedValue none built cursor
        | some (token, cursor) =>
          if token.isOperator ")" then .ok literal cursor
          else .error .unexpectedValue (some token) built cursor
    else .error .unexpectedArgs (some token) built cursor

/-- A pseudo-class after its colon: a position in a sequence. -/
def readPseudo (built : Option Selector) (cursor : Cursor) : Outcome Selector :=
  match cursor.next? with
  | none => .error .unexpectedEnd none built cursor
  | some (.keyword word, cursor) =>
    if word = "first-child" then .ok .firstChild cursor
    else if word = "last-child" then .ok .lastChild cursor
    else if word = "nth-child" then (readArgument built cursor).map .nthChild
    else .error .unexpectedKeyword (some (.keyword word)) built cursor
  | some (token, cursor) => .error .unexpectedPseudo (some token) built cursor

/-- The literal of an equality test and the closing bracket.  From the bracket on, the selector
built so far is the test itself. -/
def readEquality (name : String) (built : Option Selector) (cursor : Cursor) : Outcome Selector :=
  (readLiteral built cursor).bind fun literal cursor =>
    let test : Selector := .attribute name (.equal literal)
    match cursor.next? with
    | none => .error .unterminatedAttribute none (some test) cursor
    | some (token, cursor) =>
      if token.isOperator "]" then .ok test cursor
      else .error .unexpectedAttribute (some token) (some test) cursor

/-- A property test after its opening bracket: a name, perhaps an equality, a closing bracket. -/
def readAttribute (built : Option Selector) (cursor : Cursor) : Outcome Selector :=
  match cursor.next? with
  | none => .error .unexpectedAttribute none built cursor
  | some (.identifier name, cursor) =>
    if cursor.remaining = 0 then
      .error .unterminatedAttribute (some (.identifier name)) built cursor
    else
      match cursor.next? with
      | none => .error .unexpectedAttribute none built cursor
      | some (.operator op, cursor) =>
        if op = "]" then .ok (.attribute name .present) cursor
        else if op = "=" then readEquality name built cursor
        else .error .unexpectedOperator (some (.operator op)) built cursor
      | some (token, cursor) => .error .unexpectedAttribute (some token) built cursor
  | some (token, cursor) => .error .unexpectedAttribute (some token) built cursor

/-- What a token begins. -/
inductive Opening
  /-- A term of one token. -/
  | whole (term : Selector)
  /-- The right operand of a combinator follows. -/
  | operand (combinator : Combinator)
  /-- A pseudo-class follows. -/
  | pseudo
  /-- A property test follows. -/
  | attribute

/-- What a token begins where a term is expected.  A wildcard or a kind can only be the first
term, and an operator that is the last token begins nothing. -/
def Token.opening (token : Token) (isFirst isLast : Bool) : Except ParseError.Kind Opening :=
  match token with
  | .wildcard => if isFirst then .ok (.whole .wildcard) else .error .unexpectedToken
  | .identifier name =>
    if isFirst then .ok (.whole (.identifier name)) else .error .unexpectedToken
  | .operator op =>
    if isLast then .error (if op = "[" then .unterminatedAttribute else .unexpectedToken)
    else
      match Combinator.ofOperator? op with
      | some combinator => .ok (.operand combinator)
      | none =>
        if op = ":" then .ok .pseudo
        else if op = "[" then .ok .attribute
        else .error .unexpectedOperator
  | _ => .error .unexpectedToken

/-- **One term, joined onto the selector built so far.**  The right operand of a combinator is
read as a first term, so that further combinators before it are passed over. -/
def readTerm (built : Option Selector) (cursor : Cursor) : Outcome Selector :=
  match _next : cursor.next? with
  | none => .error .unexpectedEnd none built cursor
  | some (token, after) =>
    match token.opening built.isNone (after.remaining == 0) with
    | .ok (.whole term) => .ok term after
    | .ok (.operand combinator) =>
      (readTerm none after).map (Selector.combineOnto combinator built)
    | .ok .pseudo => (readPseudo built after).map (Selector.bothOnto built)
    | .ok .attribute => (readAttribute built after).map (Selector.bothOnto built)
    | .error kind => .error kind (some token) built after
termination_by cursor.remaining
decreasing_by
  have := Cursor.remaining_of_next? _next
  omega

/-! ## Reading a term uses up a token -/

namespace Outcome

variable {α β : Type}

theorem remaining_bind_le {n : Nat} {outcome : Outcome α} {next : α → Cursor → Outcome β}
    (h : outcome.cursor.remaining ≤ n)
    (hnext : ∀ phrase cursor, cursor.remaining ≤ n → (next phrase cursor).cursor.remaining ≤ n) :
    (outcome.bind next).cursor.remaining ≤ n := by
  unfold bind
  split
  · exact hnext _ _ h
  · exact h

theorem remaining_map_le {n : Nat} {outcome : Outcome α} {f : α → β}
    (h : outcome.cursor.remaining ≤ n) : (outcome.map f).cursor.remaining ≤ n :=
  remaining_bind_le h fun _ _ hc => hc

end Outcome

theorem Cursor.remaining_le_of_next? {cursor after : Cursor} {token : Token} {n : Nat}
    (h : cursor.next? = some (token, after)) (hn : cursor.remaining ≤ n) : after.remaining ≤ n := by
  have := Cursor.remaining_of_next? h
  omega

theorem remaining_readLiteral_le {n : Nat} (built : Option Selector) {cursor : Cursor}
    (h : cursor.remaining ≤ n) : (readLiteral built cursor).cursor.remaining ≤ n := by
  unfold readLiteral
  split
  all_goals first
    | exact Cursor.remaining_le_of_next? (by assumption) h
    | exact h

theorem remaining_readArgument_le {n : Nat} (built : Option Selector) {cursor : Cursor}
    (h : cursor.remaining ≤ n) : (readArgument built cursor).cursor.remaining ≤ n := by
  unfold readArgument
  split
  · exact h
  · next hnext =>
    have hafter := Cursor.remaining_le_of_next? hnext h
    split
    · refine Outcome.remaining_bind_le (remaining_readLiteral_le built hafter) fun _ c hc => ?_
      split
      · exact hc
      · next hnext =>
        have := Cursor.remaining_le_of_next? hnext hc
        split <;> exact this
    · exact hafter

theorem remaining_readPseudo_le {n : Nat} (built : Option Selector) {cursor : Cursor}
    (h : cursor.remaining ≤ n) : (readPseudo built cursor).cursor.remaining ≤ n := by
  unfold readPseudo
  split
  · exact h
  · next hnext =>
    have hafter := Cursor.remaining_le_of_next? hnext h
    split
    · exact hafter
    · split
      · exact hafter
      · split
        · exact Outcome.remaining_map_le (remaining_readArgument_le built hafter)
        · exact hafter
  · exact Cursor.remaining_le_of_next? (by assumption) h

theorem remaining_readEquality_le {n : Nat} (name : String) (built : Option Selector)
    {cursor : Cursor} (h : cursor.remaining ≤ n) :
    (readEquality name built cursor).cursor.remaining ≤ n := by
  unfold readEquality
  refine Outcome.remaining_bind_le (remaining_readLiteral_le built h) fun _ c hc => ?_
  dsimp only
  split
  · exact hc
  · next hnext =>
    have := Cursor.remaining_le_of_next? hnext hc
    split <;> exact this

theorem remaining_readAttribute_le {n : Nat} (built : Option Selector) {cursor : Cursor}
    (h : cursor.remaining ≤ n) : (readAttribute built cursor).cursor.remaining ≤ n := by
  unfold readAttribute
  split
  · exact h
  · next hnext =>
    have hafter := Cursor.remaining_le_of_next? hnext h
    split
    · exact hafter
    · split
      · exact hafter
      · next hnext =>
        have hlater := Cursor.remaining_le_of_next? hnext hafter
        split
        · exact hlater
        · split
          · exact remaining_readEquality_le _ built hlater
          · exact hlater
      · exact Cursor.remaining_le_of_next? (by assumption) hafter
  · exact Cursor.remaining_le_of_next? (by assumption) h

/-- **Reading a term uses up a token**, if there is one, whether it succeeds or fails. -/
theorem remaining_readTerm_le (built : Option Selector) (cursor : Cursor) :
    (readTerm built cursor).cursor.remaining ≤ cursor.remaining - 1 := by
  fun_induction readTerm built cursor with
  | case1 built cursor h =>
    have : cursor.remaining = 0 := by
      rw [← Cursor.length_rest, Cursor.next?_eq_none h, List.length_nil]
    simp only [Outcome.error, this]
    exact Nat.le_refl _
  | case2 built cursor token after h =>
    have := Cursor.remaining_of_next? h
    simp only [Outcome.ok]
    omega
  | case3 built cursor token after h combinator _ ih =>
    have := Cursor.remaining_of_next? h
    exact Outcome.remaining_map_le (by omega)
  | case4 built cursor token after h =>
    have := Cursor.remaining_of_next? h
    exact Outcome.remaining_map_le (remaining_readPseudo_le _ (by omega))
  | case5 built cursor token after h =>
    have := Cursor.remaining_of_next? h
    exact Outcome.remaining_map_le (remaining_readAttribute_le _ (by omega))
  | case6 built cursor token after h =>
    have := Cursor.remaining_of_next? h
    simp only [Outcome.error]
    omega

/-! ## Whole selectors -/

/-- **The whole row of terms**, joined onto the selector built so far. -/
def readTerms (built : Option Selector) (cursor : Cursor) : Outcome (Option Selector) :=
  if 0 < cursor.remaining then
    let outcome := readTerm built cursor
    match outcome.result with
    | .ok selector => readTerms (some selector) outcome.cursor
    | .error e => ⟨.error e, outcome.cursor⟩
  else .ok built cursor
termination_by cursor.remaining
decreasing_by
  have := remaining_readTerm_le built cursor
  omega

/-- **Reads all tokens that are left.**  Without any there is no selector. -/
def Cursor.parse (cursor : Cursor) : Outcome (Option Selector) :=
  readTerms none cursor

/-- The selector that a row of tokens denotes, or none for the empty row. -/
def parseTokens (tokens : List Token) : Except ParseError (Option Selector) :=
  (Cursor.start tokens).parse.result

/-- **The selector that a text denotes**, or none for a blank text. -/
def parse (selector : String) : Except ParseError (Option Selector) :=
  parseTokens (tokenize selector)

/-- The results of reading from one row of tokens again and again, each time from where the last
reading stopped. -/
def Cursor.parseRepeatedly (cursor : Cursor) : Nat → List (Except ParseError (Option Selector))
  | 0 => []
  | n + 1 => cursor.parse.result :: cursor.parse.cursor.parseRepeatedly n

end TreeQuery
