import Mathlib.Control.Monad.Basic
import TreeQuery.Proofs.Selector.Progress

/-!
# Proofs/Selector/Built — what an error tells of the selector built so far

An error is found while one term is read, after a number of terms that were read before
(`ReadsTo`).  What it tells as built is what those terms had built, except in two places
(`reported`):

* in the right operand of a combinator, which is read as a first term, it tells nothing of what
  stands on the left;
* at the closing bracket of an equality test, it tells the test alone.

`built_of_failing_term` is the statement on whole rows; `not_keepsBuilt` has a row for each of the
two places where what was built is lost.
-/

namespace TreeQuery

/-! ## What is told of a term -/

/-- The literal that a token is. -/
def Token.literal? : Token → Option Literal
  | .number x => some (.number x)
  | .string text => some (.string text)
  | _ => none

/-- The equality test whose name, equals sign and literal stand at the front of a row. -/
def equality? : List Token → Option Selector
  | .identifier name :: .operator op :: tokens =>
    if op = "=" then
      (tokens.head?.bind Token.literal?).map fun literal => .attribute name (.equal literal)
    else none
  | _ => none

/-- **What an error tells as built** when it is found in the term at the front of a row. -/
def reported (built : Option Selector) : List Token → Option Selector
  | .operator op :: token :: tokens =>
    if (Combinator.ofOperator? op).isSome then reported none (token :: tokens)
    else if op = "[" then (equality? (token :: tokens)).or built
    else built
  | _ => built

/-- An outcome that, as an error, tells the given selector as built. -/
def Outcome.Reports {α : Type} (outcome : Outcome α) (told : Option Selector) : Prop :=
  ∀ e, outcome.result = .error e → e.built = told

namespace Outcome

variable {α β : Type} {cursor : Cursor} {told : Option Selector}

theorem reports_ok (x : α) : (ok x cursor).Reports told := nofun

theorem reports_error (kind : ParseError.Kind) (token : Option Token) (built : Option Selector) :
    (error kind token built cursor : Outcome α).Reports built := by
  intro e he
  obtain rfl := Except.error.inj he
  rfl

theorem Reports.bind {outcome : Outcome α} {next : α → Cursor → Outcome β}
    (h : outcome.Reports told)
    (hnext : ∀ x, outcome.result = .ok x → (next x outcome.cursor).Reports told) :
    (outcome.bind next).Reports told := by
  obtain ⟨result, cursor⟩ := outcome
  cases result with
  | ok x => exact hnext x rfl
  | error e => exact fun e' he => h e' (congrArg Except.error (Except.error.inj he))

theorem Reports.map {outcome : Outcome α} (f : α → β) (h : outcome.Reports told) :
    (outcome.map f).Reports told :=
  h.bind fun _ _ => reports_ok _

end Outcome

section Readers

open Outcome

variable (built : Option Selector) (cursor : Cursor)

theorem reports_readLiteral : (readLiteral built cursor).Reports built := by
  unfold readLiteral
  split
  · exact reports_ok _
  · exact reports_ok _
  · exact reports_error _ _ _
  · exact reports_error _ _ _

/-- What is told where a closing operator is missing. -/
theorem reports_closed {α : Type} (x : α) (text : String) (missing wrong : ParseError.Kind) :
    (match cursor.next? with
      | none => error missing none built cursor
      | some (token, after) =>
        if token.isOperator text then ok x after
        else error wrong (some token) built after).Reports built := by
  split
  · exact reports_error _ _ _
  split
  · exact reports_ok _
  · exact reports_error _ _ _

theorem reports_readArgument : (readArgument built cursor).Reports built := by
  unfold readArgument
  split
  · exact reports_error _ _ _
  split
  · exact (reports_readLiteral built _).bind fun _ _ => reports_closed built _ _ _ _ _
  · exact reports_error _ _ _

theorem reports_readPseudo : (readPseudo built cursor).Reports built := by
  unfold readPseudo
  split
  · exact reports_error _ _ _
  · split
    · exact reports_ok _
    split
    · exact reports_ok _
    split
    · exact (reports_readArgument built _).map _
    · exact reports_error _ _ _
  · exact reports_error _ _ _

/-- After its literal, an equality test is told alone. -/
theorem reports_readEquality (name : String) :
    (readEquality name built cursor).Reports
      (((cursor.rest.head?.bind Token.literal?).map fun literal =>
        .attribute name (.equal literal)).or built) := by
  cases hnext : cursor.next? with
  | none =>
    simp only [readEquality, readLiteral, hnext, Cursor.next?_eq_none hnext]
    exact reports_error _ _ _
  | some read =>
    obtain ⟨token, after⟩ := read
    rw [(Cursor.next?_eq_some hnext).1]
    cases token with
    | number _ | string _ =>
      simp only [readEquality, readLiteral, hnext]
      exact reports_closed _ _ _ _ _ _
    | _ =>
      simp only [readEquality, readLiteral, hnext]
      exact reports_error _ _ _

theorem reports_readAttribute :
    (readAttribute built cursor).Reports ((equality? cursor.rest).or built) := by
  cases hname : cursor.next? with
  | none =>
    simp only [readAttribute, hname, Cursor.next?_eq_none hname]
    exact reports_error _ _ _
  | some read =>
    obtain ⟨token, after⟩ := read
    rw [(Cursor.next?_eq_some hname).1]
    simp only [readAttribute, hname]
    cases token with
    | identifier name =>
      cases hop : after.next? with
      | none =>
        have hrest := Cursor.next?_eq_none hop
        have hremaining := Cursor.remaining_eq_zero_iff.2 hrest
        simp only [hremaining, if_true, hrest]
        exact reports_error _ _ _
      | some read =>
        obtain ⟨operator, later⟩ := read
        have hrest := (Cursor.next?_eq_some hop).1
        have hremaining : after.remaining ≠ 0 := by simp [Cursor.remaining_eq_zero_iff, hrest]
        simp only [hremaining, if_false, hop, hrest]
        cases operator with
        | operator op =>
          by_cases hequal : op = "="
          · subst hequal
            exact reports_readEquality built later name
          · rw [equality?, if_neg hequal]
            simp only [hequal, if_false]
            split
            · exact reports_ok _
            · exact reports_error _ _ _
        | _ => exact reports_error _ _ _
    | _ => exact reports_error _ _ _

end Readers

/-- A token that begins no term leaves what is told as it was built. -/
theorem reported_eq_of_opening_eq_error {built : Option Selector} {token : Token} {after : Cursor}
    {isFirst : Bool} {kind : ParseError.Kind}
    (h : token.opening isFirst (after.remaining == 0) = .error kind) :
    reported built (token :: after.rest) = built := by
  cases token with
  | operator op =>
    cases hrest : after.rest with
    | nil => rfl
    | cons token tokens =>
      have hlast : (after.remaining == 0) = false := by
        simp [Cursor.remaining_eq_zero_iff, hrest]
      rw [hlast] at h
      obtain ⟨hcombinator, -, hbracket⟩ := eq_of_opening_operator_eq_error h
      simp only [reported, hcombinator, hbracket, Option.isSome_none, Bool.false_eq_true, if_false]
  | _ => rfl

/-- What is told of a term is what is told of what its first token begins. -/
theorem reported_eq_of_opening {built : Option Selector} {token : Token} {after : Cursor}
    {opening : Opening} (h : token.opening built.isNone (after.remaining == 0) = .ok opening) :
    reported built (token :: after.rest) =
      match opening with
      | .operand _ => reported none after.rest
      | .attribute => (equality? after.rest).or built
      | .whole _ | .pseudo => built := by
  have hmore (hopen : opening.stage ≠ .term) : ∃ next tokens, after.rest = next :: tokens :=
    List.exists_cons_of_ne_nil (rest_ne_nil_of_opening h hopen)
  cases opening_sound h with
  | wildcard | identifier => rfl
  | operand _ hc =>
    obtain ⟨next, tokens, hrest⟩ := hmore nofun
    obtain ⟨op, rfl, hop⟩ := hc.exists_operator
    rw [hrest, reported, hop]
    rfl
  | pseudo =>
    obtain ⟨next, tokens, hrest⟩ := hmore nofun
    rw [hrest]
    rfl
  | «attribute» =>
    obtain ⟨next, tokens, hrest⟩ := hmore nofun
    rw [hrest]
    rfl

/-- **What is told of a failing term.** -/
theorem reports_readTerm (built : Option Selector) (cursor : Cursor) :
    (readTerm built cursor).Reports (reported built cursor.rest) := by
  fun_induction readTerm built cursor with
  | case1 built cursor hnext =>
    rw [Cursor.next?_eq_none hnext]
    exact Outcome.reports_error _ _ _
  | case2 => exact Outcome.reports_ok _
  | case3 built cursor token after hnext combinator hopening ih =>
    rw [(Cursor.next?_eq_some hnext).1, reported_eq_of_opening hopening]
    exact ih.map _
  | case4 built cursor token after hnext hopening =>
    rw [(Cursor.next?_eq_some hnext).1, reported_eq_of_opening hopening]
    exact (reports_readPseudo built after).map _
  | case5 built cursor token after hnext hopening =>
    rw [(Cursor.next?_eq_some hnext).1, reported_eq_of_opening hopening]
    exact (reports_readAttribute built after).map _
  | case6 built cursor token after hnext kind hopening =>
    rw [(Cursor.next?_eq_some hnext).1, reported_eq_of_opening_eq_error hopening]
    exact Outcome.reports_error _ _ _

/-! ## What is told of a row of terms -/

/-- **Reading a row comes to a term** with a selector built so far: from the first term on, by
reading one term after the other. -/
inductive ReadsTo (tokens : List Token) : Option Selector → Cursor → Prop
  | start : ReadsTo tokens none (Cursor.start tokens)
  | term {built : Option Selector} {cursor : Cursor} {S : Selector}
      (before : ReadsTo tokens built cursor) (nonempty : cursor.rest ≠ [])
      (read : (readTerm built cursor).result = .ok S) :
      ReadsTo tokens (some S) (readTerm built cursor).cursor

/-- The row is read as what is left of it at any term. -/
theorem ReadsTo.result_eq {tokens : List Token} {built : Option Selector} {cursor : Cursor}
    (h : ReadsTo tokens built cursor) : parseTokens tokens = (readTerms built cursor).result := by
  induction h with
  | start => rfl
  | term _ hne hread ih =>
    rw [ih, readTerms_eq, if_pos (Cursor.remaining_pos_iff.2 hne), Outcome.bind, hread]

/-- A term that fails is why the row fails. -/
theorem ReadsTo.parseTokens_eq_error {tokens : List Token} {built : Option Selector}
    {cursor : Cursor} (h : ReadsTo tokens built cursor) (hne : cursor.rest ≠ []) {e : ParseError}
    (he : (readTerm built cursor).result = .error e) : parseTokens tokens = .error e := by
  rw [h.result_eq, readTerms_eq, if_pos (Cursor.remaining_pos_iff.2 hne), Outcome.bind, he]

/-- **A row that fails has a term that fails.** -/
theorem exists_readsTo_of_error {tokens : List Token} {e : ParseError}
    (h : parseTokens tokens = .error e) : ∃ built cursor, ReadsTo tokens built cursor ∧
      cursor.rest ≠ [] ∧ (readTerm built cursor).result = .error e := by
  have hloop : ∀ built cursor, ReadsTo tokens built cursor →
      (readTerms built cursor).result = .error e → ∃ built cursor, ReadsTo tokens built cursor ∧
        cursor.rest ≠ [] ∧ (readTerm built cursor).result = .error e := by
    intro built cursor hreads he
    fun_induction readTerms built cursor with
    | case1 built cursor hpos outcome S hS ih =>
      exact ih (.term hreads (Cursor.remaining_pos_iff.1 hpos) hS) he
    | case2 built cursor hpos outcome e' he' =>
      obtain rfl := Except.error.inj he
      exact ⟨built, cursor, hreads, Cursor.remaining_pos_iff.1 hpos, he'⟩
    | case3 => cases he
  exact hloop none _ .start h

/-- The places where what was built is not told: the right operand of a combinator, and the closing
bracket of an equality test. -/
def Forgets : List Token → Prop
  | .operator op :: token :: tokens => (Combinator.ofOperator? op).isSome = true ∨
      op = "[" ∧ (equality? (token :: tokens)).isSome = true
  | _ => False

/-- In any other place, what was built is told. -/
theorem reported_of_not_forgets {tokens : List Token} (h : ¬ Forgets tokens)
    (built : Option Selector) : reported built tokens = built := by
  unfold reported
  split
  · next op token tokens =>
    obtain ⟨hcombinator, hequality⟩ := not_or.1 h
    rw [if_neg hcombinator]
    split
    · next hop =>
      have hnone : equality? (token :: tokens) = none := by
        rw [← Option.not_isSome_iff_eq_none]
        exact fun hsome => hequality ⟨hop, hsome⟩
      rw [hnone, Option.none_or]
    · rfl
  · rfl

/-- **What an error tells as built.**  A row that fails does so at a term, after others have been
read, and for no other reason than this term; the error tells what the terms before have built,
unless it is found in the right operand of a combinator or at the closing bracket of an equality
test, where it tells what was built in the operand alone, or the test alone. -/
theorem built_of_failing_term (tokens : List Token) (e : ParseError)
    (h : parseTokens tokens = .error e) :
    (∃ built cursor, ReadsTo tokens built cursor ∧ cursor.rest ≠ [] ∧
      (readTerm built cursor).result = .error e) ∧
    ∀ built cursor e', ReadsTo tokens built cursor → cursor.rest ≠ [] →
      (readTerm built cursor).result = .error e' →
        e' = e ∧ e.built = reported built cursor.rest ∧
          (¬ Forgets cursor.rest → e.built = built) := by
  refine ⟨exists_readsTo_of_error h, fun built cursor e' hreads hne he => ?_⟩
  obtain rfl : e' = e := Except.error.inj ((hreads.parseTokens_eq_error hne he).symm.trans h)
  have htold : e'.built = reported built cursor.rest := reports_readTerm built cursor e' he
  exact ⟨rfl, htold, fun hforgets => htold.trans (reported_of_not_forgets hforgets built)⟩

/-- In `a ~ c:first-child[d` the error tells all that was read before the bracket. -/
theorem built_of_unclosed_name :
    let tokens : List Token := [.identifier "a", .operator "~", .identifier "c", .operator ":",
      .keyword "first-child", .operator "[", .identifier "d"]
    let e : ParseError := ⟨.unterminatedAttribute, some (.identifier "d"), [], some (.both
      (.combine .sibling (.identifier "a") (.identifier "c")) .firstChild)⟩
    parseTokens tokens = .error e ∧ ∃ built cursor, ReadsTo tokens built cursor ∧
      (readTerm built cursor).result = .error e ∧ e.built = reported built cursor.rest := by
  intro tokens e
  have herror : parseTokens tokens = .error e := by decide +kernel
  obtain ⟨⟨built, cursor, hreads, hne, he⟩, htold⟩ := built_of_failing_term tokens e herror
  exact ⟨herror, built, cursor, hreads, he, (htold built cursor e hreads hne he).2.1⟩

/-- Whether the error of a row, if it fails after some terms, tells what these have built, alone or
in conjunction with a predicate. -/
def KeepsBuilt (tokens : List Token) : Prop :=
  ∀ L cursor e, ReadsTo tokens (some L) cursor → cursor.rest ≠ [] →
    (readTerm (some L) cursor).result = .error e →
      ∃ B, e.built = some B ∧ (B = L ∨ ∃ P, B = .both L P)

/-- The first term of a row that begins with a name is read. -/
theorem readsTo_name (name : String) (tokens : List Token) :
    ReadsTo (.identifier name :: tokens) (some (.identifier name))
      ⟨.identifier name :: tokens, 1⟩ := by
  have hnext : (Cursor.start (.identifier name :: tokens)).next? =
      some (.identifier name, ⟨.identifier name :: tokens, 1⟩) := rfl
  have hread : readTerm none (Cursor.start (.identifier name :: tokens)) =
      .ok (.identifier name) ⟨.identifier name :: tokens, 1⟩ :=
    readTerm_of_next?_eq_some hnext
  have h := ReadsTo.term .start (List.cons_ne_nil _ _) (congrArg Outcome.result hread)
  rwa [hread] at h

/-- **What was built may be lost**: in `a > 1` nothing is told of the `a`, and in `a[b=1)` only the
test is. -/
theorem not_keepsBuilt :
    ¬ KeepsBuilt [.identifier "a", .operator ">", .number 1] ∧
    ¬ KeepsBuilt [.identifier "a", .operator "[", .identifier "b", .operator "=", .number 1,
      .operator ")"] := by
  constructor
  · intro h
    have hfails : (readTerm (some (.identifier "a"))
        ⟨[.identifier "a", .operator ">", .number 1], 1⟩).result =
      .error ⟨.unexpectedToken, some (.number 1), [], none⟩ := by decide +kernel
    obtain ⟨_, hbuilt, _⟩ := h _ _ _ (readsTo_name "a" _) (by decide +kernel) hfails
    exact nomatch hbuilt
  · intro h
    have hfails : (readTerm (some (.identifier "a"))
        ⟨[.identifier "a", .operator "[", .identifier "b", .operator "=", .number 1,
          .operator ")"], 1⟩).result = .error ⟨.unexpectedAttribute, some (.operator ")"), [],
        some (.attribute "b" (.equal (.number 1)))⟩ := by decide +kernel
    obtain ⟨B, hbuilt, hB⟩ := h _ _ _ (readsTo_name "a" _) (by decide +kernel) hfails
    obtain rfl := Option.some.inj hbuilt
    rcases hB with heq | ⟨_, heq⟩ <;> exact nomatch heq

end TreeQuery
