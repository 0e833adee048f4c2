import Mathlib.Data.List.Induction
import TreeQuery.Proofs.Selector.Pinpoint

/-!
# Proofs/Selector/Truncation — a selector that is cut short is reported as such

A row of tokens that is the front of a selector, but none itself, breaks off within a phrase: after
a combinator, in a pseudo-class or in a property test.  `BreaksOff` lists the nine ways by the last
tokens of the row, and gives each its kind of error.

The last tokens are what a stage remembers (`Proofs/Selector/Stage`): they tell the stage that a row
has come to (`BreaksOff.eq_of_after`), and the stage tells them (`breaksOff_of_after`).  The latter
goes token by token, the trail of a stage being that of the one before and one token more.
-/

namespace TreeQuery

open Grammar

/-! ## Rows that break off -/

/-- **A row of tokens that breaks off within a phrase**, by its last tokens: with what would come
next, and the kind of error for a row that ends there. -/
inductive BreaksOff : Stage → ParseError.Kind → List Token → Prop
  /-- After a combinator. -/
  | operand {front : List Token} {token : Token} {combinator : Combinator}
      (h : Joins token combinator) : BreaksOff .operand .unexpectedToken (front ++ [token])
  /-- After a colon. -/
  | pseudo {front : List Token} : BreaksOff .pseudo .unexpectedToken (front ++ [.operator ":"])
  /-- After `nth-child`. -/
  | argument {front : List Token} : BreaksOff .argument .unexpectedArgs
      (front ++ [.operator ":", .keyword "nth-child"])
  /-- After the parenthesis that follows `nth-child`. -/
  | position {front : List Token} : BreaksOff .position .unexpectedArgs
      (front ++ [.operator ":", .keyword "nth-child", .operator "("])
  /-- After the literal in parentheses. -/
  | closing {front : List Token} {token : Token} {literal : Literal} (h : IsLiteral token literal) :
      BreaksOff .closing .unexpectedArgs
        (front ++ [.operator ":", .keyword "nth-child", .operator "(", token])
  /-- After an opening bracket. -/
  | name {front : List Token} : BreaksOff .name .unterminatedAttribute (front ++ [.operator "["])
  /-- After the name in brackets. -/
  | test {front : List Token} {name : String} : BreaksOff .test .unterminatedAttribute
      (front ++ [.operator "[", .identifier name])
  /-- After the equals sign in brackets. -/
  | value {front : List Token} {name : String} : BreaksOff .value .unexpectedValue
      (front ++ [.operator "[", .identifier name, .operator "="])
  /-- After the literal in brackets. -/
  | bracket {front : List Token} {name : String} {token : Token} {literal : Literal}
      (h : IsLiteral token literal) : BreaksOff .bracket .unterminatedAttribute
        (front ++ [.operator "[", .identifier name, .operator "=", token])

variable {stage last : Stage} {kind : ParseError.Kind} {token : Token} {tokens : List Token}

theorem BreaksOff.endKind?_eq (h : BreaksOff stage kind tokens) : stage.endKind? = some kind := by
  cases h <;> rfl

/-! ## What leads from stage to stage -/

namespace Stage

variable {next : Stage}

theorem eq_operator_of_opened? (h : opened? token = some last) : ∃ op, token = .operator op := by
  cases token with
  | operator op => exact ⟨op, rfl⟩
  | _ => exact nomatch h

theorem opened?_of_joins {combinator : Combinator} (h : Joins token combinator) :
    opened? token = some .operand := by
  obtain ⟨op, rfl, hop⟩ := h.exists_operator
  rw [opened?, hop]
  rfl

theorem exists_isLiteral_of_literal? (h : literal? next token = some last) :
    ∃ literal, IsLiteral token literal := by
  cases token with
  | number x => exact ⟨_, .number x⟩
  | string text => exact ⟨_, .string text⟩
  | _ => exact nomatch h

theorem eq_of_operator? {text : String} (h : operator? text next token = some last) :
    token = .operator text ∧ last = next := by
  obtain ⟨htoken, hlast⟩ := Option.ite_none_right_eq_some.1 h
  exact ⟨isOperator_iff.1 htoken, (Option.some.inj hlast).symm⟩

/-- The name of a pseudo-class closes it or is `nth-child`. -/
theorem eq_of_keyword? (h : keyword? token = some last) :
    last = .term ∨ token = .keyword "nth-child" ∧ last = .argument := by
  cases token with
  | keyword word =>
    simp only [keyword?] at h
    split at h
    · exact .inl (Option.some.inj h).symm
    split at h
    · exact .inl (Option.some.inj h).symm
    obtain ⟨rfl, hlast⟩ := Option.ite_none_right_eq_some.1 h
    exact .inr ⟨rfl, (Option.some.inj hlast).symm⟩
  | _ => cases h

theorem eq_of_name? (h : name? token = some last) :
    (∃ name, token = .identifier name) ∧ last = .test := by
  cases token with
  | identifier name => exact ⟨⟨name, rfl⟩, (Option.some.inj h).symm⟩
  | _ => exact nomatch h

/-- What follows the name of a property closes the test or is an equals sign. -/
theorem eq_of_test? (h : test? token = some last) :
    last = .term ∨ token = .operator "=" ∧ last = .value := by
  cases token with
  | operator op =>
    simp only [test?] at h
    split at h
    · exact .inl (Option.some.inj h).symm
    obtain ⟨rfl, hlast⟩ := Option.ite_none_right_eq_some.1 h
    exact .inr ⟨rfl, (Option.some.inj hlast).symm⟩
  | _ => cases h

/-- **A token that begins a term leads to the same stage** wherever it may stand. -/
theorem eq_of_next?_of_opened? (hopened : opened? token = some next)
    (h : stage.next? token = some last) : last = next := by
  obtain ⟨op, rfl⟩ := eq_operator_of_opened? hopened
  have hother : ∀ {text : String}, opened? (.operator text) = none →
      Token.operator op ≠ .operator text := fun hnone heq => by
    rw [heq, hnone] at hopened
    cases hopened
  cases stage with
  | start | operand | term => exact Option.some.inj (h.symm.trans hopened)
  | argument | closing | bracket => exact absurd (eq_of_operator? h).1 (hother (by decide))
  | test =>
    simp only [next?, test?] at h
    split at h
    · next hop => exact absurd (congrArg Token.operator hop) (hother (by decide))
    · obtain ⟨hop, _⟩ := Option.ite_none_right_eq_some.1 h
      exact absurd (congrArg Token.operator hop) (hother (by decide))
  | pseudo | position | name | value => cases h

/-- A phrase runs through the same stages wherever it may stand. -/
theorem eq_of_after_of_opened? {front : List Token} (hopened : opened? token = some next)
    (hphrase : next.after tokens = some stage)
    (h : start.after (front ++ token :: tokens) = some last) : last = stage := by
  rw [after_append, Option.bind_eq_some_iff] at h
  obtain ⟨before, -, h⟩ := h
  rw [after_cons, Option.bind_eq_some_iff] at h
  obtain ⟨opened, hnext, h⟩ := h
  rw [eq_of_next?_of_opened? hopened hnext, hphrase] at h
  exact (Option.some.inj h).symm

end Stage

/-! ## The last tokens tell the stage -/

/-- **The last tokens of a row tell the stage that it has come to.** -/
theorem BreaksOff.eq_of_after (h : BreaksOff stage kind tokens)
    (hrun : Stage.start.after tokens = some last) : last = stage := by
  cases h with
  | operand h => exact Stage.eq_of_after_of_opened? (Stage.opened?_of_joins h) rfl hrun
  | closing h => exact Stage.eq_of_after_of_opened? rfl (by cases h <;> rfl) hrun
  | bracket h => exact Stage.eq_of_after_of_opened? rfl (by cases h <;> rfl) hrun
  | _ => exact Stage.eq_of_after_of_opened? rfl rfl hrun

/-! ## The stage tells the last tokens -/

theorem breaksOff_of_opened? {front : List Token} (h : Stage.opened? token = some last)
    (hkind : last.endKind? = some kind) : BreaksOff last kind (front ++ [token]) := by
  obtain ⟨op, rfl⟩ := Stage.eq_operator_of_opened? h
  rcases Stage.eq_of_opened? h with ⟨hsome, rfl⟩ | ⟨rfl, rfl⟩ | ⟨rfl, rfl⟩
  · obtain ⟨combinator, hcombinator⟩ := Option.isSome_iff_exists.1 hsome
    obtain rfl := Option.some.inj hkind
    exact .operand (joins_iff.2 hcombinator)
  · obtain rfl := Option.some.inj hkind
    exact .pseudo
  · obtain rfl := Option.some.inj hkind
    exact .name

/-- **One token more** leads from what a stage tells to what the next one tells. -/
theorem breaksOff_concat {front : List Token}
    (hfront : ∀ kind, stage.endKind? = some kind → BreaksOff stage kind front)
    (h : stage.next? token = some last) (hkind : last.endKind? = some kind) :
    BreaksOff last kind (front ++ [token]) := by
  -- a row may end after a term
  have hterm : last ≠ .term := by
    rintro rfl
    exact nomatch hkind
  cases stage with
  | start | operand =>
    refine breaksOff_of_opened? ?_ hkind
    cases token with
    | wildcard | identifier name => exact absurd (Option.some.inj h).symm hterm
    | _ => exact h
  | term => exact breaksOff_of_opened? h hkind
  | pseudo =>
    obtain ⟨rfl, rfl⟩ := (Stage.eq_of_keyword? h).resolve_left hterm
    obtain rfl := Option.some.inj hkind
    cases hfront _ rfl with
    | pseudo => exact List.append_assoc .. ▸ .argument
  | argument =>
    obtain ⟨rfl, rfl⟩ := Stage.eq_of_operator? h
    obtain rfl := Option.some.inj hkind
    cases hfront _ rfl with
    | argument => exact List.append_assoc .. ▸ .position
  | position =>
    obtain ⟨literal, hliteral⟩ := Stage.exists_isLiteral_of_literal? h
    obtain rfl := Stage.eq_of_literal? h
    obtain rfl := Option.some.inj hkind
    cases hfront _ rfl with
    | position => exact List.append_assoc .. ▸ .closing hliteral
  | closing => exact absurd (Stage.eq_of_operator? h).2 hterm
  | name =>
    obtain ⟨⟨name, rfl⟩, rfl⟩ := Stage.eq_of_name? h
    obtain rfl := Option.some.inj hkind
    cases hfront _ rfl with
    | name => exact List.append_assoc .. ▸ .test
  | test =>
    obtain ⟨rfl, rfl⟩ := (Stage.eq_of_test? h).resolve_left hterm
    obtain rfl := Option.some.inj hkind
    cases hfront _ rfl with
    | test => exact List.append_assoc .. ▸ .value
  | value =>
    obtain ⟨literal, hliteral⟩ := Stage.exists_isLiteral_of_literal? h
    obtain rfl := Stage.eq_of_literal? h
    obtain rfl := Option.some.inj hkind
    cases hfront _ rfl with
    | value => exact List.append_assoc .. ▸ .bracket hliteral
  | bracket => exact absurd (Stage.eq_of_operator? h).2 hterm

/-- **The stage that a row has come to tells its last tokens**, if the row may not end there. -/
theorem breaksOff_of_after (tokens : List Token) : ∀ {last : Stage} {kind : ParseError.Kind},
    Stage.start.after tokens = some last → last.endKind? = some kind →
      BreaksOff last kind tokens := by
  induction tokens using List.reverseRecOn with
  | nil =>
    intro last kind hrun hkind
    obtain rfl := Option.some.inj hrun
    exact nomatch hkind
  | append_singleton front token ih =>
    intro last kind hrun hkind
    rw [Stage.after_append, Option.bind_eq_some_iff] at hrun
    obtain ⟨stage, hstage, hnext⟩ := hrun
    rw [Stage.after_singleton] at hnext
    exact breaksOff_concat (fun _ => ih hstage) hnext hkind

/-! ## Selectors that are cut short -/

/-- **A selector that is cut short is reported as such.**  Where a front of an accepted row is not
accepted itself, it breaks off within a phrase, and the kind of the error is the one for the place:
no other kind is ever reported. -/
theorem parseTokens_error_of_prefix {row front : List Token} {result : Option Selector}
    (hrow : parseTokens row = .ok result) (hfront : front <+: row)
    (hcut : ∀ result, parseTokens front ≠ .ok result) :
    ∃ e, parseTokens front = .error e ∧ (∃ stage, BreaksOff stage e.kind front) ∧
      (∀ stage kind, BreaksOff stage kind front → e.kind = kind) ∧
      e.kind ∉ [.unexpectedEnd, .unexpectedOperator, .unexpectedKeyword, .unexpectedPseudo,
        .unexpectedAttribute] := by
  obtain ⟨more, rfl⟩ := hfront
  obtain ⟨final, hfinal, -⟩ := (exists_parseTokens_eq_ok_iff _).1 ⟨result, hrow⟩
  rw [Stage.after_append, Option.bind_eq_some_iff] at hfinal
  obtain ⟨last, hrun, -⟩ := hfinal
  cases h : parseTokens front with
  | ok result => exact absurd h (hcut result)
  | error e =>
    have hkind : last.endKind? = some e.kind := ((parseTokens_follows front).2 e h).endKind?_eq hrun
    have hbreaks : BreaksOff last e.kind front := breaksOff_of_after front hrun hkind
    refine ⟨e, rfl, ⟨last, hbreaks⟩, fun stage kind hother => ?_, ?_⟩
    · rw [hother.eq_of_after hrun, hother.endKind?_eq] at hkind
      exact (Option.some.inj hkind).symm
    · generalize e.kind = kind at hbreaks
      cases hbreaks <;> decide

/-- `a ~ :nth-child(2)[b]` is a selector; cut off after the `2` it lacks an argument, although the
literal is there. -/
theorem parseTokens_of_unclosed_argument :
    let row : List Token := [.identifier "a", .operator "~", .operator ":", .keyword "nth-child",
      .operator "(", .number 2, .operator ")", .operator "[", .identifier "b", .operator "]"]
    parseTokens row = .ok (some (.both (.combine .sibling (.identifier "a")
      (.nthChild (.number 2))) (.attribute "b" .present))) ∧ row.take 6 <+: row ∧
    (∀ result, parseTokens (row.take 6) ≠ .ok result) ∧
    ∃ e, parseTokens (row.take 6) = .error e ∧ e.kind = .unexpectedArgs := by
  intro row
  have hrow : parseTokens row = .ok (some (.both (.combine .sibling (.identifier "a")
      (.nthChild (.number 2))) (.attribute "b" .present))) := by decide +kernel
  have herror : parseTokens (row.take 6) =
      .error ⟨.unexpectedArgs, some (.operator "("), [.number 2], none⟩ := by decide +kernel
  have hcut : ∀ result, parseTokens (row.take 6) ≠ .ok result := fun result h => by
    rw [herror] at h
    exact nomatch h
  have hbreaks : BreaksOff .closing .unexpectedArgs ([.identifier "a", .operator "~"] ++
      [.operator ":", .keyword "nth-child", .operator "(", .number 2]) := .closing (.number 2)
  obtain ⟨e, he, -, hkind, -⟩ := parseTokens_error_of_prefix hrow (row.take_prefix 6) hcut
  exact ⟨hrow, row.take_prefix 6, hcut, e, he, hkind _ _ hbreaks⟩

end TreeQuery
