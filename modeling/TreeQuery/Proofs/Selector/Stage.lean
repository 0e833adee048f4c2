import TreeQuery.Selector.Basic
import TreeQuery.Selector.Error
import TreeQuery.Token.Basic

/-!
# Proofs/Selector/Stage — what may come next in a row of tokens

No phrase of a selector contains another of its own kind, so a reader need not remember more than
how far it has come: a `Stage`.  `Stage.next?` says which tokens may stand there and `Stage.after`
runs a row of tokens through it.

* A stage at which a row may not end has a kind of error for it (`Stage.endKind?`).
* From every stage the row can be completed (`Stage.after_completion`): no stage is a dead end.

`ParseError.StopsAt` says of an error where in the row it stops, in these terms.
-/

namespace TreeQuery

/-- **How far a selector has been read**, by what comes next. -/
inductive Stage
  /-- The first term, or nothing at all. -/
  | start
  /-- The right operand of a combinator. -/
  | operand
  /-- A further term, or nothing. -/
  | term
  /-- The keyword after a colon. -/
  | pseudo
  /-- The opening parenthesis after `nth-child`. -/
  | argument
  /-- The literal in parentheses. -/
  | position
  /-- The closing parenthesis. -/
  | closing
  /-- The name after an opening bracket. -/
  | name
  /-- The closing bracket after the name, or an equals sign. -/
  | test
  /-- The literal after an equals sign. -/
  | value
  /-- The closing bracket after a literal. -/
  | bracket
  deriving DecidableEq, Repr

namespace Stage

/-! ## Runs -/

/-- The stage after an operator that begins a term: a combinator, a colon or an opening bracket. -/
def opened? : Token → Option Stage
  | .operator op =>
    if (Combinator.ofOperator? op).isSome then some .operand
    else if op = ":" then some .pseudo
    else if op = "[" then some .name
    else none
  | _ => none

/-- The stage after a wildcard, a name or what begins a term. -/
def first? : Token → Option Stage
  | .wildcard | .identifier _ => some .term
  | token => opened? token

/-- The stage after the name of a pseudo-class. -/
def keyword? : Token → Option Stage
  | .keyword word =>
    if word = "first-child" then some .term
    else if word = "last-child" then some .term
    else if word = "nth-child" then some .argument
    else none
  | _ => none

/-- The given stage, after a literal. -/
def literal? (next : Stage) : Token → Option Stage
  | .number _ | .string _ => some next
  | _ => none

/-- The given stage, after one operator. -/
def operator? (text : String) (next : Stage) (token : Token) : Option Stage :=
  if token.isOperator text then some next else none

/-- The stage after the name of a property. -/
def name? : Token → Option Stage
  | .identifier _ => some .test
  | _ => none

/-- The stage after what follows the name of a property. -/
def test? : Token → Option Stage
  | .operator op => if op = "]" then some .term else if op = "=" then some .value else none
  | _ => none

/-- **The stage after a token**, or none where the token may not stand. -/
def next? : Stage → Token → Option Stage
  | .start | .operand => first?
  | .term => opened?
  | .pseudo => keyword?
  | .argument => operator? "(" .position
  | .position => literal? .closing
  | .closing => operator? ")" .term
  | .name => name?
  | .test => test?
  | .value => literal? .bracket
  | .bracket => operator? "]" .term

/-- **The stage after a row of tokens**, or none from the first token on that may not stand. -/
def after (stage : Stage) (tokens : List Token) : Option Stage :=
  tokens.foldlM next? stage

variable {stage : Stage} {token : Token} {tokens more : List Token}

@[simp] theorem after_nil : stage.after [] = some stage := rfl

theorem after_cons : stage.after (token :: tokens) = (stage.next? token).bind (·.after tokens) :=
  List.foldlM_cons

theorem after_singleton : stage.after [token] = stage.next? token := by
  rw [after_cons]
  exact Option.bind_fun_some _

theorem after_append : stage.after (tokens ++ more) = (stage.after tokens).bind (·.after more) :=
  List.foldlM_append

theorem after_cons_of_next? {next : Stage} (h : stage.next? token = some next) :
    stage.after (token :: tokens) = next.after tokens := by
  rw [after_cons, h, Option.bind_some]

theorem after_append_of_after {next : Stage} (h : stage.after tokens = some next) :
    stage.after (tokens ++ more) = next.after more := by
  rw [after_append, h, Option.bind_some]

/-- A row runs through no token that may not stand where it does. -/
theorem after_eq_none_of_next? (h : stage.next? token = none) :
    stage.after (token :: tokens) = none := by
  rw [after_cons, h, Option.bind_none]

theorem eq_of_literal? {next final : Stage} (h : literal? next token = some final) :
    final = next := by
  cases token with
  | number _ | string _ => exact (Option.some.inj h).symm
  | _ => exact nomatch h

/-- The operators that begin a term, with the stages they lead to. -/
theorem eq_of_opened? {op : String} {final : Stage} (h : opened? (.operator op) = some final) :
    (Combinator.ofOperator? op).isSome = true ∧ final = .operand ∨
      op = ":" ∧ final = .pseudo ∨ op = "[" ∧ final = .name := by
  simp only [opened?] at h
  split at h
  · next hcombinator => exact .inl ⟨hcombinator, (Option.some.inj h).symm⟩
  split at h
  · next hcolon => exact .inr (.inl ⟨hcolon, (Option.some.inj h).symm⟩)
  obtain ⟨hbracket, hfinal⟩ := Option.ite_none_right_eq_some.1 h
  exact .inr (.inr ⟨hbracket, (Option.some.inj hfinal).symm⟩)

/-! ## Ends -/

/-- What is wrong with a row that ends at a stage; nothing if it may end there. -/
def endKind? : Stage → Option ParseError.Kind
  | .start | .term => none
  | .operand | .pseudo => some .unexpectedToken
  | .argument | .position | .closing => some .unexpectedArgs
  | .name | .test | .bracket => some .unterminatedAttribute
  | .value => some .unexpectedValue

/-- Tokens that complete a selector. -/
def completion : Stage → List Token
  | .start | .operand => [.wildcard]
  | .term => []
  | .pseudo => [.keyword "first-child"]
  | .argument => [.operator "(", .string "", .operator ")"]
  | .position => [.string "", .operator ")"]
  | .closing => [.operator ")"]
  | .name => [.identifier "", .operator "]"]
  | .test | .bracket => [.operator "]"]
  | .value => [.string "", .operator "]"]

/-- **From every stage a selector can be completed.** -/
theorem after_completion (stage : Stage) : stage.after stage.completion = some .term := by
  cases stage <;> rfl

end Stage

/-! ## Where an error stops -/

/-- **An error stops at a place of a row of tokens** that is run through from a stage on: at the end
of the row, at a token that may not stand where it does, or at a token with which, or with one more,
the row ends too early.  Where the row as a whole ends at a stage, the kind of the error is the one
for that stage. -/
inductive ParseError.StopsAt (stage : Stage) (tokens : List Token) (e : ParseError) : Prop
  | ended {last : Stage} (token : e.token = none) (remaining : e.remaining = [])
      (run : stage.after tokens = some last) (kind : last.endKind? = some e.kind)
  | refused {read : List Token} {last : Stage} {token : Token} (token_eq : e.token = some token)
      (split : tokens = read ++ token :: e.remaining) (run : stage.after read = some last)
      (refuses : last.next? token = none)
  | cutOff {read : List Token} {last : Stage} {token : Token} (token_eq : e.token = some token)
      (split : tokens = read ++ token :: e.remaining) (run : stage.after read = some last)
      (short : e.remaining.length ≤ 1)
      (kind : ∀ final, stage.after tokens = some final → final.endKind? = some e.kind)

namespace ParseError.StopsAt

variable {stage next : Stage} {tokens read : List Token} {e : ParseError}

/-- A row on which an error stops does not end where it may. -/
theorem endKind?_eq (h : e.StopsAt stage tokens) {final : Stage}
    (hrun : stage.after tokens = some final) : final.endKind? = some e.kind := by
  cases h with
  | ended _ _ run kind =>
    obtain rfl := Option.some.inj (run.symm.trans hrun)
    exact kind
  | refused _ split run refuses =>
    rw [split, Stage.after_append_of_after run, Stage.after_eq_none_of_next? refuses] at hrun
    exact nomatch hrun
  | cutOff _ _ _ _ kind => exact kind final hrun

/-- **What was read before** does not change where an error stops. -/
theorem prepend (hread : stage.after read = some next) (h : e.StopsAt next tokens) :
    e.StopsAt stage (read ++ tokens) := by
  have hrun : ∀ more, stage.after (read ++ more) = next.after more := fun _ =>
    Stage.after_append_of_after hread
  cases h with
  | ended htoken hremaining run kind => exact .ended htoken hremaining ((hrun _).trans run) kind
  | refused htoken split run refuses =>
    exact .refused htoken (by rw [split, List.append_assoc]) ((hrun _).trans run) refuses
  | cutOff htoken split run short kind =>
    exact .cutOff htoken (by rw [split, List.append_assoc]) ((hrun _).trans run) short
      fun final h => kind final ((hrun _).symm.trans h)

/-- An error stops at a row whose first tokens run to a stage. -/
theorem exists_run (h : e.StopsAt stage tokens) : ∃ read last, stage.after read = some last ∧
    match e.token with
    | none => e.remaining = [] ∧ tokens = read
    | some token => tokens = read ++ [token] ++ e.remaining ∧
        (last.next? token = none ∨ e.remaining.length ≤ 1) := by
  cases h with
  | ended htoken hremaining run _ => exact ⟨tokens, _, run, by rw [htoken]; exact ⟨hremaining, rfl⟩⟩
  | refused htoken split run refuses =>
    exact ⟨_, _, run, by rw [htoken]; exact ⟨by rw [split, List.append_assoc]; rfl, .inl refuses⟩⟩
  | cutOff htoken split run short _ =>
    exact ⟨_, _, run, by rw [htoken]; exact ⟨by rw [split, List.append_assoc]; rfl, .inr short⟩⟩

end ParseError.StopsAt

end TreeQuery
