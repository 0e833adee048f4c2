import TreeQuery.Proofs.Selector.Progress
import TreeQuery.Proofs.Selector.Resume

/-!
# Proofs/Selector/InPlace — one cursor, moved in place

The readers pass cursors on as values, and their arithmetic is total: past the end of the row no
tokens are left.  Here they are written a second time, over one cursor that they move in place and
that an error leaves where it arose.  Wherever this form counts the tokens that are left, cuts them
off or moves on, it looks at the cursor, and past the end of the row there is no result.  Nor is
there one where a reader calls itself without having used up a token.

`InPlace.Runs` ties the two forms, with one lemma for each reader.  So the second form always has a
result, which is to say that the cursor never leaves the row; and since a pseudo-class and a right
operand are only read where tokens are left, no reader ever has to read on at the end
(`readings_stay_within`).
-/

namespace TreeQuery

/-- A cursor over a given row, and not past its end. -/
structure Cursor.IsWithin (tokens : List Token) (cursor : Cursor) : Prop where
  tokens_eq : cursor.tokens = tokens
  position_le : cursor.position ≤ tokens.length

theorem Cursor.isWithin_start (tokens : List Token) : (start tokens).IsWithin tokens :=
  ⟨rfl, Nat.zero_le _⟩

/-- Reading a token stays within the row. -/
theorem Cursor.IsWithin.next {tokens : List Token} {cursor after : Cursor} {token : Token}
    (h : cursor.IsWithin tokens) (hnext : cursor.next? = some (token, after)) :
    after.IsWithin tokens := by
  obtain ⟨_, htokens, hposition⟩ := Cursor.next?_eq_some hnext
  have hremaining := Cursor.remaining_of_next? hnext
  simp only [Cursor.remaining, h.tokens_eq] at hremaining
  exact ⟨htokens.trans h.tokens_eq, by omega⟩

/-! ## The readers on one cursor -/

/-- **A reader that moves one cursor in place.**  An error keeps the cursor where it arose.  There is
no result at all where the cursor is looked at past the end. -/
abbrev InPlace := ExceptT ParseError (StateT Cursor Option)

namespace InPlace

/-- The cursor, which may not be past the end. -/
def here : InPlace Cursor :=
  .mk fun cursor =>
    if cursor.position ≤ cursor.tokens.length then some (.ok cursor, cursor) else none

/-- How many tokens are left. -/
def remaining : InPlace Nat :=
  return (← here).remaining

/-- The next token, which the cursor passes. -/
def next : InPlace (Option Token) := do
  match (← here).next? with
  | none => return none
  | some (token, after) =>
    set after
    let _ ← here
    return some token

/-- An error at the given token, which the cursor has passed. -/
def fail {α : Type} (kind : ParseError.Kind) (token : Option Token) (built : Option Selector) :
    InPlace α := do
  throw ⟨kind, token, (← here).rest, built⟩

/-- A literal: a number or a text. -/
def literal (built : Option Selector) : InPlace Literal := do
  match ← next with
  | some (.number x) => return .number x
  | some (.string s) => return .string s
  | token => fail .unexpectedValue token built

/-- The closing operator of a phrase, with the errors for its absence and for another token. -/
def closing {α : Type} (text : String) (missing wrong : ParseError.Kind) (built : Option Selector)
    (phrase : α) : InPlace α := do
  match ← next with
  | none => fail missing none built
  | some token => if token.isOperator text then return phrase else fail wrong (some token) built

/-- A literal in parentheses. -/
def argument (built : Option Selector) : InPlace Literal := do
  match ← next with
  | none => fail .unexpectedArgs none built
  | some token =>
    if token.isOperator "(" ∧ 1 < (← remaining) then
      let value ← literal built
      closing ")" .unexpectedValue .unexpectedValue built value
    else fail .unexpectedArgs (some token) built

/-- A pseudo-class after its colon. -/
def pseudo (built : Option Selector) : InPlace Selector := do
  match ← next with
  | none => fail .unexpectedEnd none built
  | some (.keyword word) =>
    if word = "first-child" then return .firstChild
    else if word = "last-child" then return .lastChild
    else if word = "nth-child" then return .nthChild (← argument built)
    else fail .unexpectedKeyword (some (.keyword word)) built
  | some token => fail .unexpectedPseudo (some token) built

/-- The literal of an equality test and the closing bracket. -/
def equality (name : String) (built : Option Selector) : InPlace Selector := do
  let test := Selector.attribute name (.equal (← literal built))
  closing "]" .unterminatedAttribute .unexpectedAttribute (some test) test

/-- A property test after its opening bracket. -/
def property (built : Option Selector) : InPlace Selector := do
  match ← next with
  | some (.identifier name) =>
    if (← remaining) = 0 then
      fail .unterminatedAttribute (some (.identifier name)) built
    else
      match ← next with
      | some (.operator op) =>
        if op = "]" then return .attribute name .present
        else if op = "=" then equality name built
        else fail .unexpectedOperator (some (.operator op)) built
      | token => fail .unexpectedAttribute token built
  | token => fail .unexpectedAttribute token built

/-- **A recursive reader**, given by what it does in terms of itself.  A call of itself has a result
only where fewer tokens are left. -/
def recur {α β : Type} (body : (α → InPlace β) → α → InPlace β) (x : α) (cursor : Cursor) :
    Option (Except ParseError β × Cursor) :=
  let again (y : α) : InPlace β := .mk fun later =>
    if _ : later.remaining < cursor.remaining then recur body y later else none
  body again x cursor
termination_by cursor.remaining

/-- One term, joined onto the selector built so far.  The right operand of a combinator is read by
the reader itself. -/
def termBy (again : Option Selector → InPlace Selector) (built : Option Selector) :
    InPlace Selector := do
  match ← next with
  | none => fail .unexpectedEnd none built
  | some token =>
    match token.opening built.isNone ((← remaining) == 0) with
    | .ok (.whole term) => return term
    | .ok (.operand combinator) => return .combineOnto combinator built (← again none)
    | .ok .pseudo => return .bothOnto built (← pseudo built)
    | .ok .attribute => return .bothOnto built (← property built)
    | .error kind => fail kind (some token) built

@[inherit_doc termBy]
def term : Option Selector → InPlace Selector :=
  recur termBy

/-- The row of terms, joined onto the selector built so far.  The terms after the first are read by
the reader itself. -/
def termsBy (again : Option Selector → InPlace (Option Selector)) (built : Option Selector) :
    InPlace (Option Selector) := do
  if 0 < (← remaining) then again (some (← term built)) else return built

@[inherit_doc termsBy]
def terms : Option Selector → InPlace (Option Selector) :=
  recur termsBy

/-- **The results of a number of readings**, one after another on the same cursor. -/
def readings : Nat → StateT Cursor Option (List (Except ParseError (Option Selector)))
  | 0 => return []
  | n + 1 => do
    let result ← (terms none).run
    return result :: (← readings n)

/-! ## The two forms agree -/

/-- **A reader runs to an outcome**: that is its result and where it leaves the cursor, the cursor
is within the row, and an error is not that the tokens ended. -/
structure Runs {α : Type} (tokens : List Token) (reader : InPlace α) (cursor : Cursor)
    (outcome : Outcome α) : Prop where
  run_eq : reader cursor = some (outcome.result, outcome.cursor)
  within : outcome.cursor.IsWithin tokens
  kind_ne : ∀ e, outcome.result = .error e → e.kind ≠ .unexpectedEnd

section

variable {α β : Type} {tokens : List Token} {cursor after : Cursor} {token : Token}

/-- A reader runs to the outcome of the one that it comes down to. -/
theorem Runs.of_step {reader other : InPlace α} {outcome : Outcome α}
    (hstep : reader cursor = other after) (h : Runs tokens other after outcome) :
    Runs tokens reader cursor outcome :=
  ⟨hstep.trans h.run_eq, h.within, h.kind_ne⟩

/-- What follows a reader runs from where it left the cursor. -/
theorem bind_apply (reader : InPlace α) (more : α → InPlace β) (cursor : Cursor) :
    (reader >>= more) cursor = (reader cursor).bind fun p =>
      match p.1 with
      | .ok x => more x p.2
      | .error e => some (.error e, p.2) := by
  change ((reader cursor).bind fun p => ExceptT.bindCont more p.1 p.2) = _
  congr 1
  funext p
  obtain ⟨_ | _, _⟩ := p <;> rfl

theorem runs_pure (h : cursor.IsWithin tokens) (x : α) :
    Runs tokens (pure x) cursor (.ok x cursor) where
  run_eq := rfl
  within := h
  kind_ne _ he := nomatch he

theorem Runs.bind_ok {reader : InPlace α} {more : α → InPlace β} {outcome : Outcome α}
    {final : Outcome β} {x : α} (h : Runs tokens reader cursor outcome)
    (hx : outcome.result = .ok x) (hmore : Runs tokens (more x) outcome.cursor final) :
    Runs tokens (reader >>= more) cursor final := by
  refine hmore.of_step ?_
  rw [bind_apply, h.run_eq, hx]
  rfl

theorem Runs.bind_error {reader : InPlace α} {more : α → InPlace β} {outcome : Outcome α}
    {e : ParseError} (h : Runs tokens reader cursor outcome) (he : outcome.result = .error e) :
    Runs tokens (reader >>= more) cursor ⟨.error e, outcome.cursor⟩ := by
  refine ⟨?_, h.within, fun e' he' => h.kind_ne e' ?_⟩
  · rw [bind_apply, h.run_eq, he]
    rfl
  · exact he.trans (congrArg Except.error (Except.error.inj he'))

/-- A phrase and what follows it run one after the other, and an error ends the run. -/
theorem Runs.bind {reader : InPlace α} {more : α → InPlace β} {outcome : Outcome α}
    {follow : α → Cursor → Outcome β} (h : Runs tokens reader cursor outcome)
    (hmore : ∀ x after, after.IsWithin tokens → Runs tokens (more x) after (follow x after)) :
    Runs tokens (reader >>= more) cursor (outcome.bind follow) := by
  obtain ⟨result, after⟩ := outcome
  cases result with
  | ok x => exact h.bind_ok rfl (hmore x after h.within)
  | error e => exact h.bind_error rfl

theorem Runs.map {reader : InPlace α} {outcome : Outcome α} (f : α → β)
    (h : Runs tokens reader cursor outcome) :
    Runs tokens (do return f (← reader)) cursor (outcome.map f) :=
  h.bind fun _ _ hafter => runs_pure hafter _

/-- Looking at a cursor within the row gives the cursor. -/
theorem here_bind_apply (h : cursor.IsWithin tokens) (more : Cursor → InPlace β) :
    (here >>= more) cursor = more cursor cursor := by
  have hlook : here cursor = some (.ok cursor, cursor) := if_pos (h.tokens_eq ▸ h.position_le)
  rw [bind_apply, hlook]
  rfl

/-- A cursor that is set is the cursor from then on. -/
theorem set_bind_apply (cursor after : Cursor) (more : PUnit → InPlace β) :
    (set after >>= more) cursor = more ⟨⟩ after :=
  rfl

/-- An error of any kind but that the tokens ended. -/
theorem runs_fail (h : cursor.IsWithin tokens) {kind : ParseError.Kind} (token : Option Token)
    (built : Option Selector) (hkind : kind ≠ .unexpectedEnd := by decide) :
    Runs tokens (fail kind token built : InPlace α) cursor (.error kind token built cursor) where
  run_eq := here_bind_apply h _
  within := h
  kind_ne _ he := Except.error.inj he ▸ hkind

theorem Runs.remaining {more : Nat → InPlace β} {outcome : Outcome β}
    (h : cursor.IsWithin tokens) (hmore : Runs tokens (more cursor.remaining) cursor outcome) :
    Runs tokens (remaining >>= more) cursor outcome := by
  refine hmore.of_step ?_
  rw [InPlace.remaining, bind_assoc, here_bind_apply h, pure_bind]

theorem Runs.next_none {more : Option Token → InPlace β} {outcome : Outcome β}
    (h : cursor.IsWithin tokens) (hnext : cursor.next? = none)
    (hmore : Runs tokens (more none) cursor outcome) :
    Runs tokens (next >>= more) cursor outcome := by
  refine hmore.of_step ?_
  rw [next, bind_assoc, here_bind_apply h, hnext, pure_bind]

theorem Runs.next_some {more : Option Token → InPlace β} {outcome : Outcome β}
    (h : cursor.IsWithin tokens) (hnext : cursor.next? = some (token, after))
    (hmore : after.IsWithin tokens → Runs tokens (more (some token)) after outcome) :
    Runs tokens (next >>= more) cursor outcome := by
  have hafter := h.next hnext
  refine (hmore hafter).of_step ?_
  rw [next, bind_assoc, here_bind_apply h, hnext, bind_assoc, set_bind_apply, bind_assoc,
    here_bind_apply hafter, pure_bind]

/-- A recursive reader runs as its body does, if it may be called where fewer tokens are left. -/
theorem Runs.recur {body : (α → InPlace β) → α → InPlace β} {x : α} {outcome : Outcome β}
    (h : ∀ again : α → InPlace β,
      (∀ (y : α) (later : Cursor) (outcome : Outcome β), later.remaining < cursor.remaining →
        Runs tokens (recur body y) later outcome → Runs tokens (again y) later outcome) →
      Runs tokens (body again x) cursor outcome) :
    Runs tokens (recur body x) cursor outcome := by
  refine (h _ fun y later final hless hagain => ?_).of_step (by rw [InPlace.recur])
  exact hagain.of_step (dif_pos hless)

theorem runs_literal (built : Option Selector) (h : cursor.IsWithin tokens) :
    Runs tokens (literal built) cursor (readLiteral built cursor) := by
  unfold literal readLiteral
  cases hnext : cursor.next? with
  | none => exact .next_none h hnext (runs_fail h _ _)
  | some read =>
    obtain ⟨token, after⟩ := read
    refine .next_some h hnext fun hafter => ?_
    cases token with
    | number x => exact runs_pure hafter _
    | string s => exact runs_pure hafter _
    | _ => exact runs_fail hafter _ _

theorem runs_closing {text : String} {missing wrong : ParseError.Kind} (built : Option Selector)
    (h : cursor.IsWithin tokens) (phrase : α) (hmissing : missing ≠ .unexpectedEnd := by decide)
    (hwrong : wrong ≠ .unexpectedEnd := by decide) :
    Runs tokens (closing text missing wrong built phrase) cursor
      (match cursor.next? with
      | none => .error missing none built cursor
      | some (token, after) =>
        if token.isOperator text then .ok phrase after
        else .error wrong (some token) built after) := by
  cases hnext : cursor.next? with
  | none => exact .next_none h hnext (runs_fail h _ _ hmissing)
  | some read =>
    obtain ⟨token, after⟩ := read
    refine .next_some h hnext fun hafter => ?_
    dsimp only
    split
    · exact runs_pure hafter _
    · exact runs_fail hafter _ _ hwrong

theorem runs_argument (built : Option Selector) (h : cursor.IsWithin tokens) :
    Runs tokens (argument built) cursor (readArgument built cursor) := by
  unfold argument readArgument
  cases hnext : cursor.next? with
  | none => exact .next_none h hnext (runs_fail h _ _)
  | some read =>
    obtain ⟨token, after⟩ := read
    refine .next_some h hnext fun hafter => .remaining hafter ?_
    dsimp only
    split
    · exact (runs_literal built hafter).bind fun _ _ hc =>
        runs_closing built hc _
    · exact runs_fail hafter _ _

/-- After its colon a pseudo-class is only read where tokens are left. -/
theorem runs_pseudo (built : Option Selector) (h : cursor.IsWithin tokens)
    (hne : cursor.rest ≠ []) :
    Runs tokens (pseudo built) cursor (readPseudo built cursor) := by
  unfold pseudo readPseudo
  cases hnext : cursor.next? with
  | none => exact absurd (Cursor.next?_eq_none hnext) hne
  | some read =>
    obtain ⟨token, after⟩ := read
    refine .next_some h hnext fun hafter => ?_
    cases token with
    | keyword word =>
      dsimp only
      split
      · exact runs_pure hafter _
      split
      · exact runs_pure hafter _
      split
      · exact (runs_argument built hafter).map _
      · exact runs_fail hafter _ _
    | _ => exact runs_fail hafter _ _

theorem runs_equality (name : String) (built : Option Selector) (h : cursor.IsWithin tokens) :
    Runs tokens (equality name built) cursor (readEquality name built cursor) :=
  (runs_literal built h).bind fun _ _ hafter =>
    runs_closing _ hafter _

theorem runs_property (built : Option Selector) (h : cursor.IsWithin tokens) :
    Runs tokens (property built) cursor (readAttribute built cursor) := by
  unfold property readAttribute
  cases hname : cursor.next? with
  | none => exact .next_none h hname (runs_fail h _ _)
  | some read =>
    obtain ⟨token, after⟩ := read
    refine .next_some h hname fun hafter => ?_
    cases token with
    | identifier name =>
      refine .remaining hafter ?_
      dsimp only
      split
      · exact runs_fail hafter _ _
      cases hoperator : after.next? with
      | none => exact .next_none hafter hoperator (runs_fail hafter _ _)
      | some read =>
        obtain ⟨token, later⟩ := read
        refine .next_some hafter hoperator fun hlater => ?_
        cases token with
        | operator op =>
          dsimp only
          split
          · exact runs_pure hlater _
          split
          · exact runs_equality name built hlater
          · exact runs_fail hlater _ _
        | _ => exact runs_fail hlater _ _
    | _ => exact runs_fail hafter _ _

/-- A token that begins no term is not one that ended. -/
theorem kind_ne_of_opening {isFirst isLast : Bool} {kind : ParseError.Kind}
    (h : token.opening isFirst isLast = .error kind) : kind ≠ .unexpectedEnd := by
  cases token with
  | operator op =>
    cases isLast with
    | true =>
      obtain rfl := Except.error.inj h
      split <;> decide
    | false =>
      obtain ⟨hcombinator, hcolon, hbracket⟩ := eq_of_opening_operator_eq_error h
      simp only [Token.opening, hcombinator, hcolon, hbracket, Bool.false_eq_true, if_false] at h
      exact Except.error.inj h ▸ by decide
  | wildcard | identifier name =>
    cases isFirst with
    | true => cases h
    | false => exact Except.error.inj h ▸ by decide
  | _ => exact Except.error.inj h ▸ by decide

/-- **A term runs as the reader says** where tokens are left. -/
theorem runs_term (built : Option Selector) (h : cursor.IsWithin tokens)
    (hne : cursor.rest ≠ []) : Runs tokens (term built) cursor (readTerm built cursor) := by
  fun_induction readTerm built cursor with
  | case1 built cursor hnext => exact absurd (Cursor.next?_eq_none hnext) hne
  | case2 built cursor token after hnext selector hopening =>
    refine .recur fun again _ => .next_some h hnext fun hafter => .remaining hafter ?_
    rw [hopening]
    exact runs_pure hafter _
  | case3 built cursor token after hnext combinator hopening ih =>
    have hless := Cursor.remaining_of_next? hnext
    -- no last token begins a right operand or a pseudo-class
    have hrest := rest_ne_nil_of_opening hopening (by simp [Opening.stage])
    refine .recur fun again hagain => .next_some h hnext fun hafter => .remaining hafter ?_
    rw [hopening]
    exact (hagain none after _ (by omega) (ih hafter hrest)).map _
  | case4 built cursor token after hnext hopening =>
    have hrest := rest_ne_nil_of_opening hopening (by simp [Opening.stage])
    refine .recur fun again _ => .next_some h hnext fun hafter => .remaining hafter ?_
    rw [hopening]
    exact (runs_pseudo built hafter hrest).map _
  | case5 built cursor token after hnext hopening =>
    refine .recur fun again _ => .next_some h hnext fun hafter => .remaining hafter ?_
    rw [hopening]
    exact (runs_property built hafter).map _
  | case6 built cursor token after hnext kind hopening =>
    refine .recur fun again _ => .next_some h hnext fun hafter => .remaining hafter ?_
    rw [hopening]
    exact runs_fail hafter _ _ (kind_ne_of_opening hopening)

/-- **The row of terms runs as the reader says**: a term is only read where tokens are left, and
uses up one. -/
theorem runs_terms (built : Option Selector) (h : cursor.IsWithin tokens) :
    Runs tokens (terms built) cursor (readTerms built cursor) := by
  fun_induction readTerms built cursor with
  | case1 built cursor hpos outcome S hS ih =>
    have hterm : Runs tokens (term built) cursor outcome :=
      runs_term built h (Cursor.remaining_pos_iff.1 hpos)
    have hless : outcome.cursor.remaining ≤ cursor.remaining - 1 :=
      remaining_readTerm_le built cursor
    refine .recur fun again hagain => .remaining h ?_
    rw [if_pos hpos]
    exact hterm.bind_ok hS (hagain _ _ _ (by omega) (ih hterm.within))
  | case2 built cursor hpos outcome e he =>
    have hterm : Runs tokens (term built) cursor outcome :=
      runs_term built h (Cursor.remaining_pos_iff.1 hpos)
    refine .recur fun again _ => .remaining h ?_
    rw [if_pos hpos]
    exact hterm.bind_error he
  | case3 built cursor hend =>
    refine .recur fun again _ => .remaining h ?_
    rw [if_neg hend]
    exact runs_pure h built

/-- Reading again and again on one cursor stays within the row. -/
theorem run_readings (n : Nat) (h : cursor.IsWithin tokens) :
    readings n cursor = some (cursor.parseRepeatedly n, cursor.resumed n) ∧
      (cursor.resumed n).IsWithin tokens ∧
      ∀ e, .error e ∈ cursor.parseRepeatedly n → e.kind ≠ .unexpectedEnd := by
  -- the first reading comes off at the front, so the cursor varies
  induction n generalizing cursor with
  | zero => exact ⟨rfl, h, nofun⟩
  | succ n ih =>
    have hparse : Runs tokens (terms none) cursor cursor.parse := runs_terms none h
    obtain ⟨hrun, hwithin, hkind⟩ := ih hparse.within
    rw [Cursor.resumed_succ', Cursor.parseRepeatedly]
    refine ⟨?_, hwithin, fun e he => ?_⟩
    · rw [readings]
      change ((terms none) cursor).bind _ = _
      rw [hparse.run_eq]
      change (readings n _).bind _ = _
      rw [hrun]
      rfl
    · rcases List.mem_cons.1 he with hfirst | hlater
      · exact hparse.kind_ne e hfirst.symm
      · exact hkind e hlater

end

/-- **The cursor never leaves the row**, and no reading fails because the tokens ended.  However
often a row is read on the one cursor, whatever failed before, the form that may only look at a
cursor within the row has a result; it is that of the readers, and where they leave the cursor. -/
theorem readings_stay_within (tokens : List Token) (n : Nat) :
    readings n (Cursor.start tokens) =
        some ((Cursor.start tokens).parseRepeatedly n, (Cursor.start tokens).resumed n) ∧
      ((Cursor.start tokens).resumed n).tokens = tokens ∧
      ((Cursor.start tokens).resumed n).position ≤ tokens.length ∧
      ∀ e, .error e ∈ (Cursor.start tokens).parseRepeatedly n → e.kind ≠ .unexpectedEnd := by
  obtain ⟨hrun, hwithin, hkind⟩ := run_readings n (Cursor.isWithin_start tokens)
  exact ⟨hrun, hwithin.tokens_eq, hwithin.position_le, hkind⟩

end InPlace

end TreeQuery
