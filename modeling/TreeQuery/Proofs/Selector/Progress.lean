import TreeQuery.Proofs.Selector.Reading
import TreeQuery.Proofs.Selector.Stage

/-!
# Proofs/Selector/Progress — the readers follow the stages

`Outcome.Follows` ties a reader to the stages of `Proofs/Selector/Stage`: a phrase that it returns
was written in tokens that run from one stage to another, and an error stops where the stages say.
There is one lemma per reader; `parseTokens_follows` is the one for whole selectors.
-/

namespace TreeQuery

/-! ## Outcomes that follow the stages -/

/-- **A reader follows the stages** over the tokens that were left to it. -/
structure Outcome.Follows {α : Type} (outcome : Outcome α) (stage next : Stage)
    (tokens : List Token) : Prop where
  ok : ∀ x, outcome.result = .ok x →
    ∃ read, tokens = read ++ outcome.cursor.rest ∧ stage.after read = some next
  error : ∀ e, outcome.result = .error e → e.StopsAt stage tokens

namespace Outcome

variable {α β : Type} {stage middle next : Stage} {cursor after : Cursor} {token : Token}
  {tokens : List Token} {kind : ParseError.Kind} {built : Option Selector}

theorem follows_ok (x : α) : (ok x cursor).Follows next next cursor.rest where
  ok _ _ := ⟨[], rfl, rfl⟩
  error _ he := nomatch he

/-- An error where the tokens end. -/
theorem follows_ended (hrest : cursor.rest = []) (h : stage.endKind? = some kind) :
    (error kind none built cursor : Outcome α).Follows stage next cursor.rest where
  ok _ hx := nomatch hx
  error e he := by
    obtain rfl := Except.error.inj he
    exact .ended rfl hrest (hrest ▸ Stage.after_nil) h

/-- An error at a token that may not stand where it does. -/
theorem follows_refused (h : stage.next? token = none) :
    (error kind (some token) built after : Outcome α).Follows stage next
      (token :: after.rest) where
  ok _ hx := nomatch hx
  error e he := by
    obtain rfl := Except.error.inj he
    exact .refused rfl rfl Stage.after_nil h

/-- An error at a token after which the row ends too early. -/
theorem follows_cutOff (hshort : after.rest.length ≤ 1)
    (h : ∀ final, stage.after (token :: after.rest) = some final → final.endKind? = some kind) :
    (error kind (some token) built after : Outcome α).Follows stage next
      (token :: after.rest) where
  ok _ hx := nomatch hx
  error e he := by
    obtain rfl := Except.error.inj he
    exact .cutOff rfl rfl Stage.after_nil hshort h

/-- What was read before does not change how a reader follows the stages. -/
theorem Follows.prepend {outcome : Outcome α} {read : List Token}
    (hread : stage.after read = some middle) (h : outcome.Follows middle next tokens) :
    outcome.Follows stage next (read ++ tokens) where
  ok x hx := by
    obtain ⟨more, rfl, hmore⟩ := h.ok x hx
    exact ⟨read ++ more, (List.append_assoc ..).symm,
      (Stage.after_append_of_after hread).trans hmore⟩
  error e he := (h.error e he).prepend hread

/-- **A token, and what follows it.** -/
theorem Follows.cons {outcome : Outcome α} (hnext : stage.next? token = some middle)
    (h : outcome.Follows middle next tokens) : outcome.Follows stage next (token :: tokens) :=
  h.prepend (Stage.after_singleton.trans hnext)

/-- **A phrase, and what follows it.** -/
theorem Follows.bind {outcome : Outcome α} {more : α → Cursor → Outcome β}
    (h : outcome.Follows stage middle tokens)
    (hmore : ∀ x, outcome.result = .ok x →
      (more x outcome.cursor).Follows middle next outcome.cursor.rest) :
    (outcome.bind more).Follows stage next tokens := by
  obtain ⟨result, cursor⟩ := outcome
  cases result with
  | ok x =>
    obtain ⟨read, rfl, hread⟩ := h.ok x rfl
    exact (hmore x rfl).prepend hread
  | error e =>
    refine ⟨(fun _ hx => nomatch hx), fun e' he => h.error e' ?_⟩
    exact congrArg Except.error (Except.error.inj he)

theorem Follows.map {outcome : Outcome α} (f : α → β) (h : outcome.Follows stage next tokens) :
    (outcome.map f).Follows stage next tokens :=
  h.bind fun _ _ => follows_ok _

end Outcome

/-! ## One lemma per reader -/

section Readers

open Outcome

variable {stage next : Stage} {cursor : Cursor} (built : Option Selector)

theorem follows_readLiteral (hliteral : stage.next? = Stage.literal? next)
    (hend : cursor.rest = [] → stage.endKind? = some .unexpectedValue) :
    (readLiteral built cursor).Follows stage next cursor.rest := by
  cases hnext : cursor.next? with
  | none =>
    have hrest := Cursor.next?_eq_none hnext
    simp only [readLiteral, hnext]
    exact follows_ended hrest (hend hrest)
  | some read =>
    obtain ⟨token, after⟩ := read
    rw [(Cursor.next?_eq_some hnext).1]
    cases token with
    | number x =>
      simp only [readLiteral, hnext]
      exact (follows_ok _).cons (congrFun hliteral _)
    | string s =>
      simp only [readLiteral, hnext]
      exact (follows_ok _).cons (congrFun hliteral _)
    | _ =>
      simp only [readLiteral, hnext]
      exact follows_refused (congrFun hliteral _)

/-- A phrase is closed by its closing operator. -/
theorem follows_closed {α : Type} {x : α} {text : String} {missing wrong : ParseError.Kind}
    (hclose : stage.next? = Stage.operator? text next)
    (hend : cursor.rest = [] → stage.endKind? = some missing) :
    (match cursor.next? with
      | none => error missing none built cursor
      | some (token, after) =>
        if token.isOperator text then ok x after
        else error wrong (some token) built after).Follows stage next cursor.rest := by
  cases hnext : cursor.next? with
  | none =>
    have hrest := Cursor.next?_eq_none hnext
    exact follows_ended hrest (hend hrest)
  | some read =>
    obtain ⟨token, after⟩ := read
    rw [(Cursor.next?_eq_some hnext).1]
    by_cases h : token.isOperator text
    · simp only [h, if_true]
      exact (follows_ok _).cons (by rw [hclose, Stage.operator?, if_pos h])
    · simp only [h]
      exact follows_refused (by rw [hclose, Stage.operator?, if_neg h])

/-- A row that ends at most one token after an opening parenthesis lacks an argument. -/
theorem Stage.endKind?_of_position {tokens : List Token} {final : Stage} (h : tokens.length ≤ 1)
    (hrun : Stage.position.after tokens = some final) :
    final.endKind? = some .unexpectedArgs := by
  match tokens with
  | [] =>
    obtain rfl := Option.some.inj hrun
    rfl
  | [token] =>
    rw [after_cons] at hrun
    obtain ⟨next, hnext, hfinal⟩ := Option.bind_eq_some_iff.1 hrun
    obtain rfl := Option.some.inj hfinal
    rw [Stage.eq_of_literal? hnext]
    rfl

theorem follows_readArgument : (readArgument built cursor).Follows .argument .term cursor.rest := by
  cases hnext : cursor.next? with
  | none =>
    simp only [readArgument, hnext]
    exact follows_ended (Cursor.next?_eq_none hnext) rfl
  | some read =>
    obtain ⟨token, after⟩ := read
    rw [(Cursor.next?_eq_some hnext).1]
    simp only [readArgument, hnext]
    by_cases hopen : token.isOperator "("
    · have hposition : Stage.argument.next? token = some .position := if_pos hopen
      by_cases hlong : 1 < after.remaining
      · rw [if_pos ⟨hopen, hlong⟩]
        -- two tokens are left, so that neither the literal nor what follows it is missing
        have hlength : 1 < after.rest.length := by rwa [Cursor.length_rest]
        have hliteral : (readLiteral built after).Follows .position .closing after.rest :=
          follows_readLiteral built rfl fun h => by simp [h] at hlength
        refine Follows.cons hposition (hliteral.bind fun literal hread =>
          follows_closed built rfl fun h => ?_)
        obtain ⟨_, _, hrest⟩ := readLiteral_sound ⟨hread, h⟩
        simp [hrest] at hlength
      · rw [if_neg fun h => hlong h.2]
        have hshort : after.rest.length ≤ 1 := by rw [Cursor.length_rest]; omega
        refine follows_cutOff hshort fun final hrun => ?_
        rw [Stage.after_cons_of_next? hposition] at hrun
        exact Stage.endKind?_of_position hshort hrun
    · rw [if_neg fun h => hopen h.1]
      exact follows_refused (if_neg hopen)

theorem follows_readPseudo (hne : cursor.rest ≠ []) :
    (readPseudo built cursor).Follows .pseudo .term cursor.rest := by
  cases hnext : cursor.next? with
  | none => exact absurd (Cursor.next?_eq_none hnext) hne
  | some read =>
    obtain ⟨token, after⟩ := read
    rw [(Cursor.next?_eq_some hnext).1]
    simp only [readPseudo, hnext]
    cases token with
    | keyword word =>
      by_cases hfirst : word = "first-child"
      · simp only [hfirst, if_true]
        exact (follows_ok _).cons rfl
      by_cases hlast : word = "last-child"
      · simp only [hlast]
        exact (follows_ok _).cons rfl
      by_cases hnth : word = "nth-child"
      · simp only [hnth]
        exact ((follows_readArgument built).map _).cons rfl
      · simp only [hfirst, hlast, hnth, if_false]
        refine follows_refused ?_
        simp only [Stage.next?, Stage.keyword?, hfirst, hlast, hnth, if_false]
    | _ => exact follows_refused rfl

theorem follows_readEquality (name : String) :
    (readEquality name built cursor).Follows .value .term cursor.rest := by
  have hliteral : (readLiteral built cursor).Follows .value .bracket cursor.rest :=
    follows_readLiteral built rfl fun _ => rfl
  exact hliteral.bind fun _ _ => follows_closed _ rfl fun _ => rfl

theorem follows_readAttribute (hne : cursor.rest ≠ []) :
    (readAttribute built cursor).Follows .name .term cursor.rest := by
  cases hname : cursor.next? with
  | none => exact absurd (Cursor.next?_eq_none hname) hne
  | some read =>
    obtain ⟨token, after⟩ := read
    rw [(Cursor.next?_eq_some hname).1]
    simp only [readAttribute, hname]
    cases token with
    | identifier name =>
      have htest : Stage.name.next? (.identifier name) = some .test := rfl
      by_cases hlast : after.remaining = 0
      · have hrest := Cursor.remaining_eq_zero_iff.1 hlast
        simp only [hlast, if_true]
        refine follows_cutOff (by simp [hrest]) fun final hrun => ?_
        rw [hrest, Stage.after_singleton, htest] at hrun
        obtain rfl := Option.some.inj hrun
        rfl
      · simp only [hlast, if_false]
        refine Follows.cons htest ?_
        cases hop : after.next? with
        | none => exact absurd (Cursor.remaining_eq_zero_iff.2 (Cursor.next?_eq_none hop)) hlast
        | some read =>
          obtain ⟨operator, later⟩ := read
          rw [(Cursor.next?_eq_some hop).1]
          cases operator with
          | operator op =>
            by_cases hclose : op = "]"
            · simp only [hclose, if_true]
              exact (follows_ok _).cons rfl
            by_cases hequal : op = "="
            · simp only [hequal]
              exact (follows_readEquality built name).cons rfl
            · simp only [hclose, hequal, if_false]
              refine follows_refused ?_
              simp only [Stage.next?, Stage.test?, hclose, hequal, if_false]
          | _ => exact follows_refused rfl
    | _ => exact follows_refused rfl

end Readers

/-! ## Terms -/

/-- The stages at which a term is expected, after what was built so far. -/
def Stage.Expects (built : Option Selector) (stage : Stage) : Prop :=
  match built with
  | none => stage = .start ∨ stage = .operand
  | some _ => stage = .term

/-- The stage that a token leads to when it begins a term. -/
def Opening.stage : Opening → Stage
  | .whole _ => .term
  | .operand _ => .operand
  | .pseudo => .pseudo
  | .attribute => .name

section Terms

variable {built : Option Selector} {stage : Stage} {token : Token}

/-- Whatever is expected, an operator is looked at alike. -/
theorem Stage.Expects.next?_operator (h : stage.Expects built) (op : String) :
    stage.next? (.operator op) = Stage.opened? (.operator op) := by
  cases built with
  | none => obtain rfl | rfl := h <;> rfl
  | some _ => obtain rfl := h; rfl

/-- What needs more tokens is begun by no last token. -/
theorem rest_ne_nil_of_opening {isFirst : Bool} {opening : Opening} {after : Cursor}
    (hopening : token.opening isFirst (after.remaining == 0) = .ok opening)
    (hopen : opening.stage ≠ .term) : after.rest ≠ [] := by
  intro hrest
  have hlast : (after.remaining == 0) = true := beq_iff_eq.2 (Cursor.remaining_eq_zero_iff.2 hrest)
  cases token with
  | wildcard | identifier name =>
    cases isFirst with
    | true => exact hopen (Except.ok.inj hopening ▸ rfl)
    | false => simp [Token.opening] at hopening
  | _ => simp [Token.opening, hlast] at hopening

/-- What a token begins is the stage that it leads to. -/
theorem next?_of_opens {opening : Opening} (h : stage.Expects built)
    (hopens : Opens built token opening) : stage.next? token = some opening.stage := by
  cases hopens with
  | wildcard => obtain rfl | rfl := h <;> rfl
  | identifier name => obtain rfl | rfl := h <;> rfl
  | operand _ hc =>
    obtain ⟨op, rfl, hop⟩ := hc.exists_operator
    rw [h.next?_operator, Stage.opened?, hop]
    rfl
  | pseudo => exact (h.next?_operator _).trans rfl
  | «attribute» => exact (h.next?_operator _).trans rfl

/-- An operator with more tokens after it begins a term unless it is none of those that can. -/
theorem eq_of_opening_operator_eq_error {isFirst : Bool} {op : String} {kind : ParseError.Kind}
    (h : (Token.operator op).opening isFirst false = .error kind) :
    Combinator.ofOperator? op = none ∧ op ≠ ":" ∧ op ≠ "[" := by
  simp only [Token.opening, Bool.false_eq_true, if_false] at h
  split at h
  · cases h
  next hcombinator =>
  split at h
  · cases h
  next hcolon =>
  split at h
  · cases h
  next hbracket => exact ⟨hcombinator, hcolon, hbracket⟩

/-- **A token that begins no term** may not stand there, or is an operator that is the last
token. -/
theorem next?_of_opening_eq_error {isLast : Bool} {kind : ParseError.Kind}
    (h : stage.Expects built) (hopening : token.opening built.isNone isLast = .error kind) :
    stage.next? token = none ∨ isLast = true ∧
      ∀ final, stage.next? token = some final → final.endKind? = some kind := by
  cases token with
  | operator op =>
    rw [h.next?_operator]
    cases isLast with
    | true =>
      refine .inr ⟨rfl, fun final hfinal => ?_⟩
      simp only [Token.opening, if_true] at hopening
      obtain rfl := Except.error.inj hopening
      rcases Stage.eq_of_opened? hfinal with ⟨hcombinator, rfl⟩ | ⟨rfl, rfl⟩ | ⟨rfl, rfl⟩
      · have hop : op ≠ "[" := by
          rintro rfl
          exact absurd hcombinator (by decide)
        rw [if_neg hop]
        rfl
      · rfl
      · rfl
    | false =>
      obtain ⟨hcombinator, hcolon, hbracket⟩ := eq_of_opening_operator_eq_error hopening
      left
      simp only [Stage.opened?, hcombinator, hcolon, hbracket, Option.isSome_none,
        Bool.false_eq_true, if_false]
  | wildcard | identifier name =>
    cases built with
    | none => cases hopening
    | some _ => obtain rfl := h; exact .inl rfl
  | _ =>
    left
    cases built with
    | none => obtain rfl | rfl := h <;> rfl
    | some _ => obtain rfl := h; rfl

/-- **A term is read along the stages.** -/
theorem follows_readTerm (built : Option Selector) (cursor : Cursor) {stage : Stage}
    (h : stage.Expects built) (hne : cursor.rest ≠ []) :
    (readTerm built cursor).Follows stage .term cursor.rest := by
  fun_induction readTerm built cursor generalizing stage with
  | case1 built cursor hnext => exact absurd (Cursor.next?_eq_none hnext) hne
  | case2 built cursor token after hnext term hopening =>
    rw [(Cursor.next?_eq_some hnext).1]
    exact (Outcome.follows_ok _).cons (next?_of_opens h (opening_sound hopening))
  | case3 built cursor token after hnext combinator hopening ih =>
    have hopens := opening_sound hopening
    rw [(Cursor.next?_eq_some hnext).1]
    have hrest := rest_ne_nil_of_opening hopening (by simp [Opening.stage])
    exact ((ih (.inr rfl) hrest).map _).cons (next?_of_opens h hopens)
  | case4 built cursor token after hnext hopening =>
    have hopens := opening_sound hopening
    rw [(Cursor.next?_eq_some hnext).1]
    have hrest := rest_ne_nil_of_opening hopening (by simp [Opening.stage])
    exact ((follows_readPseudo built hrest).map _).cons (next?_of_opens h hopens)
  | case5 built cursor token after hnext hopening =>
    have hopens := opening_sound hopening
    rw [(Cursor.next?_eq_some hnext).1]
    have hrest := rest_ne_nil_of_opening hopening (by simp [Opening.stage])
    exact ((follows_readAttribute built hrest).map _).cons (next?_of_opens h hopens)
  | case6 built cursor token after hnext kind hopening =>
    rw [(Cursor.next?_eq_some hnext).1]
    rcases next?_of_opening_eq_error h hopening with hrefused | ⟨hlast, hkind⟩
    · exact Outcome.follows_refused hrefused
    · have hrest := Cursor.remaining_eq_zero_iff.1 (beq_iff_eq.1 hlast)
      refine Outcome.follows_cutOff (by simp [hrest]) fun final hrun => hkind final ?_
      rwa [hrest, Stage.after_singleton] at hrun

end Terms

/-! ## Whole selectors -/

/-- The stage between two terms, after what was built so far. -/
def Stage.between : Option Selector → Stage
  | none => .start
  | some _ => .term

theorem Stage.expects_between (built : Option Selector) : (Stage.between built).Expects built := by
  cases built with
  | none => exact .inl rfl
  | some _ => rfl

theorem Stage.endKind?_between (built : Option Selector) :
    (Stage.between built).endKind? = none := by
  cases built <;> rfl

/-- **The row of terms is read along the stages**, to one at which it may end. -/
theorem follows_readTerms (built : Option Selector) (cursor : Cursor) :
    ∃ last, (readTerms built cursor).Follows (.between built) last cursor.rest ∧
      last.endKind? = none := by
  fun_induction readTerms built cursor with
  | case1 built cursor hpos outcome S hS ih =>
    have hterm : outcome.Follows _ .term cursor.rest :=
      follows_readTerm built cursor (Stage.expects_between built) (Cursor.remaining_pos_iff.1 hpos)
    obtain ⟨last, hmore, hlast⟩ := ih
    obtain ⟨read, hrest, hread⟩ := hterm.ok S hS
    exact ⟨last, hrest ▸ hmore.prepend hread, hlast⟩
  | case2 built cursor hpos outcome e he =>
    have hterm : outcome.Follows _ .term cursor.rest :=
      follows_readTerm built cursor (Stage.expects_between built) (Cursor.remaining_pos_iff.1 hpos)
    refine ⟨.term, ⟨(fun _ hx => by cases hx), fun e' he' => hterm.error e' ?_⟩, rfl⟩
    exact he.trans (congrArg Except.error (Except.error.inj he'))
  | case3 built cursor hpos =>
    exact ⟨_, Outcome.follows_ok _, Stage.endKind?_between built⟩

/-- **What parsing returns follows the stages**: a row that is accepted runs to a stage at which it
may end, and an error stops where the stages say. -/
theorem parseTokens_follows (tokens : List Token) :
    (∀ result, parseTokens tokens = .ok result →
      ∃ last, Stage.start.after tokens = some last ∧ last.endKind? = none) ∧
    ∀ e, parseTokens tokens = .error e → e.StopsAt .start tokens := by
  obtain ⟨last, hfollows, hlast⟩ := follows_readTerms none (Cursor.start tokens)
  refine ⟨fun result h => ⟨last, ?_, hlast⟩, hfollows.error⟩
  obtain ⟨read, hread, hrun⟩ := hfollows.ok result h
  have hrest : (Cursor.start tokens).parse.cursor.rest = [] := (readTerms_sound ⟨h, rfl⟩).1
  have htokens : tokens = read := by
    rw [← List.append_nil read, ← hrest]
    exact hread
  exact htokens ▸ hrun

end TreeQuery
