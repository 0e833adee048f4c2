import Mathlib.Logic.Function.Iterate
import TreeQuery.Proofs.Selector.Agreement

/-!
# Proofs/Selector/Resume — reading on after an error

A reader sees of its cursor only the tokens that are left.  From two cursors before the same tokens
it gives the same result and leaves the same tokens, and an error names exactly those
(`Outcome.Agrees`, `Cursor.agrees_parse`).  That is the agreement of readers for equal tokens.

So reading on after an error is reading its remaining tokens from the start.  An error uses up a
token and success uses up all, hence reading again and again first fails, at most once for each
token, then succeeds once, and from then on finds nothing (`parseRepeatedly_resumes`).
-/

namespace TreeQuery

/-! ## Outcomes that agree -/

/-- **Two outcomes agree**: they have the same result and leave the same tokens, and an error names
the tokens that are left. -/
structure Outcome.Agrees {α : Type} (outcome other : Outcome α) : Prop where
  result_eq : other.result = outcome.result
  rest_eq : other.cursor.rest = outcome.cursor.rest
  remaining_eq : ∀ e, outcome.result = .error e → e.remaining = outcome.cursor.rest

/-- Outcomes that agree up to equality of tokens agree. -/
theorem Outcome.AgreesUpTo.agrees {α : Type} {outcome other : Outcome α}
    (h : outcome.AgreesUpTo Eq other) : outcome.Agrees other := by
  cases h with
  | ok hrest =>
    rw [List.forall₂_eq_eq_eq] at hrest
    exact ⟨rfl, hrest.symm, fun _ he => nomatch he⟩
  | @error _ token token' _ _ _ htoken hrest =>
    rw [List.forall₂_eq_eq_eq] at hrest
    obtain rfl : token = token' := by
      cases htoken with
      | none => rfl
      | some heq => rw [heq]
    refine ⟨by rw [Outcome.error, Outcome.error, hrest], hrest.symm, fun e he => ?_⟩
    rw [← Except.error.inj he]
    rfl

/-- **Only the tokens that are left decide** what a cursor reads and where it stops. -/
theorem Cursor.agrees_parse {cursor other : Cursor} (h : other.rest = cursor.rest) :
    cursor.parse.Agrees other.parse := by
  have halike {token other : Token} (heq : token = other) : token.Alike other := heq ▸ .refl token
  refine (agreesUpTo_parse halike ?_).agrees
  rw [List.forall₂_eq_eq_eq, h]

/-! ## One reading -/

namespace Cursor

variable {cursor : Cursor}

/-- Reading on is reading what is left from the start. -/
theorem result_parse (cursor : Cursor) : cursor.parse.result = parseTokens cursor.rest := by
  have hrest : cursor.rest = (start cursor.rest).rest := rfl
  exact (agrees_parse hrest).result_eq

/-- A reading that succeeds uses up all tokens. -/
theorem rest_parse_of_ok {S : Option Selector} (h : cursor.parse.result = .ok S) :
    cursor.parse.cursor.rest = [] :=
  (readTerms_sound ⟨h, rfl⟩).1

/-- A reading that fails leaves the tokens that the error names. -/
theorem rest_parse_of_error {e : ParseError} (h : cursor.parse.result = .error e) :
    cursor.parse.cursor.rest = e.remaining :=
  ((agrees_parse rfl).remaining_eq e h).symm

/-- **A reading that fails uses up a token.** -/
theorem remaining_parse_lt {e : ParseError} (h : cursor.parse.result = .error e) :
    cursor.parse.cursor.remaining < cursor.remaining := by
  unfold parse at h ⊢
  generalize (none : Option Selector) = built at h ⊢
  fun_induction readTerms built cursor with
  | case1 built cursor hpos outcome S _ ih =>
    have hterm : outcome.cursor.remaining ≤ cursor.remaining - 1 :=
      remaining_readTerm_le built cursor
    have hrest := ih h
    omega
  | case2 built cursor hpos outcome _ _ =>
    have hterm : outcome.cursor.remaining ≤ cursor.remaining - 1 :=
      remaining_readTerm_le built cursor
    change outcome.cursor.remaining < cursor.remaining
    omega
  | case3 => cases h

/-! ## Reading again and again -/

/-- The cursor after a number of readings, each from where the last one stopped. -/
def resumed (cursor : Cursor) (n : Nat) : Cursor :=
  (fun c : Cursor => c.parse.cursor)^[n] cursor

theorem resumed_succ (cursor : Cursor) (n : Nat) :
    cursor.resumed (n + 1) = (cursor.resumed n).parse.cursor :=
  Function.iterate_succ_apply' ..

theorem resumed_succ' (cursor : Cursor) (n : Nat) :
    cursor.resumed (n + 1) = cursor.parse.cursor.resumed n :=
  Function.iterate_succ_apply ..

/-- The results of repeated reading are those at the cursors where it goes on. -/
theorem parseRepeatedly_eq (cursor : Cursor) (n : Nat) :
    cursor.parseRepeatedly n = (List.range n).map fun i => (cursor.resumed i).parse.result := by
  induction n generalizing cursor with
  | zero => rfl
  | succ n ih =>
    rw [parseRepeatedly, ih, List.range_succ_eq_map, List.map_cons, List.map_map]
    exact congrArg _ (List.map_congr_left fun i _ => by rw [Function.comp, resumed_succ'])

/-- The result after an error is that of the tokens it names; after success it is nothing. -/
theorem result_resumed_succ (cursor : Cursor) (i : Nat) :
    (cursor.resumed (i + 1)).parse.result =
      match (cursor.resumed i).parse.result with
      | .error e => parseTokens e.remaining
      | .ok _ => .ok none := by
  rw [result_parse, resumed_succ]
  match h : (cursor.resumed i).parse.result with
  | .error e => rw [rest_parse_of_error h]
  | .ok S =>
    rw [rest_parse_of_ok h]
    exact parseTokens_eq_ok_iff.2 (.nil none)

/-- Reading fails at most once for each token that is left, and then succeeds. -/
theorem exists_resumed_ok (cursor : Cursor) : ∃ k ≤ cursor.remaining,
    (∀ i < k, ∃ e, (cursor.resumed i).parse.result = .error e) ∧
      ∃ S, (cursor.resumed k).parse.result = .ok S := by
  induction hlength : cursor.remaining using Nat.strongRecOn generalizing cursor with
  | ind length ih =>
    match h : cursor.parse.result with
    | .ok S => exact ⟨0, Nat.zero_le _, fun _ hi => absurd hi (Nat.not_lt_zero _), S, h⟩
    | .error e =>
      have hshorter := remaining_parse_lt h
      obtain ⟨k, hk, hfail, hok⟩ := ih _ (hlength ▸ hshorter) cursor.parse.cursor rfl
      refine ⟨k + 1, by omega, fun i hi => ?_, by rwa [resumed_succ']⟩
      match i with
      | 0 => exact ⟨e, h⟩
      | i + 1 => simpa only [resumed_succ'] using hfail i (Nat.lt_of_succ_lt_succ hi)

end Cursor

/-- **Reading again and again from one row of tokens.**  The first result is that of the row; after
an error comes the result of the tokens it names, which are fewer than before; after success comes
nothing, for ever.  There are no more errors than tokens, and then there is success. -/
theorem parseRepeatedly_resumes (tokens : List Token) :
    (∀ n, (Cursor.start tokens).parseRepeatedly n =
      (List.range n).map fun i => ((Cursor.start tokens).resumed i).parse.result) ∧
    ((Cursor.start tokens).resumed 0).parse.result = parseTokens tokens ∧
    (∀ i, match ((Cursor.start tokens).resumed i).parse.result with
      | .error e =>
        ((Cursor.start tokens).resumed (i + 1)).parse.result = parseTokens e.remaining ∧
          ((Cursor.start tokens).resumed (i + 1)).rest = e.remaining ∧
          ((Cursor.start tokens).resumed (i + 1)).remaining <
            ((Cursor.start tokens).resumed i).remaining
      | .ok _ => ((Cursor.start tokens).resumed (i + 1)).parse.result = .ok none) ∧
    ∃ k ≤ tokens.length,
      (∀ i < k, ∃ e, ((Cursor.start tokens).resumed i).parse.result = .error e) ∧
      (∃ S, ((Cursor.start tokens).resumed k).parse.result = .ok S) ∧
      ∀ i, k < i → ((Cursor.start tokens).resumed i).parse.result = .ok none := by
  refine ⟨Cursor.parseRepeatedly_eq _, rfl, fun i => ?_, ?_⟩
  · have hnext := Cursor.result_resumed_succ (Cursor.start tokens) i
    match h : ((Cursor.start tokens).resumed i).parse.result with
    | .error e =>
      rw [h] at hnext
      refine ⟨hnext, ?_, ?_⟩
      · rw [Cursor.resumed_succ, Cursor.rest_parse_of_error h]
      · rw [Cursor.resumed_succ]
        exact Cursor.remaining_parse_lt h
    | .ok S => rwa [h] at hnext
  · obtain ⟨k, hk, hfail, S, hok⟩ := Cursor.exists_resumed_ok (Cursor.start tokens)
    refine ⟨k, hk, hfail, ⟨S, hok⟩, fun i hi => ?_⟩
    induction hi with
    | refl => rw [Cursor.result_resumed_succ, hok]
    | step _ ih => rw [Cursor.result_resumed_succ, ih]

end TreeQuery
