import Mathlib.Control.Monad.Basic
import TreeQuery.Proofs.Selector.Progress

/-!
# Proofs/Selector/Pinpoint — an error pinpoints where a row of tokens goes wrong

The parser follows the stages (`Proofs/Selector/Progress`), hence it accepts exactly the rows that
run to a stage at which they may end (`exists_parseTokens_eq_ok_iff`).  So a row that runs to any
stage is the front of a selector, as every stage can be completed, and a token that may not stand
at the stage spoils every row that goes on with it.

`parseTokens_error_pinpoints` reads this off the place at which an error stops.
-/

namespace TreeQuery

/-- **A row of tokens is accepted exactly if it runs to a stage at which it may end.** -/
theorem exists_parseTokens_eq_ok_iff (tokens : List Token) :
    (∃ result, parseTokens tokens = .ok result) ↔
      ∃ last, Stage.start.after tokens = some last ∧ last.endKind? = none := by
  obtain ⟨hok, herror⟩ := parseTokens_follows tokens
  constructor
  · rintro ⟨result, h⟩
    exact hok result h
  · rintro ⟨last, hrun, hlast⟩
    match h : parseTokens tokens with
    | .ok result => exact ⟨result, rfl⟩
    | .error e => exact absurd (hlast.symm.trans ((herror e h).endKind?_eq hrun)) nofun

/-- **No stage is a dead end**: tokens that run to one are the front of a selector. -/
theorem exists_parseTokens_append {tokens : List Token} {last : Stage}
    (h : Stage.start.after tokens = some last) :
    ∃ more S, parseTokens (tokens ++ more) = .ok (some S) := by
  have hrun : Stage.start.after (tokens ++ last.completion) = some .term :=
    (Stage.after_append_of_after h).trans last.after_completion
  obtain ⟨result, hresult⟩ := (exists_parseTokens_eq_ok_iff _).2 ⟨.term, hrun, rfl⟩
  cases result with
  | some S => exact ⟨_, S, hresult⟩
  | none =>
    rw [(parseTokens_iff _).1.1 hresult] at hrun
    exact nomatch hrun

/-- **A token that may not stand where it does spoils every row** that begins so. -/
theorem parseTokens_ne_ok_of_next? {tokens : List Token} {last : Stage} {token : Token}
    (h : Stage.start.after tokens = some last) (hrefuses : last.next? token = none)
    (more : List Token) (result : Option Selector) :
    parseTokens (tokens ++ [token] ++ more) ≠ .ok result := by
  intro hok
  obtain ⟨final, hfinal, _⟩ := (exists_parseTokens_eq_ok_iff _).1 ⟨result, hok⟩
  rw [List.append_assoc, Stage.after_append_of_after h, List.singleton_append,
    Stage.after_eq_none_of_next? hrefuses] at hfinal
  exact nomatch hfinal

/-- **An error pinpoints where a row of tokens goes wrong.**  The tokens before the one at fault, or
all of them if none is at fault, are the front of some selector; no selector begins with them and
the token at fault, unless the row ends there or one token later. -/
theorem parseTokens_error_pinpoints (tokens : List Token) (e : ParseError)
    (h : parseTokens tokens = .error e) :
    ∃ front, (match e.token with
      | none => e.remaining = [] ∧ tokens = front
      | some token => tokens = front ++ [token] ++ e.remaining ∧
          ((∀ more result, parseTokens (front ++ [token] ++ more) ≠ .ok result) ∨
            e.remaining.length ≤ 1)) ∧
      ∃ more S, parseTokens (front ++ more) = .ok (some S) := by
  obtain ⟨front, last, hrun, hpoints⟩ := ((parseTokens_follows tokens).2 e h).exists_run
  refine ⟨front, ?_, exists_parseTokens_append hrun⟩
  match htoken : e.token with
  | none =>
    rw [htoken] at hpoints
    exact hpoints
  | some token =>
    rw [htoken] at hpoints
    exact ⟨hpoints.1, hpoints.2.imp_left (parseTokens_ne_ok_of_next? hrun)⟩

/-- In `a[b=c] > d` the error points at the `c`: `a[b=` is the front of some selector, and `a[b=c`
of none. -/
theorem pinpoints_unquoted_value :
    parseTokens [.identifier "a", .operator "[", .identifier "b", .operator "=", .identifier "c",
        .operator "]", .operator ">", .identifier "d"] =
      .error ⟨.unexpectedValue, some (.identifier "c"),
        [.operator "]", .operator ">", .identifier "d"], some (.identifier "a")⟩ ∧
    (∀ more result, parseTokens ([.identifier "a", .operator "[", .identifier "b", .operator "="] ++
      [.identifier "c"] ++ more) ≠ .ok result) ∧
    ∃ more S, parseTokens ([.identifier "a", .operator "[", .identifier "b", .operator "="] ++
      more) = .ok (some S) := by
  have herror : parseTokens [.identifier "a", .operator "[", .identifier "b", .operator "=",
      .identifier "c", .operator "]", .operator ">", .identifier "d"] =
    .error ⟨.unexpectedValue, some (.identifier "c"),
      [.operator "]", .operator ">", .identifier "d"], some (.identifier "a")⟩ := by decide +kernel
  obtain ⟨front, ⟨hsplit, hpoints⟩, hviable⟩ := parseTokens_error_pinpoints _ _ herror
  have hsplit : [.identifier "a", .operator "[", .identifier "b", .operator "="] ++
    [.identifier "c"] ++ [.operator "]", .operator ">", .identifier "d"] =
      front ++ [.identifier "c"] ++ [.operator "]", .operator ">", .identifier "d"] := hsplit
  obtain rfl := List.append_cancel_right (List.append_cancel_right hsplit)
  exact ⟨herror, hpoints.resolve_right (by decide), hviable⟩

end TreeQuery
