import Mathlib.Data.List.Forall2
import TreeQuery.Proofs.Selector.Reading
import TreeQuery.Proofs.Token.Neighbours

/-!
# Proofs/Selector/Agreement — readers before similar tokens

Two cursors stand before tokens that are similar one by one.  Then a reader gives the same phrase
from both, or fails at both in the same way, and leaves similar tokens again
(`Outcome.AgreesUpTo`; one lemma per reader, `Cursor.agreesUpTo_parse` for whole selectors).

Which tokens are similar is left open, as long as tokens are similar to none but themselves and
operators of one blank to none but each other.  With equality it follows that a reader sees of its
cursor only the tokens that are left, with `Token.Alike` that it does not see which blank an
operator holds.
-/

namespace TreeQuery

/-! ## Outcomes that agree -/

/-- **Two errors agree up to a relation on tokens**: they are of the same kind and have the same
selector built so far, and their tokens are related. -/
structure ParseError.AgreesUpTo (R : Token → Token → Prop) (e other : ParseError) : Prop where
  kind_eq : other.kind = e.kind
  built_eq : other.built = e.built
  token : Option.Rel R e.token other.token
  remaining : List.Forall₂ R e.remaining other.remaining

/-- **Two outcomes agree up to a relation on tokens**: both are the same phrase, or both are errors
of the same kind with the same selector built so far; the tokens that are left are related, and so
are those at fault. -/
inductive Outcome.AgreesUpTo {α : Type} (R : Token → Token → Prop) : Outcome α → Outcome α → Prop
  | ok {phrase : α} {cursor other : Cursor} (hrest : List.Forall₂ R cursor.rest other.rest) :
      AgreesUpTo R (.ok phrase cursor) (.ok phrase other)
  | error {kind : ParseError.Kind} {token token' : Option Token} {built : Option Selector}
      {cursor other : Cursor} (htoken : Option.Rel R token token')
      (hrest : List.Forall₂ R cursor.rest other.rest) :
      AgreesUpTo R (.error kind token built cursor) (.error kind token' built other)

section Agreement

variable {R : Token → Token → Prop}

namespace Outcome

variable {α β : Type} {outcome outcome' : Outcome α}

theorem AgreesUpTo.rest (h : outcome.AgreesUpTo R outcome') :
    List.Forall₂ R outcome.cursor.rest outcome'.cursor.rest := by
  cases h with
  | ok hrest => exact hrest
  | error _ hrest => exact hrest

theorem AgreesUpTo.result (h : outcome.AgreesUpTo R outcome') :
    (∃ phrase, outcome.result = .ok phrase ∧ outcome'.result = .ok phrase) ∨
      ∃ e e', outcome.result = .error e ∧ outcome'.result = .error e' ∧ e.AgreesUpTo R e' := by
  cases h with
  | ok => exact .inl ⟨_, rfl, rfl⟩
  | error htoken hrest => exact .inr ⟨_, _, rfl, rfl, rfl, rfl, htoken, hrest⟩

theorem AgreesUpTo.bind {next : α → Cursor → Outcome β} (h : outcome.AgreesUpTo R outcome')
    (hnext : ∀ phrase, (next phrase outcome.cursor).AgreesUpTo R (next phrase outcome'.cursor)) :
    (outcome.bind next).AgreesUpTo R (outcome'.bind next) := by
  cases h with
  | ok => exact hnext _
  | error htoken hrest => exact .error htoken hrest

theorem AgreesUpTo.map (h : outcome.AgreesUpTo R outcome') (f : α → β) :
    (outcome.map f).AgreesUpTo R (outcome'.map f) :=
  h.bind fun _ => .ok h.rest

end Outcome

namespace Cursor

variable {cursor other : Cursor}

theorem remaining_eq_of_forall₂ (h : List.Forall₂ R cursor.rest other.rest) :
    other.remaining = cursor.remaining := by
  rw [← length_rest, ← length_rest, h.length_eq]

/-- Before related tokens, cursors read related tokens and stand before related ones again. -/
theorem next?_of_forall₂ (h : List.Forall₂ R cursor.rest other.rest) :
    (cursor.next? = none ∧ other.next? = none) ∨
      ∃ token token' after after', cursor.next? = some (token, after) ∧
        other.next? = some (token', after') ∧ R token token' ∧
        List.Forall₂ R after.rest after'.rest := by
  match hnext : cursor.next?, hother : other.next? with
  | none, none => exact .inl ⟨rfl, rfl⟩
  | none, some (token, after) =>
    rw [next?_eq_none hnext, (next?_eq_some hother).1] at h
    cases h
  | some (token, after), none =>
    rw [next?_eq_none hother, (next?_eq_some hnext).1] at h
    cases h
  | some (token, after), some (token', after') =>
    rw [(next?_eq_some hnext).1, (next?_eq_some hother).1] at h
    obtain ⟨htoken, hrest⟩ := List.forall₂_cons.1 h
    exact .inr ⟨token, token', after, after', rfl, rfl, htoken, hrest⟩

end Cursor

/-! ## Operators of one blank -/

namespace Token

variable {token other : Token} {text : String} {c : Char}

theorem singleton_ne_of_isBlank (hc : Text.isBlank c = true)
    (htext : text.toList.any Text.isBlank = false) : String.singleton c ≠ text := by
  rintro rfl
  simp [hc] at htext

/-- Similar tokens are the same mark, or neither is that mark. -/
theorem Alike.isOperator_eq (h : token.Alike other)
    (htext : text.toList.any Text.isBlank = false) :
    other.isOperator text = token.isOperator text := by
  cases h with
  | refl => rfl
  | blanks hc hd =>
    simp [isOperator, singleton_ne_of_isBlank hc htext, singleton_ne_of_isBlank hd htext]

/-- An operator of one blank is the descendant combinator, whichever blank it is. -/
theorem opening_blank (hc : Text.isBlank c = true) (isFirst isLast : Bool) :
    (operator (String.singleton c)).opening isFirst isLast =
      if isLast then .error .unexpectedToken else .ok (.operand .descendant) := by
  have hjoins : Combinator.ofOperator? (String.singleton c) = some .descendant :=
    Grammar.joins_iff.1 (.descendant (by simp) (by simpa using hc))
  rw [opening, hjoins, if_neg (singleton_ne_of_isBlank hc (by decide))]

theorem Alike.opening_eq (h : token.Alike other) (isFirst isLast : Bool) :
    other.opening isFirst isLast = token.opening isFirst isLast := by
  cases h with
  | refl => rfl
  | blanks hc hd => rw [opening_blank hc, opening_blank hd]

end Token

/-! ## Readers -/

section Readers

open Outcome

variable {cursor other : Cursor} (built : Option Selector)
  (hR : ∀ {token other : Token}, R token other → token.Alike other)
  (h : List.Forall₂ R cursor.rest other.rest)

include hR h

theorem agreesUpTo_readLiteral :
    (readLiteral built cursor).AgreesUpTo R (readLiteral built other) := by
  rcases Cursor.next?_of_forall₂ h with
    ⟨hnext, hnext'⟩ | ⟨token, token', _, _, hnext, hnext', htoken, hafter⟩
  · simp only [readLiteral, hnext, hnext']
    exact .error .none h
  · simp only [readLiteral, hnext, hnext']
    cases hR htoken with
    | refl =>
      cases token with
      | number | string => exact .ok hafter
      | _ => exact .error (.some htoken) hafter
    | blanks => exact .error (.some htoken) hafter

/-- A phrase is closed alike. -/
theorem agreesUpTo_closed {α : Type} (x : α) {text : String}
    (htext : text.toList.any Text.isBlank = false) (missing wrong : ParseError.Kind) :
    (match cursor.next? with
      | none => error missing none built cursor
      | some (token, after) =>
        if token.isOperator text then ok x after
        else error wrong (some token) built after).AgreesUpTo R
    (match other.next? with
      | none => error missing none built other
      | some (token, after) =>
        if token.isOperator text then ok x after else error wrong (some token) built after) := by
  rcases Cursor.next?_of_forall₂ h with
    ⟨hnext, hnext'⟩ | ⟨token, token', _, _, hnext, hnext', htoken, hafter⟩
  · simp only [hnext, hnext']
    exact .error .none h
  · simp only [hnext, hnext', (hR htoken).isOperator_eq htext]
    split
    · exact .ok hafter
    · exact .error (.some htoken) hafter

theorem agreesUpTo_readArgument :
    (readArgument built cursor).AgreesUpTo R (readArgument built other) := by
  rcases Cursor.next?_of_forall₂ h with
    ⟨hnext, hnext'⟩ | ⟨token, token', _, _, hnext, hnext', htoken, hafter⟩
  · simp only [readArgument, hnext, hnext']
    exact .error .none h
  · have hopens : token'.isOperator "(" = token.isOperator "(" :=
      (hR htoken).isOperator_eq (by decide)
    simp only [readArgument, hnext, hnext', hopens, Cursor.remaining_eq_of_forall₂ hafter]
    split
    · have hliteral := agreesUpTo_readLiteral built hR hafter
      exact hliteral.bind fun literal =>
        agreesUpTo_closed built hR hliteral.rest literal (by decide) _ _
    · exact .error (.some htoken) hafter

theorem agreesUpTo_readPseudo :
    (readPseudo built cursor).AgreesUpTo R (readPseudo built other) := by
  rcases Cursor.next?_of_forall₂ h with
    ⟨hnext, hnext'⟩ | ⟨token, token', _, _, hnext, hnext', htoken, hafter⟩
  · simp only [readPseudo, hnext, hnext']
    exact .error .none h
  · simp only [readPseudo, hnext, hnext']
    cases hR htoken with
    | refl =>
      cases token with
      | keyword word =>
        dsimp only
        split
        · exact .ok hafter
        split
        · exact .ok hafter
        split
        · exact (agreesUpTo_readArgument built hR hafter).map _
        · exact .error (.some htoken) hafter
      | _ => exact .error (.some htoken) hafter
    | blanks => exact .error (.some htoken) hafter

theorem agreesUpTo_readEquality (name : String) :
    (readEquality name built cursor).AgreesUpTo R (readEquality name built other) := by
  have hliteral := agreesUpTo_readLiteral built hR h
  exact hliteral.bind fun literal =>
    agreesUpTo_closed (some (.attribute name (.equal literal))) hR hliteral.rest _ (by decide) _ _

theorem agreesUpTo_readAttribute :
    (readAttribute built cursor).AgreesUpTo R (readAttribute built other) := by
  rcases Cursor.next?_of_forall₂ h with
    ⟨hnext, hnext'⟩ | ⟨token, token', _, _, hnext, hnext', htoken, hafter⟩
  · simp only [readAttribute, hnext, hnext']
    exact .error .none h
  · simp only [readAttribute, hnext, hnext']
    cases hR htoken with
    | refl =>
      cases token with
      | identifier name =>
        simp only [Cursor.remaining_eq_of_forall₂ hafter]
        split
        · exact .error (.some htoken) hafter
        rcases Cursor.next?_of_forall₂ hafter with
          ⟨hop, hop'⟩ | ⟨operator, operator', _, _, hop, hop', hoperator, hlater⟩
        · simp only [hop, hop']
          exact .error .none hafter
        · simp only [hop, hop']
          cases hR hoperator with
          | refl =>
            cases operator with
            | operator op =>
              dsimp only
              split
              · exact .ok hlater
              split
              · exact agreesUpTo_readEquality built hR hlater name
              · exact .error (.some hoperator) hlater
            | _ => exact .error (.some hoperator) hlater
          | blanks hc hd =>
            have hne {c : Char} (hc : Text.isBlank c = true) :
                String.singleton c ≠ "]" ∧ String.singleton c ≠ "=" :=
              ⟨Token.singleton_ne_of_isBlank hc (by decide),
                Token.singleton_ne_of_isBlank hc (by decide)⟩
            simp only [hne hc, hne hd, if_false]
            exact .error (.some hoperator) hlater
      | _ => exact .error (.some htoken) hafter
    | blanks => exact .error (.some htoken) hafter

end Readers

/-! ## Terms and whole selectors -/

variable (hR : ∀ {token other : Token}, R token other → token.Alike other)

include hR

theorem agreesUpTo_readTerm (built : Option Selector) (cursor : Cursor) {other : Cursor}
    (h : List.Forall₂ R cursor.rest other.rest) :
    (readTerm built cursor).AgreesUpTo R (readTerm built other) := by
  -- along the combinators in front of the term
  induction hlength : cursor.remaining using Nat.strongRecOn generalizing built cursor other with
  | ind length ih =>
    rcases Cursor.next?_of_forall₂ h with
      ⟨hnext, hnext'⟩ | ⟨token, token', after, after', hnext, hnext', htoken, hafter⟩
    · rw [readTerm_of_next?_eq_none hnext, readTerm_of_next?_eq_none hnext']
      exact .error .none h
    · rw [readTerm_of_next?_eq_some hnext, readTerm_of_next?_eq_some hnext',
        Cursor.remaining_eq_of_forall₂ hafter, (hR htoken).opening_eq]
      match token.opening built.isNone (after.remaining == 0) with
      | .ok (.whole term) => exact .ok hafter
      | .ok (.operand combinator) =>
        have hshorter := Cursor.remaining_of_next? hnext
        exact (ih after.remaining (by omega) none after hafter rfl).map _
      | .ok .pseudo => exact (agreesUpTo_readPseudo built hR hafter).map _
      | .ok .attribute => exact (agreesUpTo_readAttribute built hR hafter).map _
      | .error kind => exact .error (.some htoken) hafter

theorem agreesUpTo_readTerms (built : Option Selector) (cursor : Cursor) {other : Cursor}
    (h : List.Forall₂ R cursor.rest other.rest) :
    (readTerms built cursor).AgreesUpTo R (readTerms built other) := by
  induction hlength : cursor.remaining using Nat.strongRecOn generalizing built cursor other with
  | ind length ih =>
    rw [readTerms_eq, readTerms_eq, Cursor.remaining_eq_of_forall₂ h]
    split
    · have hterm := agreesUpTo_readTerm hR built cursor h
      have hshorter := remaining_readTerm_le built cursor
      exact hterm.bind fun S => ih _ (by omega) (some S) _ hterm.rest rfl
    · exact .ok h

/-- **Before related tokens, whole selectors are read alike.** -/
theorem Cursor.agreesUpTo_parse {cursor other : Cursor}
    (h : List.Forall₂ R cursor.rest other.rest) : cursor.parse.AgreesUpTo R other.parse :=
  agreesUpTo_readTerms hR none cursor h

end Agreement

end TreeQuery
