import TreeQuery.Proofs.Selector.Written
import TreeQuery.Proofs.Token.Neighbours

/-!
# Proofs/Selector/Shape — what every selector that is read looks like

The grammar makes right operands single terms (`Selector.SingleRight`), whatever the tokens.  That a
descendant step leads from a name or a plain pseudo-class to a name or a position
(`Selector.OpenDescendants`) is said nowhere in the grammar: it holds of texts, because a blank that
stands next to punctuation never becomes a token (`Proofs/Token/Neighbours`).

`shape_of_parse` puts the two together.
-/

namespace TreeQuery

open Grammar

namespace Selector

/-- **Right operands are single terms**, and those of conjunctions predicates. -/
def SingleRight : Selector → Prop
  | .combine _ left right => left.SingleRight ∧ right.IsTerm
  | .both left right => left.SingleRight ∧ right.IsPredicate
  | _ => True

/-- **Every descendant step leads from an open end to an open beginning**: from a name or a
pseudo-class without argument to a name or a position. -/
def OpenDescendants : Selector → Prop
  | .combine combinator left right => left.OpenDescendants ∧ right.OpenDescendants ∧
      (combinator = .descendant → left.EndsOpen ∧ right.BeginsOpen)
  | .both left right => left.OpenDescendants ∧ right.OpenDescendants
  | _ => True

variable {S : Selector}

theorem IsTerm.singleRight (h : S.IsTerm) : S.SingleRight := by
  cases S with
  | combine | both => exact h.elim
  | _ => trivial

theorem IsTerm.openDescendants (h : S.IsTerm) : S.OpenDescendants := by
  cases S with
  | combine | both => exact h.elim
  | _ => trivial

end Selector

namespace Grammar

variable {tokens front back : List Token} {token : Token} {left S : Selector} {tail : Tail}
  {tails : List Tail}

/-! ## Right operands -/

theorem IsPredicate.isPredicate (h : IsPredicate tokens S) : S.IsPredicate := by
  cases h with
  | pseudo h => cases h <;> trivial
  | test h => cases h <;> trivial

theorem IsAtom.isTerm (h : IsAtom tokens S) : S.IsTerm := by
  cases h with
  | predicate h => exact h.isPredicate.isTerm
  | _ => trivial

theorem IsOperand.isTerm (h : IsOperand tokens S) : S.IsTerm := by
  induction h with
  | atom h => exact h.isTerm
  | skip _ _ ih => exact ih

theorem IsTail.singleRight (h : IsTail tokens tail) (hleft : left.SingleRight) :
    (tail.onto left).SingleRight := by
  cases h with
  | joined _ h => exact ⟨hleft, h.isTerm⟩
  | predicate h => exact ⟨hleft, h.isPredicate⟩

theorem IsTails.singleRight (h : IsTails tokens tails) (hleft : left.SingleRight) :
    (tails.foldl Tail.onto left).SingleRight := by
  induction h generalizing left with
  | nil => exact hleft
  | cons h _ ih => exact ih (h.singleRight hleft)

/-- **Whatever tokens denote has single terms on the right.** -/
theorem Derives.singleRight (h : Derives tokens S) : S.SingleRight := by
  obtain ⟨_, _, _, _, _, hfirst, htails, rfl⟩ := h
  exact htails.singleRight hfirst.isTerm.singleRight

/-! ## Ends that take no blanks -/

/-- A row of tokens begins with a given token only if that takes blanks or the selector begins
open. -/
def BeginsAs (tokens : List Token) (S : Selector) : Prop :=
  ∃ token rest, tokens = token :: rest ∧ (¬ token.TakesBlanks → S.BeginsOpen)

/-- A row of tokens ends with a token that takes blanks, or the selector ends open. -/
def EndsAs (tokens : List Token) (S : Selector) : Prop :=
  ∃ front token, tokens = front ++ [token] ∧ (¬ token.TakesBlanks → S.EndsOpen)

theorem EndsAs.append (h : EndsAs back S) (front : List Token) : EndsAs (front ++ back) S := by
  obtain ⟨more, token, rfl, hopen⟩ := h
  exact ⟨front ++ more, token, (List.append_assoc ..).symm, hopen⟩

theorem Joins.takesBlanks {combinator : Combinator} (h : Joins token combinator) :
    token.TakesBlanks := by
  cases h with
  | descendant _ hblank => exact fun c hc => .inl (hblank c hc)
  | _ => simp [Token.TakesBlanks, marks]

theorem Joins.isBlank (h : Joins token .descendant) : token.IsBlank := by
  cases h with
  | descendant hne hblank => exact ⟨hne, hblank⟩

theorem IsPredicate.beginsAs (h : IsPredicate tokens S) : BeginsAs tokens S := by
  cases h with
  | pseudo h =>
    refine ⟨_, _, rfl, fun _ => ?_⟩
    cases h <;> trivial
  | test => exact ⟨_, _, rfl, fun h => absurd (by simp [Token.TakesBlanks, marks]) h⟩

theorem IsPredicate.endsAs (h : IsPredicate tokens S) : EndsAs tokens S := by
  cases h with
  | pseudo h =>
    cases h with
    | firstChild => exact ⟨[_], _, rfl, fun _ => .inl rfl⟩
    | lastChild => exact ⟨[_], _, rfl, fun _ => .inr rfl⟩
    | nthChild =>
      exact ⟨[_, _, _, _], _, rfl, fun h => absurd (by simp [Token.TakesBlanks, marks]) h⟩
  | test h =>
    cases h with
    | present => exact ⟨[_, _], _, rfl, fun h => absurd (by simp [Token.TakesBlanks, marks]) h⟩
    | equal => exact ⟨[_, _, _, _], _, rfl, fun h => absurd (by simp [Token.TakesBlanks, marks]) h⟩

theorem IsAtom.beginsAs (h : IsAtom tokens S) : BeginsAs tokens S := by
  cases h with
  | wildcard => exact ⟨_, _, rfl, fun h => absurd trivial h⟩
  | identifier => exact ⟨_, _, rfl, fun _ => trivial⟩
  | predicate h => exact h.beginsAs

theorem IsAtom.endsAs (h : IsAtom tokens S) : EndsAs tokens S := by
  cases h with
  | wildcard => exact ⟨[], _, rfl, fun h => absurd trivial h⟩
  | identifier => exact ⟨[], _, rfl, fun _ => trivial⟩
  | predicate h => exact h.endsAs

theorem IsOperand.beginsAs (h : IsOperand tokens S) : BeginsAs tokens S := by
  cases h with
  | atom h => exact h.beginsAs
  | skip hc => exact ⟨_, _, rfl, fun h => absurd hc.takesBlanks h⟩

theorem IsOperand.endsAs (h : IsOperand tokens S) : EndsAs tokens S := by
  induction h with
  | atom h => exact h.endsAs
  | @skip token _ _ _ _ _ ih => exact ih.append [token]

theorem IsTail.endsAs (h : IsTail tokens tail) : EndsAs tokens (tail.onto left) := by
  cases h with
  | joined _ h => exact h.endsAs.append [_]
  | predicate h => exact h.endsAs

/-! ## Descendant steps -/

/-- A blank between two tokens that take no blanks: a descendant step is open on both sides. -/
theorem IsTail.openDescendants (h : IsTail back tail) (hends : EndsAs front left)
    (hchain : (front ++ back).IsChain BlanksApart) (hleft : left.OpenDescendants) :
    (tail.onto left).OpenDescendants := by
  cases h with
  | predicate h => exact ⟨hleft, h.isPredicate.isTerm.openDescendants⟩
  | @joined token combinator tokens S hc h =>
    refine ⟨hleft, h.isTerm.openDescendants, ?_⟩
    rintro rfl
    obtain ⟨before, last, rfl, hopen⟩ := hends
    obtain ⟨first, after, rfl, hbegins⟩ := h.beginsAs
    rw [List.append_assoc] at hchain
    obtain ⟨hbefore, hafter⟩ := List.isChain_cons_cons.1 (List.isChain_append.1 hchain).2.1
    have hnext := (List.isChain_cons_cons.1 hafter).1
    exact ⟨hopen (hbefore.left hc.isBlank), hbegins (hnext.right hc.isBlank)⟩

theorem IsTails.openDescendants (h : IsTails back tails) (hends : EndsAs front left)
    (hchain : (front ++ back).IsChain BlanksApart) (hleft : left.OpenDescendants) :
    (tails.foldl Tail.onto left).OpenDescendants := by
  induction h generalizing front left with
  | nil => exact hleft
  | cons h _ ih =>
    rw [← List.append_assoc] at hchain
    exact ih (h.endsAs.append front) hchain (h.openDescendants hends hchain.left_of_append hleft)

/-- **Where no blank stands next to punctuation, descendant steps are open on both sides.** -/
theorem Derives.openDescendants (h : Derives tokens S) (hchain : tokens.IsChain BlanksApart) :
    S.OpenDescendants := by
  obtain ⟨_, _, _, _, rfl, hfirst, htails, rfl⟩ := h
  exact htails.openDescendants hfirst.endsAs hchain hfirst.isTerm.openDescendants

end Grammar

/-! ## Texts -/

/-- The tokens of a text that is read as a selector denote it. -/
theorem derives_of_parse {text : String} {S : Selector} (h : parse text = .ok (some S)) :
    Derives (tokenize text) S := by
  simpa using isTerms_none_iff.1 (parseTokens_eq_ok_iff.1 h)

/-- **The shape of every selector that is read**: right operands are single terms, descendant steps
are open on both sides; and in no text does a blank between two terms stand next to a wildcard, a
mark or another blank. -/
theorem shape_of_parse (text : String) : (tokenize text).IsChain BlanksApart ∧
    ∀ S, parse text = .ok (some S) → S.SingleRight ∧ S.OpenDescendants := by
  refine ⟨isChain_tokenize text, fun S h => ?_⟩
  have hderives := derives_of_parse h
  exact ⟨hderives.singleRight, hderives.openDescendants (isChain_tokenize text)⟩

/-- What `a :last-child b > * [x]` spells: the blanks on either side of `*` are no steps. -/
def spacedSelector : Selector :=
  .both (.combine .child (.combine .descendant (.combine .descendant (.identifier "a") .lastChild)
    (.identifier "b")) .wildcard) (.attribute "x" .present)

theorem shape_of_parse_spacedSelector :
    parse "a :last-child b > * [x]" = .ok (some spacedSelector) ∧ spacedSelector.SingleRight ∧
      spacedSelector.OpenDescendants := by
  have hparse : parse "a :last-child b > * [x]" = .ok (some spacedSelector) := by decide +kernel
  exact ⟨hparse, (shape_of_parse _).2 _ hparse⟩

end TreeQuery
