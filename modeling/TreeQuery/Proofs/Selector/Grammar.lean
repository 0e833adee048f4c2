import TreeQuery.Selector.Basic
import TreeQuery.Token.Basic

/-!
# Proofs/Selector/Grammar — which rows of tokens denote which selectors

The grammar of selectors over tokens, one relation for each phrase:

* a *predicate* is a pseudo-class or a property test;
* an *atom* is a wildcard, a name or a predicate;
* an *operand* is an atom, with combinators in front that do not count;
* a *tail* is a combinator and an operand, or a predicate;
* a selector is an operand and tails, folded onto it from the left (`Derives`).

`IsTerm` puts operands and tails into the one form in which a selector is read: term after term,
each joined onto what was built before it.
-/

namespace TreeQuery.Grammar

/-! ## Phrases -/

/-- A token that joins two terms, and how. -/
inductive Joins : Token → Combinator → Prop
  | child : Joins (.operator ">") .child
  | sibling : Joins (.operator "~") .sibling
  | adjacent : Joins (.operator "+") .adjacent
  | descendant {blanks : String} (nonempty : blanks ≠ "")
      (blank : ∀ c ∈ blanks.toList, Text.isBlank c = true) : Joins (.operator blanks) .descendant

/-- A token that is a literal. -/
inductive IsLiteral : Token → Literal → Prop
  | number (x : Float) : IsLiteral (.number x) (.number x)
  | string (text : String) : IsLiteral (.string text) (.string text)

/-- A pseudo-class after its colon. -/
inductive IsPseudo : List Token → Selector → Prop
  | firstChild : IsPseudo [.keyword "first-child"] (.nthChild (.number 0.0))
  | lastChild : IsPseudo [.keyword "last-child"] (.nthChild (.number (-1.0)))
  | nthChild {token : Token} {position : Literal} (h : IsLiteral token position) :
      IsPseudo [.keyword "nth-child", .operator "(", token, .operator ")"] (.nthChild position)

/-- A property test after its opening bracket. -/
inductive IsTest : List Token → Selector → Prop
  | present (name : String) : IsTest [.identifier name, .operator "]"] (.attribute name .present)
  | equal (name : String) {token : Token} {literal : Literal} (h : IsLiteral token literal) :
      IsTest [.identifier name, .operator "=", token, .operator "]"]
        (.attribute name (.equal literal))

/-- **A predicate**: a pseudo-class or a property test. -/
inductive IsPredicate : List Token → Selector → Prop
  | pseudo {tokens : List Token} {S : Selector} (h : IsPseudo tokens S) :
      IsPredicate (.operator ":" :: tokens) S
  | test {tokens : List Token} {S : Selector} (h : IsTest tokens S) :
      IsPredicate (.operator "[" :: tokens) S

/-- **An atom.** -/
inductive IsAtom : List Token → Selector → Prop
  | wildcard : IsAtom [.wildcard] .wildcard
  | identifier (name : String) : IsAtom [.identifier name] (.identifier name)
  | predicate {tokens : List Token} {S : Selector} (h : IsPredicate tokens S) : IsAtom tokens S

/-- An atom after any number of combinators. -/
inductive IsOperand : List Token → Selector → Prop
  | atom {tokens : List Token} {S : Selector} (h : IsAtom tokens S) : IsOperand tokens S
  | skip {token : Token} {combinator : Combinator} {tokens : List Token} {S : Selector}
      (hc : Joins token combinator) (h : IsOperand tokens S) : IsOperand (token :: tokens) S

/-- What follows the first atom: an operand joined by a combinator, or a predicate. -/
inductive Tail
  | joined (combinator : Combinator) (S : Selector)
  | predicate (S : Selector)

/-- A tail joined onto the selector before it. -/
def Tail.onto (left : Selector) : Tail → Selector
  | .joined combinator S => .combine combinator left S
  | .predicate S => .both left S

/-- **A tail**: the first combinator of the run in front of an atom counts. -/
inductive IsTail : List Token → Tail → Prop
  | joined {token : Token} {combinator : Combinator} {tokens : List Token} {S : Selector}
      (hc : Joins token combinator) (h : IsOperand tokens S) :
      IsTail (token :: tokens) (.joined combinator S)
  | predicate {tokens : List Token} {S : Selector} (h : IsPredicate tokens S) :
      IsTail tokens (.predicate S)

/-- A row of tails. -/
inductive IsTails : List Token → List Tail → Prop
  | nil : IsTails [] []
  | cons {tokens more : List Token} {tail : Tail} {tails : List Tail} (h : IsTail tokens tail)
      (rest : IsTails more tails) : IsTails (tokens ++ more) (tail :: tails)

/-- **A row of tokens denotes a selector**: an operand, and tails folded onto it from the left. -/
def Derives (tokens : List Token) (S : Selector) : Prop :=
  ∃ front back first tails, tokens = front ++ back ∧ IsOperand front first ∧ IsTails back tails ∧
    S = tails.foldl Tail.onto first

theorem IsPseudo.ne_nil {tokens : List Token} {S : Selector} (h : IsPseudo tokens S) :
    tokens ≠ [] := by
  cases h <;> exact List.cons_ne_nil _ _

theorem IsTest.ne_nil {tokens : List Token} {S : Selector} (h : IsTest tokens S) : tokens ≠ [] := by
  cases h <;> exact List.cons_ne_nil _ _

theorem IsPredicate.ne_nil {tokens : List Token} {S : Selector} (h : IsPredicate tokens S) :
    tokens ≠ [] := by
  cases h <;> exact List.cons_ne_nil _ _

theorem joins_iff {op : String} {combinator : Combinator} :
    Joins (.operator op) combinator ↔ Combinator.ofOperator? op = some combinator := by
  constructor
  · intro h
    cases h with
    | descendant hne hblank =>
      rw [Combinator.ofOperator?, if_neg, if_neg, if_neg, if_pos ⟨hne, List.all_eq_true.2 hblank⟩]
      all_goals
        rintro rfl
        exact absurd (hblank _ (List.mem_singleton.2 rfl)) (by decide)
    | _ => rfl
  · intro h
    unfold Combinator.ofOperator? at h
    split at h
    · next hop =>
      obtain rfl := Option.some.inj h
      exact hop ▸ .child
    split at h
    · next hop =>
      obtain rfl := Option.some.inj h
      exact hop ▸ .sibling
    split at h
    · next hop =>
      obtain rfl := Option.some.inj h
      exact hop ▸ .adjacent
    · obtain ⟨⟨hne, hblank⟩, h⟩ := Option.ite_none_right_eq_some.1 h
      obtain rfl := Option.some.inj h
      exact .descendant hne (List.all_eq_true.1 hblank)

theorem Joins.exists_operator {token : Token} {combinator : Combinator}
    (h : Joins token combinator) :
    ∃ op, token = .operator op ∧ Combinator.ofOperator? op = some combinator := by
  have hop : ∃ op, token = .operator op := by cases h <;> exact ⟨_, rfl⟩
  obtain ⟨op, rfl⟩ := hop
  exact ⟨op, rfl, joins_iff.1 h⟩

/-! ## Terms -/

/-- **A term, joined onto the selector built so far**, as selectors are read. -/
inductive IsTerm : Option Selector → List Token → Selector → Prop
  | wildcard : IsTerm none [.wildcard] .wildcard
  | identifier (name : String) : IsTerm none [.identifier name] (.identifier name)
  | operand {built : Option Selector} {token : Token} {combinator : Combinator}
      {tokens : List Token} {S : Selector} (hc : Joins token combinator)
      (h : IsTerm none tokens S) :
      IsTerm built (token :: tokens) (Selector.combineOnto combinator built S)
  | predicate {built : Option Selector} {tokens : List Token} {S : Selector}
      (h : IsPredicate tokens S) : IsTerm built tokens (Selector.bothOnto built S)

variable {tokens : List Token} {left S : Selector}

theorem IsTerm.ne_nil {built : Option Selector} (h : IsTerm built tokens S) : tokens ≠ [] := by
  cases h with
  | predicate h => exact h.ne_nil
  | _ => exact List.cons_ne_nil _ _

/-- A first term is an operand. -/
theorem isTerm_none_iff : IsTerm none tokens S ↔ IsOperand tokens S := by
  constructor
  · intro h
    generalize hbuilt : none = built at h
    induction h with
    | wildcard => exact .atom .wildcard
    | identifier name => exact .atom (.identifier name)
    | operand hc _ ih =>
      subst hbuilt
      exact .skip hc (ih rfl)
    | predicate h =>
      subst hbuilt
      exact .atom (.predicate h)
  · intro h
    induction h with
    | atom h =>
      cases h with
      | wildcard => exact .wildcard
      | identifier name => exact .identifier name
      | predicate h => exact .predicate h
    | skip hc _ ih => exact .operand hc ih

/-- A later term is a tail. -/
theorem isTerm_some_iff :
    IsTerm (some left) tokens S ↔ ∃ tail, IsTail tokens tail ∧ tail.onto left = S := by
  constructor
  · intro h
    cases h with
    | operand hc h => exact ⟨_, .joined hc (isTerm_none_iff.1 h), rfl⟩
    | predicate h => exact ⟨_, .predicate h, rfl⟩
  · rintro ⟨tail, h, rfl⟩
    cases h with
    | joined hc h => exact .operand hc (isTerm_none_iff.2 h)
    | predicate h => exact .predicate h

/-- **A row of terms**, each joined onto what was built before it. -/
inductive IsTerms : Option Selector → List Token → Option Selector → Prop
  | nil (built : Option Selector) : IsTerms built [] built
  | cons {built result : Option Selector} {tokens more : List Token} {S : Selector}
      (h : IsTerm built tokens S) (rest : IsTerms (some S) more result) :
      IsTerms built (tokens ++ more) result

/-- Terms after a selector are tails, folded onto it. -/
theorem isTerms_some_iff {result : Option Selector} : IsTerms (some left) tokens result ↔
    ∃ tails, IsTails tokens tails ∧ result = some (tails.foldl Tail.onto left) := by
  constructor
  · intro h
    generalize hbuilt : some left = built at h
    induction h generalizing left with
    | nil =>
      subst hbuilt
      exact ⟨[], .nil, rfl⟩
    | cons h _ ih =>
      subst hbuilt
      obtain ⟨tail, htail, rfl⟩ := isTerm_some_iff.1 h
      obtain ⟨tails, htails, hresult⟩ := ih rfl
      exact ⟨tail :: tails, .cons htail htails, hresult⟩
  · rintro ⟨tails, h, rfl⟩
    induction h generalizing left with
    | nil => exact .nil _
    | cons h _ ih => exact .cons (isTerm_some_iff.2 ⟨_, h, rfl⟩) ih

/-- **Terms from the start are nothing or a selector.** -/
theorem isTerms_none_iff {result : Option Selector} : IsTerms none tokens result ↔
    tokens = [] ∧ result = none ∨ ∃ S, result = some S ∧ Derives tokens S := by
  constructor
  · intro h
    cases h with
    | nil => exact .inl ⟨rfl, rfl⟩
    | cons h rest =>
      obtain ⟨tails, htails, rfl⟩ := isTerms_some_iff.1 rest
      exact .inr ⟨_, rfl, _, _, _, tails, rfl, isTerm_none_iff.1 h, htails, rfl⟩
  · rintro (⟨rfl, rfl⟩ | ⟨S, rfl, front, back, first, tails, rfl, hfirst, htails, rfl⟩)
    · exact .nil none
    · exact .cons (isTerm_none_iff.2 hfirst) (isTerms_some_iff.2 ⟨tails, htails, rfl⟩)

/-! ## Building a selector from its front -/

theorem derives_of_isAtom (h : IsAtom tokens S) : Derives tokens S :=
  ⟨tokens, [], S, [], (List.append_nil _).symm, .atom h, .nil, rfl⟩

theorem IsTails.snoc {more : List Token} {tails : List Tail} {tail : Tail}
    (h : IsTails tokens tails) (hlast : IsTail more tail) :
    IsTails (tokens ++ more) (tails ++ [tail]) := by
  induction h with
  | nil => simpa using IsTails.cons hlast .nil
  | cons h _ ih =>
    rw [List.append_assoc]
    exact .cons h ih

/-- A further tail joins the selector before it. -/
theorem Derives.snoc {more : List Token} {tail : Tail} (h : Derives tokens S)
    (hlast : IsTail more tail) : Derives (tokens ++ more) (tail.onto S) := by
  obtain ⟨front, back, first, tails, rfl, hfirst, htails, rfl⟩ := h
  exact ⟨front, back ++ more, first, tails ++ [tail], List.append_assoc .., hfirst,
    htails.snoc hlast, by rw [List.foldl_append]; rfl⟩

end TreeQuery.Grammar
