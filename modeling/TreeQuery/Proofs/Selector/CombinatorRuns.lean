import TreeQuery.Proofs.Selector.Shape

/-!
# Proofs/Selector/CombinatorRuns — of a run of combinators the first one counts

A right operand is read as a first term, and combinators in front of a first term are passed over.
So a selector has one combinator for each run of combinators in its tokens, the one at the head of
the run, and none for a run at the very front: `Grammar.Derives.combinators_eq`.

Hence no combinator is lost exactly if no two of them stand next to each other.
-/

namespace TreeQuery

open Grammar

/-! ## Combinators of selectors and of rows of tokens -/

/-- The combinators of a selector, from left to right. -/
def Selector.combinators : Selector → List Combinator
  | .combine combinator left right => left.combinators ++ combinator :: right.combinators
  | .both left right => left.combinators ++ right.combinators
  | _ => []

/-- The combinator that a token stands for. -/
def Token.combinator? : Token → Option Combinator
  | .operator op => Combinator.ofOperator? op
  | _ => none

/-- **The combinators at the heads of runs**: those that do not stand right after another one.
Whether the row as a whole stands right after one is told by the flag. -/
def runHeads (afterCombinator : Bool) : List Token → List Combinator
  | [] => []
  | token :: tokens =>
    match token.combinator? with
    | none => runHeads false tokens
    | some combinator =>
      if afterCombinator then runHeads true tokens else combinator :: runHeads true tokens

variable {token : Token} {tokens more : List Token} {combinator : Combinator} {S left : Selector}

theorem Selector.IsTerm.combinators_eq (h : S.IsTerm) : S.combinators = [] := by
  cases S with
  | combine | both => exact h.elim
  | _ => rfl

theorem runHeads_cons_of_eq_none {afterCombinator : Bool} (h : token.combinator? = none) :
    runHeads afterCombinator (token :: tokens) = runHeads false tokens := by
  simp only [runHeads, h]

theorem runHeads_cons_of_eq_some (tokens : List Token) (h : token.combinator? = some combinator) :
    runHeads true (token :: tokens) = runHeads true tokens ∧
      runHeads false (token :: tokens) = combinator :: runHeads true tokens := by
  simp [runHeads, h]

/-- Tokens without a combinator have no run, and end one. -/
theorem runHeads_append {afterCombinator : Bool} (hne : tokens ≠ [])
    (h : ∀ token ∈ tokens, token.combinator? = none) :
    runHeads afterCombinator (tokens ++ more) = runHeads false more := by
  induction tokens generalizing afterCombinator with
  | nil => exact absurd rfl hne
  | cons token tokens ih =>
    obtain ⟨htoken, htokens⟩ := List.forall_mem_cons.1 h
    rw [List.cons_append, runHeads_cons_of_eq_none htoken]
    cases tokens with
    | nil => rfl
    | cons next tokens => exact ih (List.cons_ne_nil _ _) htokens

/-- A row that begins with no combinator has the same runs wherever it stands. -/
theorem runHeads_eq_of_head (h : ∀ token ∈ tokens.head?, token.combinator? = none) :
    runHeads true tokens = runHeads false tokens := by
  cases tokens with
  | nil => rfl
  | cons token tokens =>
    rw [runHeads_cons_of_eq_none (h token rfl), runHeads_cons_of_eq_none (h token rfl)]

/-! ## One combinator for each run -/

namespace Grammar

theorem Joins.combinator?_eq (h : Joins token combinator) :
    token.combinator? = some combinator := by
  obtain ⟨op, rfl, hop⟩ := h.exists_operator
  exact hop

theorem IsLiteral.combinator?_eq {literal : Literal} (h : IsLiteral token literal) :
    token.combinator? = none := by
  cases h <;> rfl

/-- No combinator stands in a predicate. -/
theorem IsPredicate.combinator?_eq (h : IsPredicate tokens S) :
    ∀ token ∈ tokens, token.combinator? = none := by
  have hpunctuation : ∀ op ∈ [":", "(", ")", "[", "=", "]"],
      (Token.operator op).combinator? = none := by decide
  have hkeyword : ∀ word, (Token.keyword word).combinator? = none := fun _ => rfl
  have hname : ∀ name, (Token.identifier name).combinator? = none := fun _ => rfl
  cases h with
  | pseudo h =>
    cases h with
    | firstChild | lastChild => simp [hpunctuation, hkeyword]
    | nthChild h => simp [hpunctuation, hkeyword, h.combinator?_eq]
  | test h =>
    cases h with
    | present => simp [hpunctuation, hname]
    | equal _ h => simp [hpunctuation, hname, h.combinator?_eq]

theorem IsPredicate.runHeads_append {afterCombinator : Bool} (h : IsPredicate tokens S) :
    runHeads afterCombinator (tokens ++ more) = runHeads false more :=
  TreeQuery.runHeads_append h.ne_nil h.combinator?_eq

/-- **The combinators in front of an atom belong to the run before it.** -/
theorem IsOperand.runHeads_append (h : IsOperand tokens S) :
    runHeads true (tokens ++ more) = runHeads false more := by
  induction h with
  | atom h =>
    cases h with
    | wildcard | identifier name => rfl
    | predicate h => exact h.runHeads_append
  | skip hc _ ih => exact (runHeads_cons_of_eq_some _ hc.combinator?_eq).1.trans ih

/-- The combinator of a tail, if it has one. -/
def Tail.combinators : Tail → List Combinator
  | .joined combinator _ => [combinator]
  | .predicate _ => []

theorem IsTail.runHeads_append {tail : Tail} (h : IsTail tokens tail) :
    runHeads false (tokens ++ more) = tail.combinators ++ runHeads false more := by
  cases h with
  | joined hc h =>
    rw [List.cons_append, (runHeads_cons_of_eq_some _ hc.combinator?_eq).2, h.runHeads_append]
    rfl
  | predicate h => exact h.runHeads_append

theorem IsTail.combinators_onto {tail : Tail} (h : IsTail tokens tail) :
    (tail.onto left).combinators = left.combinators ++ tail.combinators := by
  cases h with
  | joined _ h => simp [Tail.onto, Selector.combinators, Tail.combinators, h.isTerm.combinators_eq]
  | predicate h =>
    simp [Tail.onto, Selector.combinators, Tail.combinators, h.isPredicate.isTerm.combinators_eq]

theorem IsTails.combinators_foldl {tails : List Tail} (h : IsTails tokens tails) :
    (tails.foldl Tail.onto left).combinators = left.combinators ++ runHeads false tokens := by
  induction h generalizing left with
  | nil => exact (List.append_nil _).symm
  | cons h _ ih =>
    rw [List.foldl_cons, ih, h.combinators_onto, h.runHeads_append, List.append_assoc]

/-- **A selector has one combinator for each run of combinators in its tokens**, the first one, but
none for a run at the front. -/
theorem Derives.combinators_eq (h : Derives tokens S) : S.combinators = runHeads true tokens := by
  obtain ⟨front, back, first, tails, rfl, hfirst, htails, rfl⟩ := h
  rw [htails.combinators_foldl, hfirst.isTerm.combinators_eq, hfirst.runHeads_append,
    List.nil_append]

end Grammar

/-! ## When none is lost -/

theorem length_runHeads_le (tokens : List Token) : ∀ afterCombinator,
    (runHeads afterCombinator tokens).length ≤ tokens.countP (·.combinator?.isSome) := by
  induction tokens with
  | nil => exact fun _ => Nat.le_refl _
  | cons token tokens ih =>
    intro afterCombinator
    cases h : token.combinator? with
    | none =>
      rw [runHeads_cons_of_eq_none h, List.countP_cons_of_neg (by simp [h])]
      exact ih false
    | some combinator =>
      have hle := ih true
      obtain ⟨htrue, hfalse⟩ := runHeads_cons_of_eq_some tokens h
      rw [List.countP_cons_of_pos (by simp [h])]
      cases afterCombinator with
      | true => exact htrue ▸ Nat.le_succ_of_le hle
      | false => exact hfalse ▸ Nat.succ_le_succ hle

/-- **Every combinator is the head of a run exactly if no two stand next to each other**, and none
stands at the front of a row that follows one. -/
theorem length_runHeads_eq_iff (tokens : List Token) : ∀ afterCombinator,
    (runHeads afterCombinator tokens).length = tokens.countP (·.combinator?.isSome) ↔
      (afterCombinator = true → ∀ token ∈ tokens.head?, token.combinator? = none) ∧
        tokens.IsChain fun token next => token.combinator? = none ∨ next.combinator? = none := by
  induction tokens with
  | nil => simp [runHeads]
  | cons token tokens ih =>
    intro afterCombinator
    cases h : token.combinator? with
    | none =>
      rw [runHeads_cons_of_eq_none h, List.countP_cons_of_neg (by simp [h]), ih false]
      simp [List.isChain_cons, h]
    | some combinator =>
      have hle := length_runHeads_le tokens true
      obtain ⟨htrue, hfalse⟩ := runHeads_cons_of_eq_some tokens h
      rw [List.countP_cons_of_pos (by simp [h])]
      cases afterCombinator with
      | true =>
        rw [htrue]
        simp only [List.head?_cons, Option.mem_def, Option.some.injEq, forall_eq', h, reduceCtorEq,
          forall_const, false_and, iff_false]
        omega
      | false =>
        rw [hfalse, List.length_cons, Nat.add_right_cancel_iff, ih true]
        simp [List.isChain_cons, h]

/-- **A selector keeps the first combinator of each run.**  If its tokens begin with none, it has
one combinator for each run of them, the first one; so it has as many as the tokens exactly if no
two of these stand next to each other. -/
theorem combinators_of_parseTokens {tokens : List Token} {S : Selector}
    (hfirst : ∀ token ∈ tokens.head?, token.combinator? = none)
    (h : parseTokens tokens = .ok (some S)) :
    S.combinators = runHeads false tokens ∧
    (S.combinators.length = tokens.countP (·.combinator?.isSome) ↔
      tokens.IsChain fun token next => token.combinator? = none ∨ next.combinator? = none) := by
  have hheads : S.combinators = runHeads false tokens := by
    rw [((parseTokens_iff tokens).2.1 S |>.1 h).combinators_eq, runHeads_eq_of_head hfirst]
  refine ⟨hheads, ?_⟩
  rw [hheads, length_runHeads_eq_iff]
  simp

/-- In `a > ~ b[x] c` the tilde is passed over, so that two of three combinators are kept. -/
theorem combinators_of_doubled_run :
    let tokens : List Token := [.identifier "a", .operator ">", .operator "~", .identifier "b",
      .operator "[", .identifier "x", .operator "]", .operator " ", .identifier "c"]
    let S : Selector := .combine .descendant (.both (.combine .child (.identifier "a")
      (.identifier "b")) (.attribute "x" .present)) (.identifier "c")
    (∀ token ∈ tokens.head?, token.combinator? = none) ∧ parseTokens tokens = .ok (some S) ∧
    S.combinators = runHeads false tokens ∧ S.combinators = [.child, .descendant] ∧
    tokens.countP (·.combinator?.isSome) = 3 := by
  intro tokens S
  have hfirst : ∀ token ∈ tokens.head?, token.combinator? = none := by
    simp [tokens, Token.combinator?]
  have hparse : parseTokens tokens = .ok (some S) := by decide +kernel
  exact ⟨hfirst, hparse, (combinators_of_parseTokens hfirst hparse).1, rfl, by decide⟩

/-- **A repeated combinator is dropped without an error**: `a > > b` has two of them, and its
selector one. -/
theorem combinators_of_repeated :
    let tokens : List Token := [.identifier "a", .operator ">", .operator ">", .identifier "b"]
    let S : Selector := .combine .child (.identifier "a") (.identifier "b")
    tokenize "a > > b" = tokens ∧ (∀ token ∈ tokens.head?, token.combinator? = none) ∧
    parseTokens tokens = .ok (some S) ∧
    S.combinators.length ≠ tokens.countP (·.combinator?.isSome) := by
  intro tokens S
  refine ⟨by decide +kernel, by simp [tokens, Token.combinator?], by decide +kernel, by decide⟩

end TreeQuery
