import Mathlib.Data.List.Forall2
import TreeQuery.Proofs.Document.Reach

/-!
# Proofs/Document/Parallel — two walks in step

`Parallel R` says of a relation between places of two documents that no walk can tell related
places apart: they have the same path and the same kind, and their edges lead, pair by pair, to
related places again.

From related places two walks run in step: they reach related places (`Parallel.reached`), meet
related nodes with contexts that are related if the visitors hand down related ones
(`Parallel.contexts`), and come through related sequences (`Parallel.sequences`).
-/

open List (Forall₂)

namespace TreeQuery

variable {α β γ γ' : Type} {R : Place → Place → Prop}

/-- **Two edges lead to related places**: to nodes, or to sequences related item by item. -/
inductive Edge.Pairs (R : Place → Place → Prop) : Edge → Edge → Prop
  | node {p q : Place} (h : R p q) : Pairs R (.node p) (.node q)
  | sequence {array array' : Place} (h : Forall₂ R array.items array'.items) :
      Pairs R (.sequence array) (.sequence array')

/-- **Related places cannot be told apart by a walk.** -/
structure Parallel (R : Place → Place → Prop) : Prop where
  path_eq {p q : Place} (h : R p q) : q.path = p.path
  kind?_eq {p q : Place} (h : R p q) : q.kind? = p.kind?
  edges {p q : Place} (h : R p q) : Forall₂ (Edge.Pairs R) p.edges q.edges

/-- Lists put together from related pieces of related lists are related. -/
theorem forall₂_flatMap_of_mem {l l' : List Place} {f : Place → List α} {g : Place → List β}
    {P : α → β → Prop} (h : Forall₂ R l l')
    (hfg : ∀ a ∈ l, ∀ b, R a b → Forall₂ P (f a) (g b)) :
    Forall₂ P (l.flatMap f) (l'.flatMap g) :=
  List.rel_flatMap ((List.forall₂_and_left l l').2 ⟨fun _ ha => ha, h⟩) fun a b hab =>
    hfg a hab.1 b hab.2

namespace Parallel

variable (h : Parallel R) {p q : Place}

include h

theorem isNode_eq (hpq : R p q) : q.isNode = p.isNode :=
  congrArg Option.isSome (h.kind?_eq hpq)

/-! ## One place -/

/-- Related places hold related places. -/
theorem held (hpq : R p q) : Forall₂ R p.held q.held :=
  List.rel_flatMap (h.edges hpq) fun _ _ hedge =>
    match hedge with
    | .node hchild => .cons hchild .nil
    | .sequence hitems => hitems

/-- The sequences of related places are related item by item. -/
theorem place_sequences (hpq : R p q) : Forall₂ (Forall₂ R) p.sequences q.sequences :=
  List.rel_filterMap (fun _ _ hedge =>
    match hedge with
    | .node _ => .none
    | .sequence hitems => .some hitems) (h.edges hpq)

/-! ## Whole walks -/

/-- **Two walks in step reach related places.** -/
theorem reached (hpq : R p q) : Forall₂ R (reached p) (TreeQuery.reached q) := by
  induction p using Place.induction generalizing q with
  | step p ih =>
    rw [reached_eq, reached_eq]
    exact .cons hpq (forall₂_flatMap_of_mem (h.held hpq) fun a ha b hab => ih a ha hab)

theorem nodes (hpq : R p q) : Forall₂ R (nodes p) (TreeQuery.nodes q) := by
  rw [nodes_eq, nodes_eq]
  have hnode : ∀ ⦃a b : Place⦄, R a b → (a.isNode = true ↔ b.isNode = true) := fun a b hab => by
    rw [h.isNode_eq hab]
  exact List.rel_filter hnode (h.reached hpq)

/-- **Two walks in step come through related sequences.** -/
theorem sequences (hpq : R p q) : Forall₂ (Forall₂ R) (sequences p) (TreeQuery.sequences q) :=
  List.rel_flatMap (h.reached hpq) fun _ _ hab => h.place_sequences hab

/-- **Two walks in step hand down related contexts**, if at related places the visitors do. -/
theorem contexts {next : Place → γ → Option γ} {next' : Place → γ' → Option γ'}
    {C : γ → γ' → Prop}
    (hnext : ∀ p q c c', R p q → C c c' → C (handedDown next p c) (handedDown next' q c'))
    {c : γ} {c' : γ'} (hpq : R p q) (hc : C c c') :
    Forall₂ (fun entry entry' => R entry.1 entry'.1 ∧ C entry.2 entry'.2)
      (contexts next c p) (TreeQuery.contexts next' c' q) := by
  induction p using Place.induction generalizing q c c' with
  | step p ih =>
    rw [contexts_eq, contexts_eq, h.isNode_eq hpq]
    refine List.rel_append ?_ (forall₂_flatMap_of_mem (h.held hpq) fun a ha b hab =>
      ih a ha hab (hnext p q c c' hpq hc))
    split
    · exact .cons ⟨hpq, hc⟩ .nil
    · exact .nil

end Parallel

end TreeQuery
