import TreeQuery.Proofs.Selector.Multiplicity

/-!
# Proofs/Selector/Refinement — narrower combinators refine wider ones

What is held directly lies below, so the child combinator matches no more than the descendant one;
both list along one walk, where matching no more is listing part of the same
(`Selector.FoundInWalk.sublist_of_subset`).  The next of a sequence is the nearest later one, so
the adjacent combinator lists part of what the sibling one lists, sequence by sequence and whatever
the operands match (`Combinator.relate_adjacent_sublist`).
-/

open Relation
open scoped List

namespace TreeQuery

namespace Combinator

/-- **In one sequence, an adjacent step is a sibling step.** -/
theorem adjacentIn_sublist_siblingsIn (left right : List Place) : ∀ s : List Place,
    adjacentIn left right s <+ siblingsIn left right s
  | [] => .slnil
  | [_] => List.nil_sublist _
  | item :: next :: later => by
    rw [adjacentIn, siblingsIn]
    refine .append ?_ (adjacentIn_sublist_siblingsIn left right (next :: later))
    by_cases hitem : item.among left <;> by_cases hnext : next.among right <;>
      simp [hitem, hnext]

/-- The adjacent combinator lists, in order and with repeats, part of what the sibling one lists. -/
theorem relate_adjacent_sublist (root : Place) (left right : List Place) :
    adjacent.relate root left right <+ sibling.relate root left right :=
  .flatMap_right _ fun s _ => adjacentIn_sublist_siblingsIn left right s

end Combinator

namespace Selector

section Keys

variable {document : Json} (hkeys : document.DistinctKeys) {S S' : Selector} {p : Place}

include hkeys

theorem mem_find_combine_iff (combinator : Combinator) :
    p ∈ (combine combinator S S').find (Place.root document) ↔
      combinator.Relates document (· ∈ S.find (Place.root document))
        (· ∈ S'.find (Place.root document)) p :=
  combinator.mem_relate_iff hkeys (S.reachedNodes_find hkeys) (S'.reachedNodes_find hkeys)

/-- **Along one walk, matching no more is listing part of the same.** -/
theorem FoundInWalk.sublist_of_subset (hS : S.FoundInWalk) (hS' : S'.FoundInWalk)
    (h : S.find (Place.root document) ⊆ S'.find (Place.root document)) :
    S.find (Place.root document) <+ S'.find (Place.root document) :=
  sublist_of_pairwise_precedes hkeys (fun p hp => (S'.reachedNodes_find hkeys p hp).1)
    ((pairwise_nodes document).sublist (hS.sublist _))
    ((pairwise_nodes document).sublist (hS'.sublist _)) h

theorem find_child_subset (left right : Selector) :
    (combine .child left right).find (Place.root document) ⊆
      (combine .descendant left right).find (Place.root document) := by
  intro p hp
  obtain ⟨hright, q, hq, hholds⟩ := (mem_find_combine_iff hkeys .child).1 hp
  exact (mem_find_combine_iff hkeys .descendant).2 ⟨hright, q, hq, .single hholds⟩

/-- A place in between may be left out. -/
theorem find_descendant_descendant_subset (left middle right : Selector) :
    (combine .descendant (combine .descendant left middle) right).find (Place.root document) ⊆
      (combine .descendant left right).find (Place.root document) := by
  intro p hp
  obtain ⟨hright, q, hq, hqp⟩ := (mem_find_combine_iff hkeys .descendant).1 hp
  obtain ⟨_, r, hr, hrq⟩ := (mem_find_combine_iff hkeys .descendant).1 hq
  exact (mem_find_combine_iff hkeys .descendant).2 ⟨hright, r, hr, hrq.trans hqp⟩

end Keys

/-- **A narrower combinator lists part of what a wider one lists**, in the same order: child of
descendant, adjacent of sibling with its repeats, and a descendant in two steps of one in a single
step. -/
theorem find_sublist_of_narrower (document : Json) (hkeys : document.DistinctKeys)
    (left middle right : Selector) :
    (combine .child left right).find (Place.root document) <+
      (combine .descendant left right).find (Place.root document) ∧
    (combine .adjacent left right).find (Place.root document) <+
      (combine .sibling left right).find (Place.root document) ∧
    (combine .descendant (combine .descendant left middle) right).find (Place.root document) <+
      (combine .descendant left right).find (Place.root document) := by
  refine ⟨?child, ?adjacent, ?descendant⟩
  case child =>
    exact (FoundInWalk.child left right).sublist_of_subset hkeys (.descendant left right)
      (find_child_subset hkeys left right)
  case adjacent => exact Combinator.relate_adjacent_sublist _ _ _
  case descendant =>
    exact (FoundInWalk.descendant _ right).sublist_of_subset hkeys (.descendant left right)
      (find_descendant_descendant_subset hkeys left middle right)

/-- A `P` with two `A`s and a `B` in a row; the first `A` holds another one, which has a `B` deep
inside. -/
def terracedDocument : Json :=
  .object [("type", .string "P"), ("body", .array [
    .object [("type", .string "A"), ("inner", .object [("type", .string "A"),
      ("deep", .array [.array [.object [("type", .string "B")]]])])],
    .object [("type", .string "A")],
    .object [("type", .string "B")]])]

/-- Of the two `B`s only the one in the row is held by a node, and only the other lies below an
`A`; the one in the row comes after both `A`s, but right after one of them only. -/
theorem find_terracedDocument :
    terracedDocument.DistinctKeys ∧
    ((combine .child wildcard (identifier "B")).find (Place.root terracedDocument) <+
        (combine .descendant wildcard (identifier "B")).find (Place.root terracedDocument) ∧
      (combine .adjacent wildcard (identifier "B")).find (Place.root terracedDocument) <+
        (combine .sibling wildcard (identifier "B")).find (Place.root terracedDocument) ∧
      (combine .descendant (combine .descendant wildcard (identifier "A"))
          (identifier "B")).find (Place.root terracedDocument) <+
        (combine .descendant wildcard (identifier "B")).find (Place.root terracedDocument)) ∧
    (combine .child wildcard (identifier "B")).locations terracedDocument =
      [[.key "body", .index 2]] ∧
    (combine .descendant (combine .descendant wildcard (identifier "A"))
        (identifier "B")).locations terracedDocument =
      [[.key "body", .index 0, .key "inner", .key "deep", .index 0, .index 0]] ∧
    (combine .adjacent wildcard (identifier "B")).locations terracedDocument =
      [[.key "body", .index 2]] ∧
    (combine .sibling wildcard (identifier "B")).locations terracedDocument =
      [[.key "body", .index 2], [.key "body", .index 2]] := by
  have hkeys : terracedDocument.DistinctKeys := by
    simp [terracedDocument, Json.DistinctKeys, Json.DistinctKeysEntries, Json.DistinctKeysItems]
  exact ⟨hkeys,
    find_sublist_of_narrower terracedDocument hkeys wildcard (identifier "A") (identifier "B"),
    by decide +kernel, by decide +kernel, by decide +kernel, by decide +kernel⟩

end Selector

end TreeQuery
