import TreeQuery.Proofs.Selector.Conjunction
import TreeQuery.Proofs.Selector.Multiplicity

/-!
# Proofs/Selector/ConjunctionLaws — the algebra of conjunction

A conjunction filters what its left operand lists, so filters may be grouped and exchanged, and one
that lets everything pass may be left out.  To leave out `*` on the right, every match has to be a
node that the walk meets (`Selector.reachedNodes_find`); with `*` on the left, it is the nodes in
pre-order that are filtered, which lists the matches of the other operand sorted and once each.

`ConjunctionLaws` collects what holds of a document for all selectors.
-/

open scoped List

namespace TreeQuery

/-- A listed place is among those listed. -/
theorem Place.among_of_mem {p : Place} {places : List Place} (h : p ∈ places) :
    p.among places = true :=
  List.any_eq_true.2 ⟨p, h, beq_self_eq_true p.path⟩

namespace Selector

/-! ## Filters -/

theorem find_both_assoc (root : Place) (A B C : Selector) :
    ((A.both B).both C).find root = (A.both (B.both C)).find root := by
  simp only [find_both, List.filter_filter]
  exact List.filter_congr fun p _ => by rw [Place.among_filter_among, Bool.and_comm]

theorem find_both_right_comm (root : Place) (A B C : Selector) :
    ((A.both B).both C).find root = ((A.both C).both B).find root := by
  simp only [find_both, List.filter_filter, Bool.and_comm]

/-- A filter that lets all matches pass may be left out. -/
theorem find_both_eq_left {root : Place} {A B : Selector}
    (h : ∀ p ∈ A.find root, p.among (B.find root) = true) :
    (A.both B).find root = A.find root :=
  List.filter_eq_self.2 h

theorem find_both_self (root : Place) (A : Selector) : (A.both A).find root = A.find root :=
  find_both_eq_left fun _ => Place.among_of_mem

/-- What a selector conjoined to `*` lists is in pre-order. -/
theorem pairwise_find_wildcard_both (document : Json) (A : Selector) :
    ((wildcard.both A).find (Place.root document)).Pairwise (Precedes document) :=
  (pairwise_nodes document).filter _

/-! ## Members -/

section Keys

variable {document : Json} (hkeys : document.DistinctKeys) {A B : Selector} {p : Place}

include hkeys

/-- A conjunction matches what both operands match. -/
theorem mem_find_both_iff : p ∈ (A.both B).find (Place.root document) ↔
    p ∈ A.find (Place.root document) ∧ p ∈ B.find (Place.root document) := by
  rw [find_both, List.mem_filter]
  refine and_congr_right fun hp => ?_
  exact Place.among_iff hkeys (B.reachedNodes_find hkeys) (A.reachedNodes_find hkeys p hp).1

/-- The walk meets every match of a selector. -/
theorem mem_find_wildcard_of_mem (h : p ∈ A.find (Place.root document)) :
    p ∈ wildcard.find (Place.root document) :=
  mem_nodes_iff.2 (A.reachedNodes_find hkeys p h)

theorem mem_find_wildcard_both_iff : p ∈ (wildcard.both A).find (Place.root document) ↔
    p ∈ A.find (Place.root document) := by
  rw [mem_find_both_iff hkeys]
  exact and_iff_right_of_imp (mem_find_wildcard_of_mem hkeys)

/-! ## Conjunction with `*` -/

theorem find_both_wildcard (A : Selector) :
    (A.both wildcard).find (Place.root document) = A.find (Place.root document) :=
  find_both_eq_left fun _ hp => Place.among_of_mem (mem_find_wildcard_of_mem hkeys hp)

/-- **`*` on the left sorts the matches into pre-order**: no other listing of them is in that
order. -/
theorem eq_find_wildcard_both_iff (A : Selector) (l : List Place) :
    l = (wildcard.both A).find (Place.root document) ↔
      l.Pairwise (Precedes document) ∧ ∀ p, p ∈ l ↔ p ∈ A.find (Place.root document) := by
  have hmem (p : Place) := mem_find_wildcard_both_iff hkeys (A := A) (p := p)
  constructor
  · rintro rfl
    exact ⟨pairwise_find_wildcard_both document A, hmem⟩
  · rintro ⟨hl, hl'⟩
    have hreached := (wildcard.both A).reachedNodes_find hkeys
    exact eq_of_pairwise_precedes hkeys (fun p hp => (hreached p hp).1) hl
      (pairwise_find_wildcard_both document A) fun p => (hl' p).trans (hmem p).symm

/-- **`*` on the left lists every match once.** -/
theorem locations_wildcard_both_perm (A : Selector) :
    (wildcard.both A).locations document ~ (A.locations document).dedup := by
  have hnodup : ((wildcard.both A).locations document).Nodup :=
    (nodup_nodes hkeys).sublist (List.filter_sublist.map _)
  refine (List.perm_ext_iff_of_nodup hnodup (List.nodup_dedup _)).2 fun path => ?_
  simp only [List.mem_dedup, locations, List.mem_map, mem_find_wildcard_both_iff hkeys]

end Keys

end Selector

/-! ## The laws -/

/-- **The laws of conjunction** in a document.  Equations are between listings: the same places in
the same order and with the same repeats. -/
structure ConjunctionLaws (document : Json) : Prop where
  assoc : ∀ A B C : Selector, ((A.both B).both C).find (Place.root document) =
    (A.both (B.both C)).find (Place.root document)
  right_comm : ∀ A B C : Selector, ((A.both B).both C).find (Place.root document) =
    ((A.both C).both B).find (Place.root document)
  self : ∀ A : Selector, (A.both A).find (Place.root document) = A.find (Place.root document)
  both_wildcard : ∀ A : Selector,
    (A.both .wildcard).find (Place.root document) = A.find (Place.root document)
  /-- With `*` on the left: the matches of `A`, each once and in pre-order. -/
  wildcard_both_perm : ∀ A : Selector,
    (Selector.wildcard.both A).locations document ~ (A.locations document).dedup
  eq_wildcard_both_iff : ∀ (A : Selector) (l : List Place),
    l = (Selector.wildcard.both A).find (Place.root document) ↔
      l.Pairwise (Precedes document) ∧ ∀ p, p ∈ l ↔ p ∈ A.find (Place.root document)
  /-- Exchanging the operands changes the listing, but not what is listed. -/
  mem_comm : ∀ (A B : Selector) (p : Place),
    p ∈ (A.both B).find (Place.root document) ↔ p ∈ (B.both A).find (Place.root document)

theorem conjunctionLaws (document : Json) (hkeys : document.DistinctKeys) :
    ConjunctionLaws document where
  assoc := Selector.find_both_assoc _
  right_comm := Selector.find_both_right_comm _
  self := Selector.find_both_self _
  both_wildcard := Selector.find_both_wildcard hkeys
  wildcard_both_perm := Selector.locations_wildcard_both_perm hkeys
  eq_wildcard_both_iff := Selector.eq_find_wildcard_both_iff hkeys
  mem_comm := fun A B p => by
    rw [Selector.mem_find_both_iff hkeys, Selector.mem_find_both_iff hkeys, and_comm]

/-- A row of two `A`s and a `B`; the first `A` has an `A` and a `B` in a row of its own. -/
def nestedRows : Json :=
  .object [("type", .string "P"), ("body", .array [
    .object [("type", .string "A"), ("inner", .array [.object [("type", .string "A")],
      .object [("type", .string "B")]])],
    .object [("type", .string "A")],
    .object [("type", .string "B")]])]

/-- `A ~ B` lists the `B` of the outer row twice and before that of the inner one; with `*` on the
left each is listed once and the inner one comes first, as in the document. -/
theorem conjunctionLaws_nestedRows :
    nestedRows.DistinctKeys ∧ ConjunctionLaws nestedRows ∧
    (Selector.combine .sibling (.identifier "A") (.identifier "B")).locations nestedRows =
      [[.key "body", .index 2], [.key "body", .index 2],
        [.key "body", .index 0, .key "inner", .index 1]] ∧
    (Selector.wildcard.both (.combine .sibling (.identifier "A") (.identifier "B"))).locations
        nestedRows =
      [[.key "body", .index 0, .key "inner", .index 1], [.key "body", .index 2]] := by
  have hkeys : nestedRows.DistinctKeys := by
    simp [nestedRows, Json.DistinctKeys, Json.DistinctKeysEntries, Json.DistinctKeysItems]
  exact ⟨hkeys, conjunctionLaws nestedRows hkeys, by decide +kernel, by decide +kernel⟩

end TreeQuery
