import Mathlib.Data.List.Pairwise
import Mathlib.Data.List.Lattice
import TreeQuery.Proofs.Document.Distinct

/-!
# Proofs/Document/Holder — every value has one holder

No value is held twice (`nodup_flatMap_held`), so a reached value has one holder at most
(`Place.Holds.holder_unique`), and what lies above it lies above its holder or is that holder
(`above_iff_of_holds`).  What a holder holds lies above nothing else that it holds
(`not_above_of_beside`).
-/

open Relation

namespace TreeQuery

namespace Place

variable {p q r : Place}

theorem Above.sizeOf_lt (h : p.Above q) : sizeOf q.value < sizeOf p.value := by
  induction h with
  | single h => exact h.sizeOf_lt
  | tail _ h ih => exact Nat.lt_trans h.sizeOf_lt ih

theorem not_above_self (p : Place) : ¬ p.Above p :=
  fun h => Nat.lt_irrefl _ h.sizeOf_lt

/-- Nothing that is reached lies above the root. -/
theorem not_above_root {document : Json} (hp : Reached document p) : ¬ p.Above (root document) :=
  fun h => not_above_self p (h.trans_left hp)

end Place

section Holder

variable {document : Json} (hkeys : document.DistinctKeys) {p p' q r : Place}

include hkeys

/-- **A value has one holder.** -/
theorem Place.Holds.holder_unique (hp : Reached document p) (hp' : Reached document p')
    (h : p.Holds q) (h' : p'.Holds q) : p = p' := by
  have hnodup := nodup_flatMap_held hkeys
  rw [List.map_flatMap, List.nodup_flatMap] at hnodup
  have hsymm : Std.Symm (Function.onFun List.Disjoint fun p : Place => p.held.map Place.path) :=
    ⟨fun _ _ => List.Disjoint.symm⟩
  by_contra hne
  have hdisjoint := hnodup.2.forall (mem_reached_root_iff.2 hp) (mem_reached_root_iff.2 hp') hne
  exact hdisjoint (List.mem_map_of_mem (mem_held_iff.2 h)) (List.mem_map_of_mem (mem_held_iff.2 h'))

/-- **What lies above a value** is its holder and what lies above that. -/
theorem above_iff_of_holds (hp : Reached document p) (h : p.Holds q) (hr : Reached document r) :
    r.Above q ↔ ReflTransGen Place.Holds r p := by
  refine TransGen.tail'_iff.trans ?_
  constructor
  · rintro ⟨p', hrp', hp'q⟩
    obtain rfl := Place.Holds.holder_unique hkeys hp (hr.trans hrp') h hp'q
    exact hrp'
  · exact fun hrp => ⟨p, hrp, h⟩

/-- **What stands beside a value does not lie above it**, nor does anything below that. -/
theorem not_above_of_beside {a b : Place} (hp : Reached document p) (ha : p.Holds a)
    (hb : p.Holds b) (har : ReflTransGen Place.Holds a r) : ¬ r.Above b := by
  intro hrb
  have hr : Reached document r := (hp.tail ha).trans har
  have hrp : ReflTransGen Place.Holds r p := (above_iff_of_holds hkeys hp hb hr).1 hrb
  exact Place.not_above_self p (TransGen.head' ha (har.trans hrp))

end Holder

end TreeQuery
