import Mathlib.Data.List.Pairwise
import Mathlib.Data.List.Sort
import TreeQuery.Proofs.Document.Distinct

/-!
# Proofs/Document/Order — the walk lists values in document pre-order

`Precedes` is the order of the document, without a walk: a value comes before what lies below it,
and of two things held by one value all that lies below the first comes before all that lies below
the second.  The walk lists in that order (`pairwise_reached`) and the order is that of its listing
(`precedes_iff_sublist`), hence strict on what the search reaches (`Precedes.asymm`).  A listing in
pre-order is therefore told by its members alone (`sublist_of_pairwise_precedes`,
`eq_of_pairwise_precedes`).
-/

open Relation
open scoped List

namespace TreeQuery

/-- **Document pre-order.** -/
inductive Precedes (document : Json) : Place → Place → Prop
  | above {p q : Place} (h : p.Above q) : Precedes document p q
  | beside {holder a b p q : Place} (hholder : Reached document holder)
      (hab : [a, b] <+ holder.held) (hp : ReflTransGen Place.Holds a p)
      (hq : ReflTransGen Place.Holds b q) : Precedes document p q

variable {document : Json} {p q : Place}

/-! ## The listing of the walk -/

/-- **The walk lists in pre-order.** -/
theorem pairwise_reached (p : Place) (hp : Reached document p) :
    (reached p).Pairwise (Precedes document) := by
  induction p using Place.induction with
  | step p ih =>
    rw [reached_eq, List.pairwise_cons, List.pairwise_flatMap]
    refine ⟨fun q hq => ?_, fun q hq => ih q hq (hp.tail (Place.mem_held_iff.1 hq)), ?_⟩
    · obtain ⟨r, hr, hq⟩ := List.mem_flatMap.1 hq
      exact .above (TransGen.head' (Place.mem_held_iff.1 hr) (mem_reached_iff.1 hq))
    · refine List.pairwise_iff_forall_sublist.2 fun hab q hq r hr => ?_
      exact .beside hp hab (mem_reached_iff.1 hq) (mem_reached_iff.1 hr)

/-- The nodes are listed in pre-order too. -/
theorem pairwise_nodes (document : Json) :
    (nodes (Place.root document)).Pairwise (Precedes document) := by
  rw [nodes_eq]
  exact (pairwise_reached _ (.root document)).filter _

/-- The listing from a value is part of the listing from whatever it lies below. -/
theorem reached_sublist_of_below (h : ReflTransGen Place.Holds p q) : reached q <+ reached p := by
  induction h with
  | refl => exact .refl _
  | @tail q r _ hqr ih =>
    refine .trans ?_ ih
    rw [reached_eq q]
    exact (List.sublist_flatten_of_mem (List.mem_map_of_mem (Place.mem_held_iff.2 hqr))).cons q

/-- What lies below a value comes after it in the listing. -/
theorem sublist_reached_of_above (h : p.Above q) : [p, q] <+ reached p := by
  obtain ⟨r, hpr, hrq⟩ := TransGen.head'_iff.1 h
  rw [reached_eq]
  refine (List.singleton_sublist.2 (List.mem_flatMap.2 ⟨r, ?_, ?_⟩)).cons_cons p
  · exact Place.mem_held_iff.2 hpr
  · exact mem_reached_iff.2 hrq

/-- Of two things held by one value, what lies below the first is listed first. -/
theorem sublist_reached_of_beside {holder a b : Place} (hab : [a, b] <+ holder.held)
    (hp : ReflTransGen Place.Holds a p) (hq : ReflTransGen Place.Holds b q) :
    [p, q] <+ reached holder := by
  have hsingle : ∀ {a p}, ReflTransGen Place.Holds a p → [p] <+ reached a := fun h =>
    List.singleton_sublist.2 (mem_reached_iff.2 h)
  rw [reached_eq]
  refine .cons _ (.trans ?_ (hab.flatMap reached))
  simpa using (hsingle hp).append (hsingle hq)

/-- **Among what the search reaches, pre-order is the order of the listing.** -/
theorem precedes_iff_sublist (hp : Reached document p) :
    Precedes document p q ↔ [p, q] <+ reached (Place.root document) := by
  constructor
  · rintro (h | ⟨hholder, hab, hp, hq⟩)
    · exact (sublist_reached_of_above h).trans (reached_sublist_of_below hp)
    · exact (sublist_reached_of_beside hab hp hq).trans (reached_sublist_of_below hholder)
  · exact List.pairwise_iff_forall_sublist.1 (pairwise_reached _ (.root document))

/-! ## A strict order -/

/-- In a list without repeats, of two items only one comes first. -/
theorem not_sublist_swap_of_nodup {α : Type} {a b : α} : ∀ {l : List α}, l.Nodup → [a, b] <+ l →
    ¬ [b, a] <+ l
  | _ :: _, hnodup, hab, hba => by
    rw [List.nodup_cons] at hnodup
    rcases List.sublist_cons_iff.1 hab with hab' | ⟨t, ht, hab'⟩
    · rcases List.sublist_cons_iff.1 hba with hba' | ⟨t, ht, hba'⟩
      · exact not_sublist_swap_of_nodup hnodup.2 hab' hba'
      · obtain ⟨rfl, rfl⟩ := List.cons.inj ht
        exact hnodup.1 (hab'.subset (by simp))
    · obtain ⟨rfl, rfl⟩ := List.cons.inj ht
      rcases List.sublist_cons_iff.1 hba with hba' | ⟨t, ht, hba'⟩
      · exact hnodup.1 (hba'.subset (by simp))
      · obtain ⟨rfl, rfl⟩ := List.cons.inj ht
        exact hnodup.1 (hba'.subset (by simp))

theorem Precedes.asymm (hkeys : document.DistinctKeys) (hp : Reached document p)
    (hq : Reached document q) (h : Precedes document p q) : ¬ Precedes document q p := by
  rw [precedes_iff_sublist hq]
  exact not_sublist_swap_of_nodup (nodup_reached hkeys).of_map ((precedes_iff_sublist hp).1 h)

/-! ## Listings in pre-order -/

/-- Pre-order between two places that the search reaches. -/
def ReachedBefore (document : Json) (p q : Place) : Prop :=
  Reached document p ∧ Reached document q ∧ Precedes document p q

section Listing

variable {l l' : List Place} (hkeys : document.DistinctKeys)

include hkeys

theorem ReachedBefore.irrefl : Std.Irrefl (ReachedBefore document) :=
  ⟨fun _ ⟨hp, _, hpp⟩ => hpp.asymm hkeys hp hp hpp⟩

theorem ReachedBefore.antisymm : Std.Antisymm (ReachedBefore document) :=
  ⟨fun _ _ ⟨hp, hq, hpq⟩ ⟨_, _, hqp⟩ => absurd hqp (hpq.asymm hkeys hp hq)⟩

/-- **A listing in pre-order is part of any other that lists as much.** -/
theorem sublist_of_pairwise_precedes (hl' : ∀ p ∈ l', Reached document p)
    (h : l.Pairwise (Precedes document)) (h' : l'.Pairwise (Precedes document)) (hsub : l ⊆ l') :
    l <+ l' := by
  have hirrefl := ReachedBefore.irrefl hkeys
  have hantisymm := ReachedBefore.antisymm hkeys
  have hbefore : l.Pairwise (ReachedBefore document) :=
    h.imp_of_mem fun hp hq hpq => ⟨hl' _ (hsub hp), hl' _ (hsub hq), hpq⟩
  have hbefore' : l'.Pairwise (ReachedBefore document) :=
    h'.imp_of_mem fun hp hq hpq => ⟨hl' _ hp, hl' _ hq, hpq⟩
  exact List.sublist_of_subperm_of_pairwise (List.subperm_of_subset hbefore.nodup hsub) hbefore
    hbefore'

/-- **Two listings in pre-order of the same places are one.** -/
theorem eq_of_pairwise_precedes (hl' : ∀ p ∈ l', Reached document p)
    (h : l.Pairwise (Precedes document)) (h' : l'.Pairwise (Precedes document))
    (hmem : ∀ p, p ∈ l ↔ p ∈ l') : l = l' := by
  have hl : ∀ p ∈ l, Reached document p := fun p hp => hl' p ((hmem p).1 hp)
  exact (sublist_of_pairwise_precedes hkeys hl' h h' fun p => (hmem p).1).antisymm
    (sublist_of_pairwise_precedes hkeys hl h' h fun p => (hmem p).2)

end Listing

end TreeQuery
