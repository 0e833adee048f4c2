import TreeQuery.Proofs.Json.Reorder
import TreeQuery.Proofs.Selector.Correspondence

/-!
# Proofs/Selector/Reorder — the order of entries decides only the order of matches

A document and one that differs from it in the order of entries only correspond place by place: the
same path leads to values that again differ in the order of entries only (`Place.within`,
`corresponds_of_rearranged`).  Hence every selector matches the same paths in both, and each path
equally often: one listing is a permutation of the other (`locations_perm_of_reordered`).
-/

open Relation
open scoped List

namespace TreeQuery

variable {document other : Json}

/-! ## The same place in another document -/

/-- **The place of another document at the same path.** -/
def Place.within (other : Json) (p : Place) : Place :=
  ⟨p.path, (other.at? p.path).getD p.value⟩

theorem Place.within_eq (hother : other.DistinctKeys) {path : Path} {value value' : Json}
    (h : Reached other ⟨path, value'⟩) : Place.within other ⟨path, value⟩ = ⟨path, value'⟩ := by
  rw [within, h.at?_eq hother]
  rfl

/-- What a value holds, every arrangement of it holds in some arrangement. -/
theorem Place.Holds.exists_rearranged {p q : Place} (h : p.Holds q) {value' : Json}
    (hp : p.value.Rearranged value') :
    ∃ found, q.value.Rearranged found ∧ Holds ⟨p.path, value'⟩ ⟨q.path, found⟩ := by
  cases h with
  | item hi =>
    cases hp.alike with
    | array _ item =>
      obtain ⟨found, hfound, h⟩ := item _ _ hi
      exact ⟨found, h, .item hfound⟩
  | node hentry hnode =>
    cases hp.alike with
    | object _ entry =>
      obtain ⟨found, hfound, h⟩ := entry _ _ hentry
      exact ⟨found, h, .node hfound (h.isNode_eq.trans hnode)⟩
  | propertyItem hentry hi =>
    cases hp.alike with
    | object _ entry =>
      obtain ⟨array, harray, h⟩ := entry _ _ hentry
      cases h.alike with
      | array _ item =>
        obtain ⟨found, hfound, h⟩ := item _ _ hi
        exact ⟨found, h, .propertyItem harray hfound⟩

/-- **Every reached value is reached at the same path in another arrangement of the document.** -/
theorem Reached.exists_rearranged (h : document.Rearranged other) {p : Place}
    (hp : Reached document p) :
    ∃ value', p.value.Rearranged value' ∧ Reached other ⟨p.path, value'⟩ := by
  induction hp with
  | refl => exact ⟨other, h, .root other⟩
  | tail _ hstep ih =>
    obtain ⟨value', hvalue, hreached⟩ := ih
    obtain ⟨found, hfound, hholds⟩ := hstep.exists_rearranged hvalue
    exact ⟨found, hfound, hreached.tail hholds⟩

section Within

variable (h : document.Rearranged other)

include h

/-- The same place in another arrangement: reached there, with a rearranged value. -/
theorem Reached.within {p : Place} (hp : Reached document p) :
    Reached other (p.within other) ∧ p.value.Rearranged (p.within other).value := by
  obtain ⟨value', hvalue, hreached⟩ := hp.exists_rearranged h
  rw [show p.within other = ⟨p.path, value'⟩ from Place.within_eq h.distinctKeys' hreached]
  exact ⟨hreached, hvalue⟩

theorem Place.Holds.within {p q : Place} (hp : Reached document p) (hpq : p.Holds q) :
    (p.within other).Holds (q.within other) := by
  obtain ⟨hreached, hvalue⟩ := hp.within h
  obtain ⟨found, _, hholds⟩ := hpq.exists_rearranged hvalue
  rwa [show q.within other = ⟨q.path, found⟩ from
    Place.within_eq h.distinctKeys' (hreached.tail hholds)]

/-- The items of an array, in another arrangement. -/
theorem map_within_items {path : Path} {items items' : List Json}
    (hlength : items'.length = items.length)
    (hreached : ∀ i value', items'[i]? = some value' →
      Reached other ⟨path ++ [.index i], value'⟩) :
    (⟨path, .array items⟩ : Place).items.map (Place.within other) =
      (⟨path, .array items'⟩ : Place).items :=
  Place.map_items hlength fun i _ value' _ hi' =>
    Place.within_eq h.distinctKeys' (hreached i value' hi')

/-- A walked sequence is walked, item by item, in another arrangement. -/
theorem Walked.within {s : List Place} (hs : Walked document s) :
    Walked other (s.map (Place.within other)) := by
  cases hs with
  | itself harray =>
    obtain ⟨value', hvalue, hreached⟩ := harray.exists_rearranged h
    cases hvalue.alike with
    | array length _ =>
      rw [map_within_items h length fun i value' hi => hreached.tail (.item hi)]
      exact .itself hreached
  | property hobject hentry =>
    obtain ⟨value', hvalue, hreached⟩ := hobject.exists_rearranged h
    cases hvalue.alike with
    | object _ entry =>
      obtain ⟨array, harray, hvalue⟩ := entry _ _ hentry
      cases hvalue.alike with
      | array length _ =>
        rw [map_within_items h length fun i value' hi => hreached.tail (.propertyItem harray hi)]
        exact .property hreached harray

theorem embeds_of_rearranged : Embeds document other (Place.within other) where
  reached hp := (hp.within h).1
  holds hp hpq := hpq.within h hp
  walked hs := hs.within h
  injective {p q} hp hq hpq := by
    have hpath : (p.within other).path = (q.within other).path := congrArg Place.path hpq
    exact hp.ext h.distinctKeys hq hpath
  kind?_eq hp := (hp.within h).2.kind?_eq
  passes_eq hp name test := (hp.within h).2.passes_eq name test

/-- **Two arrangements of one document correspond**, path by path. -/
theorem corresponds_of_rearranged :
    Corresponds document other (Place.within other) (Place.within document) where
  forth := embeds_of_rearranged h
  back := embeds_of_rearranged h.symm
  back_forth hp := Place.within_eq h.distinctKeys hp
  forth_back hp := Place.within_eq h.distinctKeys' hp

end Within

/-! ## Matches -/

/-- **The order of entries decides only the order of matches**: in a document and in one that
differs from it in the order of entries only, a selector matches the same paths, each equally
often. -/
theorem Selector.locations_perm_of_reordered (document other : Json)
    (hkeys : document.DistinctKeys) (h : document.Reordered other) (S : Selector) :
    S.locations other ~ S.locations document := by
  have h : document.Rearranged other := ⟨hkeys, h⟩
  have hmap := corresponds_of_rearranged h
  refine List.perm_iff_count.2 fun path => ?_
  by_cases hpath : path ∈ S.locations document
  · obtain ⟨p, hp, rfl⟩ := List.mem_map.1 hpath
    exact hmap.count_locations hkeys h.distinctKeys' hp
  · rw [List.count_eq_zero_of_not_mem hpath, List.count_eq_zero_of_not_mem fun hmem => hpath ?_]
    obtain ⟨p, hp, rfl⟩ := List.mem_map.1 hmem
    exact List.mem_map.2 ⟨_, hmap.symm.mem_find h.distinctKeys' hkeys hp, rfl⟩

/-- A `P` with an `A` and a `B` in a sequence on its left and a `C` on its right. -/
def leftFirst : Json :=
  .object [("type", .string "P"), ("left", .array [.object [("type", .string "A"),
    ("n", .number (.int 1))], .object [("type", .string "B")]]),
    ("right", .object [("type", .string "C")])]

/-- The same with the right before the left, and with the entries of the `A` in another order. -/
def rightFirst : Json :=
  .object [("right", .object [("type", .string "C")]), ("left", .array [.object
    [("n", .number (.int 1)), ("type", .string "A")], .object [("type", .string "B")]]),
    ("type", .string "P")]

/-- What stands below the `P` is the same either way, in another order. -/
theorem Selector.locations_rightFirst_perm :
    (Selector.combine .descendant (.identifier "P") .wildcard).locations rightFirst =
      [[.key "right"], [.key "left", .index 0], [.key "left", .index 1]] ∧
    (Selector.combine .descendant (.identifier "P") .wildcard).locations leftFirst =
      [[.key "left", .index 0], [.key "left", .index 1], [.key "right"]] ∧
    (Selector.combine .descendant (.identifier "P") .wildcard).locations rightFirst ~
      (Selector.combine .descendant (.identifier "P") .wildcard).locations leftFirst := by
  have hkeys : leftFirst.DistinctKeys := by
    simp [leftFirst, Json.DistinctKeys, Json.DistinctKeysEntries, Json.DistinctKeysItems]
  have hinner : (Json.object [("type", .string "A"), ("n", .number (.int 1))]).Reorders
      (.object [("n", .number (.int 1)), ("type", .string "A")]) := .here (.swap ..)
  have houter : leftFirst.Reorders _ := .here (List.reverse_perm _).symm
  have hreordered : leftFirst.Reordered rightFirst :=
    (ReflTransGen.single houter).tail (.entry [_] (.item [] hinner))
  exact ⟨rfl, rfl, Selector.locations_perm_of_reordered leftFirst rightFirst hkeys hreordered _⟩

end TreeQuery
