import TreeQuery.Proofs.Document.Calls
import TreeQuery.Proofs.Document.Holder
import TreeQuery.Proofs.Document.Order

/-!
# Proofs/Document/Visits — every value is visited once, and every array walked once

The walk over all values and the walk over the nodes visit the same values in the same order, except
that the latter shows only nodes.  What they visit is the closure of the root under the test on
identities `Place.holds` (`holdsClosure_iff`).

An array is an edge of the object that has it under a property, or, if it is itself visited, an edge
of itself.  It is never both: a visited array is an item or the root, so its path does not end in a
key, and the path of an array tells which value yields it (`homeOf_path`).  Hence every array that
the search enters is yielded once over the whole walk (`nodup_arrays`).
-/

open Relation
open scoped List

namespace TreeQuery

variable {σ : Type} {document : Json} {p q : Place}

/-! ## The walk over all values -/

/-- **A visitor of all values is called on the reached ones**, in their order. -/
theorem walk_eq_foldl (visit : Place → σ → σ) (p : Place) : ∀ state : σ,
    walk (fun q _ s => ((), visit q s)) p () state =
      (reached p).foldl (fun s q => visit q s) state := by
  induction p using Place.induction with
  | step p ih =>
    intro state
    rw [walk_eq, reached_eq, List.foldl_cons, List.foldl_flatMap]
    exact List.foldl_ext _ _ _ fun s q hq => ih q hq s

/-- **The closure of the root under holding**: a place of the document is in it if one that is in it
holds it. -/
inductive HoldsClosure (document : Json) : Place → Prop
  | root : HoldsClosure document (Place.root document)
  | held {p q : Place} (hp : HoldsClosure document p) (hq : document.at? q.path = some q.value)
      (h : p.holds q = true) : HoldsClosure document q

theorem holdsClosure_iff (hkeys : document.DistinctKeys) :
    HoldsClosure document p ↔ Reached document p := by
  constructor
  · intro h
    induction h with
    | root => exact .root document
    | @held p q _ hq h ih =>
      obtain ⟨r, hr, hsame⟩ := List.any_eq_true.1 h
      have hr : Reached document r := ih.tail (Place.mem_held_iff.1 hr)
      -- the place held has the path of `q`, and the document one value at that path
      obtain rfl : q = r := Place.eq_of_at? hq (hr.at?_eq hkeys) (beq_iff_eq.1 hsame)
      exact hr
  · intro h
    induction h with
    | refl => exact .root
    | tail hp h ih =>
      have hq := Reached.tail hp h
      exact .held ih (hq.at?_eq hkeys) ((Place.holds_iff hkeys hp hq).2 h)

/-- Every reached value but the root has a holder. -/
theorem Reached.exists_holder (hq : Reached document q) (hne : q ≠ Place.root document) :
    ∃ p, Reached document p ∧ p.Holds q :=
  (ReflTransGen.cases_tail hq).resolve_left fun h => hne h

theorem Reached.existsUnique_holder (hkeys : document.DistinctKeys) (hq : Reached document q)
    (hne : q ≠ Place.root document) :
    ∃! p, p ∈ reached (Place.root document) ∧ p.holds q = true := by
  obtain ⟨p, hp, h⟩ := hq.exists_holder hne
  refine ⟨p, ⟨mem_reached_root_iff.2 hp, (Place.holds_iff hkeys hp hq).2 h⟩, ?_⟩
  rintro p' ⟨hp', h'⟩
  have hp' := mem_reached_root_iff.1 hp'
  exact ((Place.holds_iff hkeys hp' hq).1 h').holder_unique hkeys hp' hp h

/-! ## Arrays -/

/-- **The arrays that the search enters**: those that are reached and those that are properties of
reached objects. -/
inductive Entered (document : Json) : Place → Prop
  | itself {array : Place} {items : List Json} (h : Reached document array)
      (harray : array.value = .array items) : Entered document array
  | property {p : Place} {entries : Entries} {key : String} {items : List Json}
      (h : Reached document p) (hobject : p.value = .object entries)
      (entry : (key, .array items) ∈ entries) :
      Entered document ⟨p.path ++ [.key key], .array items⟩

theorem mem_flatMap_arrays_iff {array : Place} :
    array ∈ (reached (Place.root document)).flatMap Place.arrays ↔ Entered document array := by
  simp only [List.mem_flatMap, mem_reached_root_iff, Place.mem_arrays_iff]
  constructor
  · rintro ⟨p, hp, ⟨items, hvalue, rfl⟩ | ⟨entries, key, items, hvalue, hentry, rfl⟩⟩
    · exact .itself hp hvalue
    · exact .property hp hvalue hentry
  · rintro (⟨h, hvalue⟩ | ⟨h, hvalue, hentry⟩)
    · exact ⟨_, h, .inl ⟨_, hvalue, rfl⟩⟩
    · exact ⟨_, h, .inr ⟨_, _, _, hvalue, hentry, rfl⟩⟩

/-- A reached array is the root or an item, not a property. -/
theorem Reached.getLast?_path_of_array {items : List Json} (hp : Reached document p)
    (harray : p.value = .array items) (key : String) : p.path.getLast? ≠ some (.key key) := by
  rcases ReflTransGen.cases_tail hp with rfl | ⟨r, _, h⟩
  · simp [Place.root]
  · cases h with
    | item => simp
    | node _ hnode =>
      obtain rfl := harray
      simp [Json.isNode, Json.kind?, Json.get?] at hnode
    | propertyItem => simp

/-- The path of the value that yields the array at a path: that of the object, if the array is a
property, and else its own. -/
def homeOf (path : Path) : Path :=
  match path.getLast? with
  | some (.key _) => path.dropLast
  | _ => path

/-- **The path of an array tells which value yields it.** -/
theorem homeOf_path {array : Place} (hp : Reached document p) (h : array ∈ p.arrays) :
    homeOf array.path = p.path := by
  rcases Place.mem_arrays_iff.1 h with ⟨items, hvalue, rfl⟩ | ⟨_, key, _, _, _, rfl⟩
  · rw [homeOf]
    split
    · next key hlast =>
      exact absurd hlast (hp.getLast?_path_of_array hvalue key)
    · rfl
  · simp [homeOf]

/-- The arrays of one value have different paths. -/
theorem Place.nodup_map_path_arrays (hp : p.value.DistinctKeys) :
    (p.arrays.map Place.path).Nodup := by
  obtain ⟨path, value⟩ := p
  cases value with
  | array items => exact List.nodup_singleton _
  | object entries =>
    have hnodup := List.pairwise_map.1 (Json.distinctKeys_object.1 hp).1
    refine List.pairwise_map.2 (List.pairwise_filterMap.2 (List.pairwise_filterMap.2 ?_))
    refine hnodup.imp fun hne edge hedge edge' hedge' array harray array' harray' => ?_
    cases edge with
    | node child => simp at harray
    | sequence array =>
      cases edge' with
      | node child => simp at harray'
      | sequence array' =>
        obtain ⟨_, _, rfl⟩ := ofEntry?_eq_sequence_iff.1 hedge
        obtain ⟨_, _, rfl⟩ := ofEntry?_eq_sequence_iff.1 hedge'
        obtain rfl := Option.some.inj harray
        obtain rfl := Option.some.inj harray'
        simpa using hne
  | _ => exact List.nodup_nil

/-- **No array is yielded twice** over the whole walk. -/
theorem nodup_arrays (hkeys : document.DistinctKeys) :
    (((reached (Place.root document)).flatMap Place.arrays).map Place.path).Nodup := by
  rw [List.map_flatMap, List.nodup_flatMap]
  constructor
  · intro p hp
    exact Place.nodup_map_path_arrays
      (Place.distinctKeys_of_below (mem_reached_root_iff.1 hp) hkeys)
  · refine (List.pairwise_map.1 (nodup_reached hkeys)).imp_of_mem fun {p q} hp hq hne => ?_
    intro path hpath hpath'
    obtain ⟨array, harray, rfl⟩ := List.mem_map.1 hpath
    obtain ⟨array', harray', heq⟩ := List.mem_map.1 hpath'
    refine hne ?_
    rw [← homeOf_path (mem_reached_root_iff.1 hp) harray,
      ← homeOf_path (mem_reached_root_iff.1 hq) harray', heq]

/-! ## Both walks -/

/-- **What the walks over a document visit, and how often.** -/
structure VisitsOnce (document : Json) : Prop where
  /-- A visitor of all values, whatever its state, is called on the reached values in order. -/
  walk_eq : ∀ {σ : Type} (visit : Place → σ → σ) (state : σ),
    walk (fun p _ s => ((), visit p s)) (Place.root document) () state =
      (reached (Place.root document)).foldl (fun s p => visit p s) state
  /-- These are the closure of the root under holding, each listed once and after its holder. -/
  mem_reached : ∀ p, p ∈ reached (Place.root document) ↔ HoldsClosure document p
  nodup_reached : ((reached (Place.root document)).map Place.path).Nodup
  holder_first : ∀ p ∈ reached (Place.root document), ∀ q ∈ reached (Place.root document),
    p.holds q = true → [p, q] <+ reached (Place.root document)
  existsUnique_holder : ∀ q ∈ reached (Place.root document), q ≠ Place.root document →
    ∃! p, p ∈ reached (Place.root document) ∧ p.holds q = true
  /-- The arrays yielded on the way are those that the search enters, each yielded once, and the
  sequences are their items. -/
  mem_arrays : ∀ array, array ∈ (reached (Place.root document)).flatMap Place.arrays ↔
    Entered document array
  count_arrays : ∀ array, Entered document array →
    (((reached (Place.root document)).flatMap Place.arrays).map Place.path).count array.path = 1
  sequences_eq : sequences (Place.root document) =
    ((reached (Place.root document)).flatMap Place.arrays).map Place.items
  /-- A visitor of nodes, whatever its answers and its state, is shown the nodes among the reached
  values in order. -/
  map_place_calls : ∀ {γ σ : Type} (visit : Place → γ → σ → Option γ × σ) (start : γ) (state : σ),
    (calls visit (Place.root document) start state).map Call.place =
      (reached (Place.root document)).filter Place.isNode

theorem visitsOnce (document : Json) (hkeys : document.DistinctKeys) : VisitsOnce document where
  walk_eq visit := walk_eq_foldl visit _
  mem_reached _ := mem_reached_root_iff.trans (holdsClosure_iff hkeys).symm
  nodup_reached := nodup_reached hkeys
  holder_first p hp q hq h := by
    have hp := mem_reached_root_iff.1 hp
    have hpq : p.Holds q := (Place.holds_iff hkeys hp (mem_reached_root_iff.1 hq)).1 h
    exact (precedes_iff_sublist hp).1 (.above (.single hpq))
  existsUnique_holder _ hq hne := (mem_reached_root_iff.1 hq).existsUnique_holder hkeys hne
  mem_arrays _ := mem_flatMap_arrays_iff
  count_arrays _ h := List.count_eq_one_of_mem (nodup_arrays hkeys)
    (List.mem_map_of_mem (mem_flatMap_arrays_iff.2 h))
  sequences_eq := by
    rw [sequences, List.map_flatMap]
    exact List.flatMap_congr fun p _ => p.sequences_eq
  map_place_calls visit start state := by rw [TreeQuery.map_place_calls, nodes_eq]

/-- An array of an empty array, a node and a plain object; the node has an empty array, a node and a
plain object with a node in it. -/
def arrayDocument : Json :=
  .array [
    .array [],
    .object [("type", .string "P"), ("none", .array []), ("inner", .object [("type", .string "A")]),
      ("plain", .object [("hidden", .object [("type", .string "B")])])],
    .object [("shown", .object [("type", .string "B")])]]

/-- The plain object in the row is entered, the one under a property is not.  Each of the three
arrays is yielded once, although two of them are visited themselves. -/
theorem visitsOnce_arrayDocument :
    arrayDocument.DistinctKeys ∧ VisitsOnce arrayDocument ∧
    (reached (Place.root arrayDocument)).map Place.path =
      [[], [.index 0], [.index 1], [.index 1, .key "inner"], [.index 2],
        [.index 2, .key "shown"]] ∧
    ((reached (Place.root arrayDocument)).flatMap Place.arrays).map Place.path =
      [[], [.index 0], [.index 1, .key "none"]] := by
  have hkeys : arrayDocument.DistinctKeys := by
    simp [arrayDocument, Json.DistinctKeys, Json.DistinctKeysEntries, Json.DistinctKeysItems]
  exact ⟨hkeys, visitsOnce arrayDocument hkeys, by decide +kernel, by decide +kernel⟩

end TreeQuery
