import Mathlib.Data.List.Basic
import Mathlib.Logic.Relation
import TreeQuery.Document.Walk

/-!
# Proofs/Document/Reach — which values the search reaches, and how the walk lists them

`Place.Holds` says, in terms of JSON alone, which values a value holds for the search;
`Reached` closes the root under it and `Walked` names the sequences on the way.  The walk of
`Document/Walk` is tied to these relations twice:

* by equation — `reached_eq` and `contexts_eq` unfold a listing into that of the place itself and
  those of what it holds;
* by membership — `mem_reached_iff`, `mem_nodes_iff`, `mem_contexts_iff`, `mem_sequences_iff`.

Every induction over a document is `Place.induction`: from what a value holds to the value.
-/

open Relation

namespace TreeQuery

variable {γ α : Type}

namespace Place

/-! ## What a value holds -/

/-- **A value holds another one directly**: an array its items; an object the nodes under its
properties and the items of the arrays under its properties. -/
inductive Holds : Place → Place → Prop
  | item {path : Path} {items : List Json} {i : Nat} {value : Json}
      (at_i : items[i]? = some value) : Holds ⟨path, .array items⟩ ⟨path ++ [.index i], value⟩
  | node {path : Path} {entries : Entries} {key : String} {value : Json}
      (entry : (key, value) ∈ entries) (isNode : value.isNode = true) :
      Holds ⟨path, .object entries⟩ ⟨path ++ [.key key], value⟩
  | propertyItem {path : Path} {entries : Entries} {key : String} {items : List Json} {i : Nat}
      {value : Json} (entry : (key, .array items) ∈ entries) (at_i : items[i]? = some value) :
      Holds ⟨path, .object entries⟩ ⟨path ++ [.key key] ++ [.index i], value⟩

/-- A value lies somewhere below another one, containers in between or not. -/
abbrev Above : Place → Place → Prop := TransGen Holds

theorem itemsFrom_eq_mapIdx (path : Path) : ∀ (items : List Json) (position : Nat),
    itemsFrom path position items =
      items.mapIdx fun i value => ⟨path ++ [.index (position + i)], value⟩
  | [], _ => rfl
  | value :: items, position => by
    rw [itemsFrom, itemsFrom_eq_mapIdx path items, List.mapIdx_cons]
    simp only [Nat.add_zero, Nat.add_comm, Nat.add_left_comm]

theorem items_array (path : Path) (items : List Json) :
    (⟨path, .array items⟩ : Place).items =
      items.mapIdx fun i value => ⟨path ++ [.index i], value⟩ := by
  change itemsFrom path 0 items = _
  rw [itemsFrom_eq_mapIdx]
  simp only [Nat.zero_add]

theorem mem_items_array {path : Path} {items : List Json} {p : Place} :
    p ∈ (⟨path, .array items⟩ : Place).items ↔
      ∃ i value, items[i]? = some value ∧ p = ⟨path ++ [.index i], value⟩ := by
  rw [items_array, List.mem_mapIdx]
  constructor
  · rintro ⟨i, hi, rfl⟩
    exact ⟨i, items[i], List.getElem?_eq_getElem hi, rfl⟩
  · rintro ⟨i, value, hi, rfl⟩
    obtain ⟨hlt, rfl⟩ := List.getElem?_eq_some_iff.1 hi
    exact ⟨i, hlt, rfl⟩

/-- The edge under a property leads to what the object holds there. -/
theorem mem_held_ofEntry? {path : Path} {key : String} {value : Json} {q : Place} :
    (∃ edge, Edge.ofEntry? path (key, value) = some edge ∧ q ∈ edge.held) ↔
      (value.isNode = true ∧ q = ⟨path ++ [.key key], value⟩) ∨
        ∃ items i v, value = .array items ∧ items[i]? = some v ∧
          q = ⟨path ++ [.key key] ++ [.index i], v⟩ := by
  cases value with
  | array items =>
    simp [Edge.ofEntry?, Edge.held, mem_items_array, Json.isNode, Json.kind?, Json.get?]
  | object entries =>
    by_cases h : (Json.object entries).isNode <;> simp [Edge.ofEntry?, Edge.held, h]
  | _ => simp [Edge.ofEntry?, Json.isNode, Json.kind?, Json.get?]

/-- **The held places are those of the relation.** -/
theorem mem_held_iff {p q : Place} : q ∈ p.held ↔ Holds p q := by
  obtain ⟨path, value⟩ := p
  constructor
  · intro h
    cases value with
    | array items =>
      obtain ⟨i, value, hi, rfl⟩ := mem_items_array.1 (by simpa [held, edges, Edge.held] using h)
      exact .item hi
    | object entries =>
      simp only [held, edges, List.mem_flatMap, List.mem_filterMap] at h
      obtain ⟨edge, ⟨⟨key, value⟩, hentry, hedge⟩, hq⟩ := h
      rcases mem_held_ofEntry?.1 ⟨edge, hedge, hq⟩ with ⟨hnode, rfl⟩ | ⟨items, i, v, rfl, hi, rfl⟩
      · exact .node hentry hnode
      · exact .propertyItem hentry hi
    | _ => simp [held, edges] at h
  · intro h
    cases h with
    | item hi => simpa [held, edges, Edge.held] using mem_items_array.2 ⟨_, _, hi, rfl⟩
    | node hentry hnode =>
      obtain ⟨edge, hedge, hq⟩ := mem_held_ofEntry?.2 (.inl ⟨hnode, rfl⟩)
      exact List.mem_flatMap.2 ⟨edge, List.mem_filterMap.2 ⟨_, hentry, hedge⟩, hq⟩
    | propertyItem hentry hi =>
      obtain ⟨edge, hedge, hq⟩ := mem_held_ofEntry?.2 (.inr ⟨_, _, _, rfl, hi, rfl⟩)
      exact List.mem_flatMap.2 ⟨edge, List.mem_filterMap.2 ⟨_, hentry, hedge⟩, hq⟩

/-! ## Induction over a document -/

theorem Holds.sizeOf_lt {p q : Place} (h : Holds p q) : sizeOf q.value < sizeOf p.value := by
  cases h with
  | item hi =>
    have := List.sizeOf_lt_of_mem (List.mem_of_getElem? hi)
    simp only [Json.array.sizeOf_spec]
    omega
  | node hentry _ =>
    have := List.sizeOf_lt_of_mem hentry
    simp only [Prod.mk.sizeOf_spec] at this
    simp only [Json.object.sizeOf_spec]
    omega
  | propertyItem hentry hi =>
    have hitem := List.sizeOf_lt_of_mem (List.mem_of_getElem? hi)
    have := List.sizeOf_lt_of_mem hentry
    simp only [Prod.mk.sizeOf_spec, Json.array.sizeOf_spec] at this
    simp only [Json.object.sizeOf_spec]
    omega

/-- **Induction over a document**: what holds of a place as soon as it holds of all that the place
holds, holds of every place. -/
@[elab_as_elim]
theorem induction {motive : Place → Prop} (step : ∀ p, (∀ q ∈ p.held, motive q) → motive p)
    (p : Place) : motive p :=
  step p fun q hq =>
    have := (mem_held_iff.1 hq).sizeOf_lt
    induction step q
termination_by sizeOf p.value

end Place

/-! ## Reached values and walked sequences -/

/-- **The search reaches a value**: the root, and what a reached value holds. -/
def Reached (document : Json) : Place → Prop := ReflTransGen Place.Holds (Place.root document)

/-- **The sequences that the search walks**: an array that is itself reached, or that is a property
of a reached object; each as the list of its items. -/
inductive Walked (document : Json) : List Place → Prop
  | itself {path : Path} {items : List Json} (h : Reached document ⟨path, .array items⟩) :
      Walked document (Place.items ⟨path, .array items⟩)
  | property {path : Path} {entries : Entries} {key : String} {items : List Json}
      (h : Reached document ⟨path, .object entries⟩) (entry : (key, .array items) ∈ entries) :
      Walked document (Place.items ⟨path ++ [.key key], .array items⟩)

theorem Reached.root (document : Json) : Reached document (Place.root document) := .refl

theorem Reached.tail {document : Json} {p q : Place} (hp : Reached document p) (h : p.Holds q) :
    Reached document q :=
  ReflTransGen.tail hp h

/-- The items of a walked sequence are reached. -/
theorem Walked.reached {document : Json} {s : List Place} (hs : Walked document s) {p : Place}
    (hp : p ∈ s) : Reached document p := by
  cases hs with
  | itself h =>
    obtain ⟨i, value, hi, rfl⟩ := Place.mem_items_array.1 hp
    exact h.tail (.item hi)
  | property h hentry =>
    obtain ⟨i, value, hi, rfl⟩ := Place.mem_items_array.1 hp
    exact h.tail (.propertyItem hentry hi)

/-! ## The listings of the walk, by equation -/

section Listing

variable {visit : Place → γ → Array α → γ × Array α} (pass : Place → γ → γ)
  (emit : Place → γ → List α)

/-- Steps that only add to a listing add up. -/
theorem toList_foldl_of_append {f : Place → Array α → Array α} : ∀ {l : List Place},
    (∀ q ∈ l, ∀ seen, (f q seen).toList = seen.toList ++ (f q #[]).toList) → ∀ seen,
      (l.foldl (fun s q => f q s) seen).toList = seen.toList ++ l.flatMap fun q => (f q #[]).toList
  | [], _, _ => by simp
  | q :: l, h, seen => by
    rw [List.foldl_cons, toList_foldl_of_append fun r hr => h r (List.mem_cons_of_mem _ hr),
      h q List.mem_cons_self, List.flatMap_cons, List.append_assoc]

/-- A walk whose visitor only adds to a listing adds the same whatever the listing holds. -/
theorem toList_walk (hpass : ∀ p c seen, (visit p c seen).1 = pass p c)
    (hemit : ∀ p c seen, (visit p c seen).2.toList = seen.toList ++ emit p c) (p : Place) :
    ∀ (c : γ) (seen : Array α),
      (walk visit p c seen).toList = seen.toList ++ (walk visit p c #[]).toList := by
  induction p using Place.induction with
  | step p ih =>
    intro c seen
    rw [walk_eq, walk_eq visit p c #[], hpass, hpass,
      toList_foldl_of_append fun q hq => ih q hq _, toList_foldl_of_append fun q hq => ih q hq _,
      hemit, hemit]
    simp

/-- **A listing, unfolded**: what the walk adds at a place, then the listings of what the place
holds. -/
theorem toList_walk_eq (hpass : ∀ p c seen, (visit p c seen).1 = pass p c)
    (hemit : ∀ p c seen, (visit p c seen).2.toList = seen.toList ++ emit p c) (p : Place) (c : γ) :
    (walk visit p c #[]).toList =
      emit p c ++ p.held.flatMap fun q => (walk visit q (pass p c) #[]).toList := by
  rw [walk_eq, toList_foldl_of_append fun q _ => toList_walk pass emit hpass hemit q _, hpass,
    hemit]
  simp

end Listing

/-- **The reached values, unfolded.** -/
theorem reached_eq (p : Place) : reached p = p :: p.held.flatMap reached :=
  toList_walk_eq (fun _ _ => ()) (fun p _ => [p]) (fun _ _ _ => rfl)
    (fun _ _ _ => Array.toList_push) p ()

/-- What a place hands down to what it holds: the visitor's answer at a node, if there is one, and
else what was handed to the place itself. -/
def handedDown (next : Place → γ → Option γ) (p : Place) (c : γ) : γ :=
  if p.isNode then (next p c).getD c else c

/-- **The nodes with their contexts, unfolded.** -/
theorem contexts_eq (next : Place → γ → Option γ) (c : γ) (p : Place) :
    contexts next c p = (if p.isNode then [(p, c)] else []) ++
      p.held.flatMap (contexts next (handedDown next p c)) := by
  refine toList_walk_eq (handedDown next) (fun p c => if p.isNode then [(p, c)] else [])
    (fun q c seen => ?_) (fun q c seen => ?_) p c
  · by_cases h : q.isNode <;> simp [handedDown, h]
  · by_cases h : q.isNode <;> simp [h]

/-- The contexts leave the nodes and their order alone. -/
theorem map_fst_contexts (next : Place → γ → Option γ) (p : Place) :
    ∀ c, (contexts next c p).map Prod.fst = (reached p).filter Place.isNode := by
  induction p using Place.induction with
  | step p ih =>
    intro c
    rw [contexts_eq, reached_eq, List.map_append, List.map_flatMap, List.filter_cons,
      List.filter_flatMap, List.flatMap_congr fun q hq => ih q hq _]
    by_cases h : p.isNode <;> simp [h]

/-- **The nodes are the reached values that are nodes**, in the same order. -/
theorem nodes_eq (p : Place) : nodes p = (reached p).filter Place.isNode :=
  map_fst_contexts _ p ()

/-! ## The listings of the walk, by membership -/

theorem mem_reached_iff {p q : Place} : q ∈ reached p ↔ ReflTransGen Place.Holds p q := by
  induction p using Place.induction with
  | step p ih =>
    rw [reached_eq, List.mem_cons, List.mem_flatMap, ReflTransGen.cases_head_iff]
    refine or_congr ⟨Eq.symm, Eq.symm⟩ (exists_congr fun r => ?_)
    constructor
    · rintro ⟨hr, hq⟩
      exact ⟨Place.mem_held_iff.1 hr, (ih r hr).1 hq⟩
    · rintro ⟨hr, hq⟩
      exact ⟨Place.mem_held_iff.2 hr, (ih r (Place.mem_held_iff.2 hr)).2 hq⟩

theorem mem_reached_root_iff {document : Json} {p : Place} :
    p ∈ reached (Place.root document) ↔ Reached document p :=
  mem_reached_iff

theorem mem_nodes_iff {document : Json} {p : Place} :
    p ∈ nodes (Place.root document) ↔ Reached document p ∧ p.isNode = true := by
  rw [nodes_eq, List.mem_filter, mem_reached_root_iff]

theorem ofEntry?_eq_sequence_iff {path : Path} {entry : String × Json} {array : Place} :
    Edge.ofEntry? path entry = some (.sequence array) ↔
      ∃ items, entry.2 = .array items ∧ array = ⟨path ++ [.key entry.1], .array items⟩ := by
  obtain ⟨key, value⟩ := entry
  cases value with
  | array items => simp [Edge.ofEntry?, eq_comm]
  | _ => simp [Edge.ofEntry?]

/-- The arrays whose items are the sequences of a value. -/
def Place.arrays (p : Place) : List Place :=
  p.edges.filterMap fun
    | .sequence array => some array
    | .node _ => none

theorem Place.sequences_eq (p : Place) : p.sequences = p.arrays.map Place.items := by
  rw [sequences, arrays, List.map_filterMap]
  refine List.filterMap_congr fun edge _ => ?_
  cases edge <;> rfl

/-- The arrays of a value are the array that it is and those under its properties. -/
theorem Place.mem_arrays_iff {p array : Place} :
    array ∈ p.arrays ↔ (∃ items, p.value = .array items ∧ array = p) ∨
      ∃ entries key items, p.value = .object entries ∧ (key, .array items) ∈ entries ∧
        array = ⟨p.path ++ [.key key], .array items⟩ := by
  obtain ⟨path, value⟩ := p
  cases value with
  | array items => simp [arrays, edges]
  | object entries =>
    simp only [arrays, edges, List.mem_filterMap]
    constructor
    · rintro ⟨edge, ⟨⟨key, value⟩, hentry, hkey⟩, harray⟩
      cases edge with
      | node child => simp at harray
      | sequence array =>
        obtain ⟨items, rfl, rfl⟩ := ofEntry?_eq_sequence_iff.1 hkey
        exact .inr ⟨_, _, _, rfl, hentry, (Option.some.inj harray).symm⟩
    · rintro (⟨items, h, _⟩ | ⟨_, key, items, h, hentry, rfl⟩)
      · exact absurd h (by simp)
      · obtain rfl := Json.object.inj h
        exact ⟨_, ⟨_, hentry, ofEntry?_eq_sequence_iff.2 ⟨items, rfl, rfl⟩⟩, rfl⟩
  | _ => simp [arrays, edges]

/-- The sequences of a value are the array that it is and the arrays under its properties. -/
theorem mem_place_sequences_iff {p : Place} {s : List Place} :
    s ∈ p.sequences ↔ (∃ items, p.value = .array items ∧ s = p.items) ∨
      ∃ entries key items, p.value = .object entries ∧ (key, .array items) ∈ entries ∧
        s = (⟨p.path ++ [.key key], .array items⟩ : Place).items := by
  rw [Place.sequences_eq, List.mem_map]
  simp only [Place.mem_arrays_iff]
  constructor
  · rintro ⟨_, ⟨items, h, rfl⟩ | ⟨entries, key, items, h, hentry, rfl⟩, rfl⟩
    · exact .inl ⟨items, h, rfl⟩
    · exact .inr ⟨entries, key, items, h, hentry, rfl⟩
  · rintro (⟨items, h, rfl⟩ | ⟨entries, key, items, h, hentry, rfl⟩)
    · exact ⟨p, .inl ⟨items, h, rfl⟩, rfl⟩
    · exact ⟨_, .inr ⟨entries, key, items, h, hentry, rfl⟩, rfl⟩

/-- **The listed sequences are the walked ones.** -/
theorem mem_sequences_iff {document : Json} {s : List Place} :
    s ∈ sequences (Place.root document) ↔ Walked document s := by
  simp only [sequences, List.mem_flatMap, mem_reached_root_iff, mem_place_sequences_iff]
  constructor
  · rintro ⟨⟨path, value⟩, hp, ⟨items, rfl, rfl⟩ | ⟨entries, key, items, rfl, hentry, rfl⟩⟩
    · exact .itself hp
    · exact .property hp hentry
  · rintro (h | ⟨h, hentry⟩)
    · exact ⟨_, h, .inl ⟨_, rfl, rfl⟩⟩
    · exact ⟨_, h, .inr ⟨_, _, _, rfl, hentry, rfl⟩⟩

end TreeQuery
