import Mathlib.Data.List.Flatten
import Mathlib.Data.List.Nodup
import Mathlib.Data.List.Perm.Basic
import TreeQuery.Proofs.Document.Reach
import TreeQuery.Proofs.Json.Keys

/-!
# Proofs/Document/Distinct — in a document with distinct keys, a path names one value

A path is read back by `Json.at?`: every reached place holds the value that its path leads to
(`Reached.at?_eq`), so two reached places with one path are the same (`Reached.ext`).

Different things held by one value lie apart: neither path is a prefix of the other.  Hence the
walk meets no place twice (`nodup_reached`), and no place stands in two sequences or twice in one
(`nodup_flatten_sequences`).
-/

open Relation
open scoped List

namespace TreeQuery

theorem Json.at?_append (value : Json) (p q : Path) :
    value.at? (p ++ q) = (value.at? p).bind (·.at? q) :=
  List.foldlM_append

/-- Places of a document with one path are one place. -/
theorem Place.eq_of_at? {document : Json} {p q : Place} (hp : document.at? p.path = some p.value)
    (hq : document.at? q.path = some q.value) (h : p.path = q.path) : p = q := by
  have hvalue : some p.value = some q.value := by rw [← hp, ← hq, h]
  obtain ⟨path, value⟩ := p
  obtain ⟨path', value'⟩ := q
  obtain rfl : path = path' := h
  obtain rfl : value = value' := Option.some.inj hvalue
  rfl

/-- Under distinct keys, the entry with a key is the one that the key finds. -/
theorem Entries.get?_of_mem {key : String} {value : Json} :
    ∀ {entries : Entries}, (entries.map Prod.fst).Nodup → (key, value) ∈ entries →
      entries.get? key = some value
  | (name, old) :: entries, hnodup, hmem => by
    rw [List.map_cons, List.nodup_cons] at hnodup
    rw [Entries.get?, List.lookup_cons]
    rcases List.mem_cons.1 hmem with h | h
    · obtain ⟨rfl, rfl⟩ := Prod.mk.inj h
      simp
    · have hne : key ≠ name := by
        rintro rfl
        exact hnodup.1 (List.mem_map.2 ⟨_, h, rfl⟩)
      rw [beq_false_of_ne hne]
      exact get?_of_mem hnodup.2 h

/-! ## A path names one value -/

namespace Place

theorem Holds.distinctKeys {p q : Place} (h : Holds p q) (hp : p.value.DistinctKeys) :
    q.value.DistinctKeys := by
  cases h with
  | item hi => exact Json.distinctKeys_array.1 hp _ (List.mem_of_getElem? hi)
  | node hentry _ => exact (Json.distinctKeys_object.1 hp).2 _ hentry
  | propertyItem hentry hi =>
    exact Json.distinctKeys_array.1 ((Json.distinctKeys_object.1 hp).2 _ hentry) _
      (List.mem_of_getElem? hi)

/-- What a value holds lies one step further at least, and the steps lead there. -/
theorem Holds.exists_steps {p q : Place} (h : Holds p q) (hp : p.value.DistinctKeys) :
    ∃ step rest, q.path = p.path ++ step :: rest ∧ p.value.at? (step :: rest) = some q.value := by
  cases h with
  | @item path items i value hi => exact ⟨.index i, [], rfl, by simp [Json.at?, Json.step?, hi]⟩
  | @node path entries key value hentry _ =>
    refine ⟨.key key, [], rfl, ?_⟩
    simp [Json.at?, Json.step?, Entries.get?_of_mem (Json.distinctKeys_object.1 hp).1 hentry]
  | @propertyItem path entries key items i value hentry hi =>
    refine ⟨.key key, [.index i], List.append_assoc .., ?_⟩
    simp [Json.at?, Json.step?, Entries.get?_of_mem (Json.distinctKeys_object.1 hp).1 hentry, hi]

theorem distinctKeys_of_below {p q : Place} (h : ReflTransGen Holds p q)
    (hp : p.value.DistinctKeys) : q.value.DistinctKeys := by
  induction h with
  | refl => exact hp
  | tail _ hstep ih => exact hstep.distinctKeys ih

theorem exists_steps_of_below {p q : Place} (h : ReflTransGen Holds p q)
    (hp : p.value.DistinctKeys) :
    ∃ steps, q.path = p.path ++ steps ∧ p.value.at? steps = some q.value := by
  induction h with
  | refl => exact ⟨[], (List.append_nil _).symm, rfl⟩
  | @tail r q hpr hstep ih =>
    obtain ⟨steps, hr, hat⟩ := ih
    obtain ⟨step, rest, hq, hat'⟩ := hstep.exists_steps (distinctKeys_of_below hpr hp)
    refine ⟨steps ++ step :: rest, by rw [hq, hr, List.append_assoc], ?_⟩
    rw [Json.at?_append, hat, Option.bind_some, hat']

end Place

section Reached

variable {document : Json} (hkeys : document.DistinctKeys) {p q : Place}

include hkeys

/-- **The path of a reached value leads to it.** -/
theorem Reached.at?_eq (hp : Reached document p) : document.at? p.path = some p.value := by
  obtain ⟨steps, hpath, hat⟩ := Place.exists_steps_of_below hp hkeys
  rw [hpath]
  exact hat

/-- **Reached places with one path are one place.** -/
theorem Reached.ext (hp : Reached document p) (hq : Reached document q) (h : p.path = q.path) :
    p = q :=
  Place.eq_of_at? (hp.at?_eq hkeys) (hq.at?_eq hkeys) h

theorem Place.isSame_iff (hp : Reached document p) (hq : Reached document q) :
    p.isSame q = true ↔ p = q := by
  rw [Place.isSame, beq_iff_eq]
  exact ⟨hp.ext hkeys hq, congrArg Place.path⟩

/-- A reached place holds another if it does so by path. -/
theorem Place.holds_iff (hp : Reached document p) (hq : Reached document q) :
    p.holds q = true ↔ p.Holds q := by
  rw [Place.holds, List.any_eq_true, ← mem_held_iff]
  have hr : ∀ r ∈ p.held, Reached document r := fun r hr => hp.tail (mem_held_iff.1 hr)
  constructor
  · rintro ⟨r, hmem, hsame⟩
    rwa [(isSame_iff hkeys hq (hr r hmem)).1 hsame]
  · exact fun h => ⟨q, h, (isSame_iff hkeys hq hq).2 rfl⟩

end Reached

/-! ## Paths that lie apart -/

/-- **Two paths lie apart**: neither leads through the end of the other. -/
def Apart (p q : Path) : Prop := ¬ p <+: q ∧ ¬ q <+: p

theorem Apart.of_step_ne {path s t : Path} {a b : Step} (h : a ≠ b) :
    Apart (path ++ a :: s) (path ++ b :: t) := by
  simp [Apart, h, h.symm]

/-- Nothing lies below both of two places that lie apart. -/
theorem Apart.not_prefix {p q r : Path} (h : Apart p q) (hp : p <+: r) : ¬ q <+: r :=
  fun hq => (List.prefix_or_prefix_of_prefix hp hq).elim h.1 h.2

namespace Place

/-- The items of an array lie apart. -/
theorem pairwise_apart_items (path : Path) (items : List Json) :
    (⟨path, .array items⟩ : Place).items.Pairwise fun p q => Apart p.path q.path := by
  rw [items_array, List.pairwise_iff_getElem]
  intro i j hi hj hij
  simp only [List.getElem_mapIdx]
  exact .of_step_ne (by simp [Nat.ne_of_lt hij])

/-- All that is held through one property lies under it. -/
theorem exists_path_of_ofEntry? {path : Path} {entry : String × Json} {edge : Edge} {q : Place}
    (hedge : Edge.ofEntry? path entry = some edge) (hq : q ∈ edge.held) :
    ∃ rest, q.path = path ++ .key entry.1 :: rest := by
  obtain ⟨key, value⟩ := entry
  rcases mem_held_ofEntry?.1 ⟨edge, hedge, hq⟩ with ⟨_, rfl⟩ | ⟨_, i, _, _, _, rfl⟩
  · exact ⟨[], rfl⟩
  · exact ⟨[.index i], List.append_assoc ..⟩

/-- **What one value holds lies apart.** -/
theorem pairwise_apart_held {p : Place} (hp : p.value.DistinctKeys) :
    p.held.Pairwise fun q r => Apart q.path r.path := by
  obtain ⟨path, value⟩ := p
  cases value with
  | array items => simpa [held, edges, Edge.held] using pairwise_apart_items path items
  | object entries =>
    have hnodup := List.pairwise_map.1 (Json.distinctKeys_object.1 hp).1
    refine List.pairwise_flatMap.2 ⟨fun edge hedge => ?_, List.pairwise_filterMap.2 ?_⟩
    · obtain ⟨⟨key, value⟩, _, hedge⟩ := List.mem_filterMap.1 hedge
      cases edge with
      | node child => exact List.pairwise_singleton _ _
      | sequence array =>
        obtain ⟨items, _, rfl⟩ := ofEntry?_eq_sequence_iff.1 hedge
        exact pairwise_apart_items _ items
    · refine hnodup.imp fun hne edge hedge edge' hedge' q hq r hr => ?_
      obtain ⟨s, hs⟩ := exists_path_of_ofEntry? hedge hq
      obtain ⟨t, ht⟩ := exists_path_of_ofEntry? hedge' hr
      rw [hs, ht]
      exact .of_step_ne fun h => hne (Step.key.inj h)
  | _ => exact .nil

end Place

/-! ## Nothing is met twice -/

/-- The walk from a place meets no path twice. -/
theorem nodup_map_path_reached (p : Place) :
    p.value.DistinctKeys → ((reached p).map Place.path).Nodup := by
  induction p using Place.induction with
  | step p ih =>
    intro hp
    rw [reached_eq, List.map_cons, List.map_flatMap, List.nodup_cons, List.nodup_flatMap]
    refine ⟨fun hmem => ?_, fun q hq => ih q hq ((Place.mem_held_iff.1 hq).distinctKeys hp), ?_⟩
    · -- what lies below `p` has a longer path
      obtain ⟨q, hq, hr⟩ := List.mem_flatMap.1 hmem
      obtain ⟨r, hr, hpath⟩ := List.mem_map.1 hr
      have hq := Place.mem_held_iff.1 hq
      obtain ⟨step, rest, hqp, _⟩ := hq.exists_steps hp
      obtain ⟨steps, hrq, _⟩ :=
        Place.exists_steps_of_below (mem_reached_iff.1 hr) (hq.distinctKeys hp)
      have := congrArg List.length (hpath.symm.trans (hrq.trans (congrArg (· ++ steps) hqp)))
      simp at this
    · refine (Place.pairwise_apart_held hp).imp_of_mem fun {q q'} hq hq' hapart => ?_
      intro path hmem hmem'
      obtain ⟨r, hr, rfl⟩ := List.mem_map.1 hmem
      obtain ⟨r', hr', hpath⟩ := List.mem_map.1 hmem'
      have below : ∀ {a b}, a ∈ p.held → b ∈ reached a → a.path <+: b.path := fun ha hb => by
        obtain ⟨steps, h, _⟩ := Place.exists_steps_of_below (mem_reached_iff.1 hb)
          ((Place.mem_held_iff.1 ha).distinctKeys hp)
        exact ⟨steps, h.symm⟩
      exact hapart.not_prefix (below hq hr) (hpath ▸ below hq' hr')

/-- What the walk meets is the place itself and, once each, all that the met values hold. -/
theorem reached_perm (p : Place) : reached p ~ p :: (reached p).flatMap Place.held := by
  induction p using Place.induction with
  | step p ih =>
    conv_lhs => rw [reached_eq]
    rw [reached_eq, List.flatMap_cons, List.flatMap_assoc]
    refine .cons _ ?_
    calc p.held.flatMap reached
      _ ~ p.held.flatMap fun q => [q] ++ (reached q).flatMap Place.held :=
        List.Perm.flatMap_left _ ih
      _ ~ p.held.flatMap (fun q => [q]) ++ p.held.flatMap fun q => (reached q).flatMap Place.held :=
        (List.flatMap_append_perm ..).symm
      _ = p.held ++ p.held.flatMap fun q => (reached q).flatMap Place.held := by simp

/-- The items of the sequences of a value are, in order, some of what it holds. -/
theorem Place.flatten_sequences_sublist (p : Place) : p.sequences.flatten <+ p.held := by
  rw [Place.sequences, Place.held]
  induction p.edges with
  | nil => exact .slnil
  | cons edge edges ih =>
    cases edge with
    | node child => exact ih.trans (List.sublist_append_right ..)
    | sequence array => exact (List.Sublist.refl _).append ih

section Nodup

variable {document : Json} (hkeys : document.DistinctKeys)

include hkeys

/-- **The walk meets no path twice.** -/
theorem nodup_reached : ((reached (Place.root document)).map Place.path).Nodup :=
  nodup_map_path_reached _ hkeys

theorem nodup_nodes : ((nodes (Place.root document)).map Place.path).Nodup := by
  rw [nodes_eq]
  exact (nodup_reached hkeys).sublist (List.filter_sublist.map _)

/-- **Nothing is held twice**, by two reached values or by one. -/
theorem nodup_flatMap_held :
    (((reached (Place.root document)).flatMap Place.held).map Place.path).Nodup := by
  have hperm := (reached_perm (Place.root document)).map Place.path
  exact (List.nodup_cons.1 (hperm.nodup_iff.1 (nodup_reached hkeys))).2

/-- **No place stands in two sequences, or twice in one.** -/
theorem nodup_flatten_sequences :
    ((sequences (Place.root document)).flatten.map Place.path).Nodup := by
  refine (nodup_flatMap_held hkeys).sublist (List.Sublist.map _ ?_)
  rw [sequences, ← List.flatMap_id, List.flatMap_assoc]
  refine List.Sublist.flatMap_right _ fun p _ => ?_
  rw [List.flatMap_id]
  exact p.flatten_sequences_sublist

end Nodup

end TreeQuery
