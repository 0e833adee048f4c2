import Mathlib.Data.Nat.Count
import Mathlib.Data.Set.Card
import TreeQuery.Proofs.Document.Order
import TreeQuery.Proofs.Selector.Meaning

/-!
# Proofs/Selector/Multiplicity — in which order and how often a place is matched

`Selector.locations` is what a selector matches as the search lists it: paths, in order and with
repeats.  Every combinator but the sibling step lists part of a listing without repeats — of the
nodes, or of the items of all sequences.  The sibling step lists a place once for each left match
to which it is the nearest (`count_siblingsIn`).

`ListsInOrder` collects what holds of a document for every selector.
-/

open Relation
open scoped List

namespace TreeQuery

/-! ## Parts of the listing of nodes -/

section Sublist

variable {γ : Type} {next : Place → γ → Option γ} {c : γ} {root : Place}

/-- Some of the nodes, chosen by their contexts, are in order some of the nodes. -/
theorem filterMap_contexts_sublist {f : Place × γ → Option Place}
    (hf : ∀ entry p, f entry = some p → entry.1 = p) :
    (contexts next c root).filterMap f <+ nodes root := by
  rw [nodes_eq, ← map_fst_contexts next root c]
  induction contexts next c root with
  | nil => exact .slnil
  | cons entry entries ih =>
    rw [List.filterMap_cons, List.map_cons]
    cases h : f entry with
    | none => exact ih.cons _
    | some p =>
      obtain rfl := hf entry p h
      exact ih.cons_cons _

theorem findDescendants_sublist (root : Place) (left right : List Place) :
    Combinator.findDescendants root left right <+ nodes root := by
  refine filterMap_contexts_sublist fun ⟨p, below⟩ q h => ?_
  obtain ⟨_, h⟩ := Option.ite_none_right_eq_some.1 h
  exact Option.some.inj h

theorem findChildren_sublist (root : Place) (left right : List Place) :
    Combinator.findChildren root left right <+ nodes root := by
  refine filterMap_contexts_sublist fun ⟨p, parent⟩ q h => ?_
  cases parent with
  | none => exact absurd h (by simp)
  | some parent =>
    obtain ⟨_, h⟩ := Option.ite_none_right_eq_some.1 h
    exact Option.some.inj h

end Sublist

/-! ## Parts of the listing of all items of sequences -/

/-- The adjacent step picks, in order, some of the items of all sequences. -/
theorem adjacent_sublist (root : Place) (left right : List Place) :
    Combinator.adjacent.relate root left right <+ (sequences root).flatten := by
  rw [Combinator.relate, ← List.flatMap_id]
  exact .flatMap_right _ fun s _ => (Combinator.adjacentIn_sublist s).trans (List.tail_sublist s)

theorem filterMap_nthIn_sublist (index : Int64) : ∀ l : List (List Place),
    l.filterMap (nthIn index) <+ l.flatten
  | [] => .slnil
  | s :: l => by
    have ih := filterMap_nthIn_sublist index l
    rw [List.filterMap_cons, List.flatten_cons]
    cases h : nthIn index s with
    | none => exact ih.trans (List.sublist_append_right ..)
    | some p => exact (List.singleton_sublist.2 (mem_and_isNode_of_nthIn h).1).append ih

/-- A position picks, in order, some of the items of all sequences. -/
theorem nthChild_sublist (root : Place) (literal : Literal) :
    (Selector.nthChild literal).find root <+ (sequences root).flatten := by
  rw [Selector.find]
  cases literal.index? with
  | none => exact List.nil_sublist _
  | some index => exact filterMap_nthIn_sublist index _

/-! ## How often the sibling step lists a place -/

/-- **The starts of a sibling step** that leads to an index of a sequence: the earlier left matches
with no right match in between. -/
def siblingStarts (left right : Place → Prop) (s : List Place) (j : Nat) : Set Nat :=
  {i | i < j ∧ (∃ q, s[i]? = some q ∧ left q) ∧
    ∀ k r, i < k → k < j → s[k]? = some r → ¬ right r}

theorem countP_range_eq_ncard {f : Nat → Bool} {n : Nat} {S : Set Nat}
    (h : ∀ i, i ∈ S ↔ i < n ∧ f i = true) : (List.range n).countP f = S.ncard := by
  have hS : S = ((Finset.range n).filter (f · = true) : Finset Nat) := by
    ext i
    simp [h]
  rw [hS, Set.ncard_coe_finset, ← Nat.count_eq_card_filter_range, Nat.count]
  simp

section Count

variable {left right s : List Place} {p : Place} {j : Nat}

/-- Where paths are distinct, the path of an item tells its index. -/
theorem getElem?_inj_of_path {i : Nat} {q : Place} (hs : (s.map Place.path).Nodup)
    (hi : s[i]? = some q) (hj : s[j]? = some p) (h : q.path = p.path) : i = j := by
  have hlt := (List.getElem?_eq_some_iff.1 hi).1
  refine (List.getElem?_inj (by simpa using hlt) hs).1 ?_
  rw [List.getElem?_map, List.getElem?_map, hi, hj, Option.map_some, Option.map_some, h]

/-- The nearest right match after an index is a given one if the index is a start for it. -/
theorem mem_siblingStarts_iff (hs : (s.map Place.path).Nodup) (hj : s[j]? = some p)
    (hp : p.among right = true) (i : Nat) :
    i ∈ siblingStarts (·.among left = true) (·.among right = true) s j ↔
      ∃ q, Combinator.nearestAfter left right s i = some q ∧ q.path = p.path := by
  simp only [Combinator.nearestAfter_eq_some_iff]
  constructor
  · rintro ⟨hij, ⟨q, hi, hq⟩, hbetween⟩
    exact ⟨p, ⟨hp, q, hi, hq, j, hij, hj, hbetween⟩, rfl⟩
  · rintro ⟨p', ⟨_, q, hi, hq, j', hij, hj', hbetween⟩, hpath⟩
    obtain rfl := getElem?_inj_of_path hs hj' hj hpath
    exact ⟨hij, ⟨q, hi, hq⟩, hbetween⟩

/-- **In one sequence, the sibling step lists a right match once for each start.** -/
theorem count_siblingsIn (hs : (s.map Place.path).Nodup) (hj : s[j]? = some p)
    (hp : p.among right = true) :
    ((Combinator.siblingsIn left right s).map Place.path).count p.path =
      (siblingStarts (·.among left = true) (·.among right = true) s j).ncard := by
  rw [Combinator.siblingsIn_eq, List.count_eq_countP, List.countP_map, List.countP_filterMap]
  refine countP_range_eq_ncard fun i => ?_
  rw [mem_siblingStarts_iff hs hj hp]
  constructor
  · rintro ⟨q, hq, hpath⟩
    obtain ⟨_, r, hr, _⟩ := Combinator.nearestAfter_eq_some_iff.1 hq
    exact ⟨(List.getElem?_eq_some_iff.1 hr).1, by simp [hq, hpath]⟩
  · rintro ⟨_, hq⟩
    cases h : Combinator.nearestAfter left right s i with
    | none => simp [h] at hq
    | some q => exact ⟨q, rfl, by simpa [h] using hq⟩

/-- What is picked from sequences without a common place is, at an item of one sequence, what is
picked from that one. -/
theorem count_flatMap_of_nodup {l : List (List Place)} {f : List Place → List Place}
    (hl : (l.flatten.map Place.path).Nodup) (hf : ∀ s, f s ⊆ s) (hs : s ∈ l) (hp : p ∈ s) :
    ((l.flatMap f).map Place.path).count p.path = ((f s).map Place.path).count p.path := by
  obtain ⟨before, after, rfl⟩ := List.append_of_mem hs
  have elsewhere : ∀ {l : List (List Place)}, p.path ∉ l.flatten.map Place.path →
      ((l.flatMap f).map Place.path).count p.path = 0 := by
    refine fun {l} h => List.count_eq_zero_of_not_mem fun hmem => h ?_
    obtain ⟨q, hq, hpath⟩ := List.mem_map.1 hmem
    obtain ⟨t, ht, hq⟩ := List.mem_flatMap.1 hq
    exact hpath ▸ List.mem_map_of_mem (List.mem_flatten.2 ⟨t, ht, hf t hq⟩)
  rw [List.flatten_append, List.flatten_cons, List.map_append, List.map_append, List.nodup_append',
    List.nodup_append'] at hl
  obtain ⟨_, ⟨_, _, hafter⟩, hbefore⟩ := hl
  have hpath : p.path ∈ s.map Place.path := List.mem_map_of_mem hp
  rw [List.flatMap_append, List.flatMap_cons, List.map_append, List.map_append, List.count_append,
    List.count_append, elsewhere (hafter hpath),
    elsewhere fun h => hbefore h (List.mem_append_left _ hpath)]
  omega

/-- The items that the sibling step picks are items of the sequence. -/
theorem siblingsIn_subset (left right s : List Place) : Combinator.siblingsIn left right s ⊆ s := by
  intro p hp
  obtain ⟨i, hi⟩ := Combinator.mem_siblingsIn_iff.1 hp
  obtain ⟨_, _, _, _, j, _, hj, _⟩ := Combinator.nearestAfter_eq_some_iff.1 hi
  exact List.mem_of_getElem? hj

end Count

/-! ## Selectors -/

namespace Selector

/-- What a selector matches as it is listed: paths, in order and with repeats. -/
def locations (document : Json) (S : Selector) : List Path :=
  (S.find (Place.root document)).map Place.path

/-- **The selectors whose matches are found along one walk**, whatever their operands match. -/
inductive FoundInWalk : Selector → Prop
  | identifier (name : String) : FoundInWalk (.identifier name)
  | attribute (name : String) (test : AttributeTest) : FoundInWalk (.attribute name test)
  | descendant (left right : Selector) : FoundInWalk (.combine .descendant left right)
  | child (left right : Selector) : FoundInWalk (.combine .child left right)

/-- The leftmost operand along the left operands of `both`: what the listing is filtered from. -/
def stem : Selector → Selector
  | .both left _ => left.stem
  | S => S

theorem FoundInWalk.sublist {S : Selector} (h : S.FoundInWalk) (root : Place) :
    S.find root <+ wildcard.find root := by
  cases h with
  | identifier name => exact List.filter_sublist
  | «attribute» name test => exact List.filter_sublist
  | descendant left right => exact findDescendants_sublist root _ _
  | child left right => exact findChildren_sublist root _ _

/-- The matches of both operands are the left matches whose path the right operand lists too. -/
theorem locations_both (document : Json) (left right : Selector) :
    (both left right).locations document =
      (left.locations document).filter (right.locations document).contains := by
  have hamong : Place.among (right.find (Place.root document)) =
      (right.locations document).contains ∘ Place.path := by
    funext p
    rw [Function.comp_apply, locations, List.contains_eq_any_beq, List.any_map]
    rfl
  rw [locations, find, hamong]
  exact List.filter_map.symm

/-- A match of both operands is listed as often as the left operand lists it. -/
theorem count_both (document : Json) (left right : Selector) {path : Path}
    (h : path ∈ right.locations document) :
    ((both left right).locations document).count path = (left.locations document).count path := by
  rw [locations_both]
  exact List.count_filter (List.contains_iff_mem.2 h)

section Keys

variable {document : Json} (hkeys : document.DistinctKeys)

include hkeys

theorem nodup_locations_of_sublist_nodes {S : Selector}
    (h : S.find (Place.root document) <+ nodes (Place.root document)) :
    (S.locations document).Nodup :=
  (nodup_nodes hkeys).sublist (h.map _)

theorem nodup_locations_of_sublist_items {S : Selector}
    (h : S.find (Place.root document) <+ (sequences (Place.root document)).flatten) :
    (S.locations document).Nodup :=
  (nodup_flatten_sequences hkeys).sublist (h.map _)

theorem FoundInWalk.nodup {S : Selector} (h : S.FoundInWalk) : (S.locations document).Nodup :=
  nodup_locations_of_sublist_nodes hkeys (h.sublist _)

/-- **How often the sibling combinator lists a right match**: once for each left match before it
in its sequence with no other right match in between. -/
theorem count_sibling (left right : Selector) {s : List Place} {j : Nat} {p : Place}
    (hs : Walked document s) (hj : s[j]? = some p) (hp : p ∈ right.find (Place.root document)) :
    ((combine .sibling left right).locations document).count p.path =
      (siblingStarts (· ∈ left.find (Place.root document)) (· ∈ right.find (Place.root document))
        s j).ncard := by
  have hmem := mem_sequences_iff.2 hs
  have hnodup := nodup_flatten_sequences hkeys
  have hnodup' : (s.map Place.path).Nodup :=
    hnodup.sublist ((List.sublist_flatten_of_mem hmem).map _)
  have hamong : ∀ (S : Selector) {k : Nat} {q : Place}, s[k]? = some q →
      (q.among (S.find (Place.root document)) = true ↔ q ∈ S.find (Place.root document)) :=
    fun S _ _ hq => hs.among_iff hkeys (S.reachedNodes_find hkeys) hq
  rw [locations, find, Combinator.relate,
    count_flatMap_of_nodup hnodup (siblingsIn_subset _ _) hmem (List.mem_of_getElem? hj),
    count_siblingsIn hnodup' hj ((hamong right hj).2 hp)]
  refine congrArg Set.ncard (Set.ext fun i => and_congr_right fun _ => and_congr ?_ ?_)
  · exact exists_congr fun q => and_congr_right fun hq => hamong left hq
  · exact forall_congr' fun k => forall_congr' fun r => imp_congr_right fun _ => imp_congr_right
      fun _ => imp_congr_right fun hr => not_congr (hamong right hr)

/-- **No repeats without a sibling step at the stem.** -/
theorem nodup_locations_of_stem : ∀ S : Selector,
    (∀ left right, S.stem ≠ .combine .sibling left right) → (S.locations document).Nodup
  | wildcard, _ => nodup_nodes hkeys
  | identifier name, _ => (FoundInWalk.identifier name).nodup hkeys
  | .attribute name test, _ => (FoundInWalk.attribute name test).nodup hkeys
  | nthChild literal, _ => nodup_locations_of_sublist_items hkeys (nthChild_sublist _ literal)
  | both left _, h => (nodup_locations_of_stem left h).sublist (List.filter_sublist.map _)
  | combine .descendant left right, _ => (FoundInWalk.descendant left right).nodup hkeys
  | combine .child left right, _ => (FoundInWalk.child left right).nodup hkeys
  | combine .sibling left right, h => absurd rfl (h left right)
  | combine .adjacent _ _, _ => nodup_locations_of_sublist_items hkeys (adjacent_sublist _ _ _)

end Keys

end Selector

/-- **In which order and how often selectors list places** of a document. -/
structure ListsInOrder (document : Json) : Prop where
  /-- `*` lists the reached nodes, each once and in pre-order. -/
  mem_wildcard : ∀ p, p ∈ Selector.wildcard.find (Place.root document) ↔
    Reached document p ∧ p.isNode = true
  nodup_wildcard : (Selector.wildcard.locations document).Nodup
  pairwise_wildcard :
    (Selector.wildcard.find (Place.root document)).Pairwise (Precedes document)
  /-- What is found along one walk is, in order, part of what `*` lists. -/
  walk_sublist : ∀ S : Selector, S.FoundInWalk →
    S.find (Place.root document) <+ Selector.wildcard.find (Place.root document)
  walk_nodup : ∀ S : Selector, S.FoundInWalk → (S.locations document).Nodup
  walk_pairwise : ∀ S : Selector, S.FoundInWalk →
    (S.find (Place.root document)).Pairwise (Precedes document)
  /-- Both operands: part of the left listing, in its order and with its repeats. -/
  both_sublist : ∀ left right : Selector,
    (Selector.both left right).find (Place.root document) <+ left.find (Place.root document)
  count_both : ∀ (left right : Selector) (path : Path), path ∈ right.locations document →
    ((Selector.both left right).locations document).count path =
      (left.locations document).count path
  /-- Positions and adjacent steps list no place twice. -/
  nodup_nthChild : ∀ literal : Literal, ((Selector.nthChild literal).locations document).Nodup
  nodup_adjacent : ∀ left right : Selector,
    ((Selector.combine .adjacent left right).locations document).Nodup
  /-- The sibling step lists a right match once for each start that leads to it. -/
  count_sibling : ∀ (left right : Selector) (s : List Place) (j : Nat) (p : Place),
    Walked document s → s[j]? = some p → p ∈ right.find (Place.root document) →
      ((Selector.combine .sibling left right).locations document).count p.path =
        (siblingStarts (· ∈ left.find (Place.root document))
          (· ∈ right.find (Place.root document)) s j).ncard
  /-- Only a sibling step at the stem can list a place twice. -/
  nodup_of_stem : ∀ S : Selector, (∀ left right, S.stem ≠ .combine .sibling left right) →
    (S.locations document).Nodup

theorem listsInOrder (document : Json) (hkeys : document.DistinctKeys) : ListsInOrder document := by
  have hpairwise : (Selector.wildcard.find (Place.root document)).Pairwise (Precedes document) := by
    rw [Selector.find, nodes_eq]
    exact (pairwise_reached _ (.root document)).filter _
  exact {
    mem_wildcard := fun _ => mem_nodes_iff
    nodup_wildcard := nodup_nodes hkeys
    pairwise_wildcard := hpairwise
    walk_sublist := fun _ h => h.sublist _
    walk_nodup := fun _ h => h.nodup hkeys
    walk_pairwise := fun _ h => hpairwise.sublist (h.sublist _)
    both_sublist := fun _ _ => List.filter_sublist
    count_both := fun left right _ h => Selector.count_both document left right h
    nodup_nthChild := fun literal =>
      Selector.nodup_locations_of_sublist_items hkeys (nthChild_sublist _ literal)
    nodup_adjacent := fun _ _ =>
      Selector.nodup_locations_of_sublist_items hkeys (adjacent_sublist _ _ _)
    count_sibling := fun left right _ _ _ hs hj hp =>
      Selector.count_sibling hkeys left right hs hj hp
    nodup_of_stem := Selector.nodup_locations_of_stem hkeys }

/-- The sample document, in which no object repeats a key, is one such document. -/
theorem listsInOrder_sampleDocument : ListsInOrder sampleDocument :=
  listsInOrder sampleDocument <| by
    simp [sampleDocument, Json.DistinctKeys, Json.DistinctKeysEntries, Json.DistinctKeysItems]

end TreeQuery
