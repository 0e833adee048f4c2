import TreeQuery.Proofs.Selector.Conjunction
import TreeQuery.Proofs.Selector.Reading
import TreeQuery.Query

/-!
# Proofs/Selector/NearestSibling — predicates after a sibling step

In a text such as `A ~ B[x]` the predicate is conjoined with the whole step.  So the step first
picks, for each `A` of a sequence, the nearest later `B`, and the predicate then keeps that `B` or
drops it: no later `B` takes its place (`query_sibling_predicates`).

Conjoined with the right operand, the predicate would be part of what is searched for.  That lists
at least as much, and the same only where no item that is dropped has a later one that would not be
(`filter_nearestLater_eq_iff`).
-/

open scoped List

namespace TreeQuery

/-! ## The nearest later item -/

/-- **The nearest later item** that passes `right`, if the item at an index passes `left`. -/
def laterOf (left right : Place → Bool) (s : List Place) (i : Nat) : Option Place :=
  if s[i]?.any left then (s.drop (i + 1)).find? right else none

/-- The nearest later item that passes `right` for each item that passes `left`, in the order of
those and once for each. -/
def nearestLater (left right : Place → Bool) (s : List Place) : List Place :=
  (List.range s.length).filterMap (laterOf left right s)

section NearestLater

variable {left left' right right' keep : Place → Bool} {s : List Place} {i : Nat} {p : Place}

theorem lt_length_of_laterOf (h : laterOf left right s i = some p) : i < s.length := by
  obtain ⟨hleft, _⟩ := Option.ite_none_right_eq_some.1 h
  obtain ⟨_, hi, _⟩ := (Option.any_eq_true ..).1 hleft
  exact (List.getElem?_eq_some_iff.1 hi).1

/-- The first item that passes two tests is the first to pass the second among those that pass the
first. -/
theorem find?_and (l : List Place) :
    (l.find? fun p => right p && keep p) = (l.filter right).find? keep := by
  simp only [List.find?_filter, Bool.decide_and, Bool.decide_eq_true]

/-- Only the items themselves are looked at. -/
theorem nearestLater_congr (hleft : ∀ p ∈ s, left p = left' p)
    (hright : ∀ p ∈ s, right p = right' p) :
    nearestLater left right s = nearestLater left' right' s := by
  refine List.filterMap_congr fun i hi => ?_
  have hi : i < s.length := List.mem_range.1 hi
  have hdrop : (s.drop (i + 1)).find? right = (s.drop (i + 1)).find? right' := by
    rw [← List.head?_filter, ← List.head?_filter,
      List.filter_congr fun p hp => hright p (List.mem_of_mem_drop hp)]
  rw [laterOf, laterOf, List.getElem?_eq_getElem hi, Option.any_some, Option.any_some,
    hleft _ (List.getElem_mem hi), hdrop]

/-! ## Picking first and testing then -/

/-- What is left of a picked item that is tested afterwards is what the test would have picked. -/
theorem filter_laterOf_sublist (left right keep : Place → Bool) (s : List Place) (i : Nat) :
    ((laterOf left right s i).filter keep).toList <+
      (laterOf left (fun p => right p && keep p) s i).toList := by
  rw [laterOf, laterOf, find?_and, ← List.head?_filter]
  split
  · match (s.drop (i + 1)).filter right with
    | [] => exact .slnil
    | p :: _ => by_cases h : keep p = true <;> simp [h, Option.filter]
  · exact .slnil

/-- The two agree unless the picked item fails the test and a later one passes both. -/
theorem filter_laterOf_eq_iff (left right keep : Place → Bool) (s : List Place) (i : Nat) :
    (laterOf left right s i).filter keep = laterOf left (fun p => right p && keep p) s i ↔
      ∀ p, laterOf left right s i = some p →
        (∃ q ∈ s.drop (i + 1), right q = true ∧ keep q = true) → keep p = true := by
  have hmem : (∃ q ∈ s.drop (i + 1), right q = true ∧ keep q = true) ↔
      ∃ q ∈ (s.drop (i + 1)).filter right, keep q = true := by
    simp only [List.mem_filter, and_assoc]
  rw [laterOf, laterOf, find?_and, hmem, ← List.head?_filter]
  split
  · match (s.drop (i + 1)).filter right with
    | [] => simp
    | p :: _ => by_cases h : keep p = true <;> simp [h, Option.filter, eq_comm (a := none)]
  · simp

theorem filter_nearestLater (left right keep : Place → Bool) (s : List Place) :
    (nearestLater left right s).filter keep =
      (List.range s.length).flatMap fun i => ((laterOf left right s i).filter keep).toList := by
  rw [nearestLater, List.filter_filterMap, List.filterMap_eq_flatMap_toList]

/-- **Picking first and testing then lists no more** than picking what passes the test. -/
theorem filter_nearestLater_sublist (left right keep : Place → Bool) (s : List Place) :
    (nearestLater left right s).filter keep <+
      nearestLater left (fun p => right p && keep p) s := by
  rw [filter_nearestLater, nearestLater, List.filterMap_eq_flatMap_toList]
  exact .flatMap_right _ fun i _ => filter_laterOf_sublist left right keep s i

/-- Lists that are parts of others, piece by piece, are equal to them only piece by piece. -/
theorem flatMap_eq_iff_of_sublist {α : Type} {f g : α → List Place} : ∀ {l : List α},
    (∀ a ∈ l, f a <+ g a) → (l.flatMap f = l.flatMap g ↔ ∀ a ∈ l, f a = g a)
  | [], _ => by simp
  | a :: l, h => by
    obtain ⟨ha, hl⟩ := List.forall_mem_cons.1 h
    rw [List.flatMap_cons, List.flatMap_cons, List.forall_mem_cons, ← flatMap_eq_iff_of_sublist hl]
    refine ⟨fun heq => ?_, fun ⟨hhead, hrest⟩ => by rw [hhead, hrest]⟩
    -- neither piece is longer than its counterpart, so neither is shorter
    have hlength := congrArg List.length heq
    have hrest := (List.Sublist.flatMap_right l hl).length_le
    rw [List.length_append, List.length_append] at hlength
    exact List.append_inj heq (Nat.le_antisymm ha.length_le (by omega))

/-- **When it lists the same**: no picked item fails the test while a later one would pass. -/
theorem filter_nearestLater_eq_iff (left right keep : Place → Bool) (s : List Place) :
    (nearestLater left right s).filter keep = nearestLater left (fun p => right p && keep p) s ↔
      ∀ i p, laterOf left right s i = some p →
        (∃ q ∈ s.drop (i + 1), right q = true ∧ keep q = true) → keep p = true := by
  rw [filter_nearestLater, nearestLater, List.filterMap_eq_flatMap_toList,
    flatMap_eq_iff_of_sublist fun i _ => filter_laterOf_sublist left right keep s i]
  constructor
  · intro h i p hp
    have hpiece := h i (List.mem_range.2 (lt_length_of_laterOf hp))
    exact (filter_laterOf_eq_iff left right keep s i).1
      (by simpa using congrArg List.head? hpiece) p hp
  · exact fun h i _ => congrArg _ ((filter_laterOf_eq_iff left right keep s i).2 (h i))

end NearestLater

/-! ## Sibling steps -/

/-- Whether a place is a node of a kind. -/
def Place.hasKind (kind : String) (p : Place) : Bool :=
  p.kind? == some kind

namespace Selector

variable {document : Json} (hkeys : document.DistinctKeys) {p : Place}

include hkeys

/-- Among the matches of a kind are, of what is reached, the nodes of that kind. -/
theorem among_find_identifier (hp : Reached document p) (kind : String) :
    p.among ((identifier kind).find (Place.root document)) = p.hasKind kind := by
  rw [Bool.eq_iff_iff,
    Place.among_iff hkeys ((identifier kind).reachedNodes_find hkeys) hp, find, List.mem_filter,
    mem_nodes_iff]
  refine ⟨fun h => h.2, fun h => ⟨⟨hp, ?_⟩, h⟩⟩
  rw [Place.isNode, Json.isNode, ← Place.kind?, beq_iff_eq.1 h]
  rfl

/-- **A sibling step from one kind lists, sequence by sequence, the nearest later match** of its
right operand. -/
theorem find_sibling_identifier (kind : String) (right : Selector) (f : Place → Bool)
    (hright : ∀ p, Reached document p → p.among (right.find (Place.root document)) = f p) :
    (combine .sibling (identifier kind) right).find (Place.root document) =
      (sequences (Place.root document)).flatMap (nearestLater (Place.hasKind kind) f) := by
  rw [find, Combinator.relate]
  refine List.flatMap_congr fun s hs => ?_
  have hs := mem_sequences_iff.1 hs
  rw [Combinator.siblingsIn_eq]
  exact nearestLater_congr
    (fun p hp => among_find_identifier hkeys (hs.reached hp) kind)
    fun p hp => hright p (hs.reached hp)

/-- With predicates conjoined, what is searched for is the nearest later node of a kind that all of
them match. -/
theorem find_sibling_withAll (left right : String) (predicates : List Selector) :
    (combine .sibling (identifier left) (withAll predicates (identifier right))).find
        (Place.root document) =
      (sequences (Place.root document)).flatMap (nearestLater (Place.hasKind left) fun p =>
        p.hasKind right && matchedByAll (Place.root document) predicates p) := by
  refine find_sibling_identifier hkeys left _ _ fun p hp => ?_
  rw [find_withAll, Place.among_filter fun _ _ h => matchedByAll_congr _ predicates h,
    among_find_identifier hkeys hp]

end Selector

/-! ## Texts -/

section Texts

open Grammar

variable {text left right : String} {tokens : List Token} {predicates : List Selector}

/-- A kind, `~`, a kind and predicates: the predicates are conjoined with the step. -/
theorem parse_sibling_predicates
    (htext : tokenize text = .identifier left :: .operator "~" :: .identifier right :: tokens)
    (hpredicates : IsTails tokens (predicates.map .predicate)) :
    parse text = .ok (some (Selector.withAll predicates
      (.combine .sibling (.identifier left) (.identifier right)))) := by
  have htails : IsTails (.operator "~" :: .identifier right :: tokens)
      (.joined .sibling (.identifier right) :: predicates.map .predicate) :=
    .cons (.joined .sibling (.atom (.identifier right))) hpredicates
  have hderives : Derives (tokenize text) (Selector.withAll predicates
      (.combine .sibling (.identifier left) (.identifier right))) := by
    refine ⟨[.identifier left], _, _, _, htext, .atom (.identifier left), htails, ?_⟩
    rw [List.foldl_cons, List.foldl_map]
    rfl
  exact parseTokens_eq_ok_iff.2 (isTerms_none_iff.2 (.inr ⟨_, rfl, hderives⟩))

/-- **Predicates after a sibling step** keep or drop what the step picks: for each node of the first
kind the nearest later node of the second kind in its sequence, if all predicates match it.

With the predicates conjoined to the second kind the step lists the same and perhaps more; the same
exactly if no picked node that they drop has a later one that they match. -/
theorem query_sibling_predicates (document : Json) (hkeys : document.DistinctKeys)
    (htext : tokenize text = .identifier left :: .operator "~" :: .identifier right :: tokens)
    (hpredicates : IsTails tokens (predicates.map .predicate)) :
    ∃ found, query document text = .ok found ∧
      found = ((sequences (Place.root document)).flatMap
        (nearestLater (Place.hasKind left) (Place.hasKind right))).filter
          (Selector.matchedByAll (Place.root document) predicates) ∧
      found = (Selector.withAll predicates
        (.combine .sibling (.identifier left) (.identifier right))).find (Place.root document) ∧
      found <+ (Selector.combine .sibling (.identifier left)
        (Selector.withAll predicates (.identifier right))).find (Place.root document) ∧
      (found = (Selector.combine .sibling (.identifier left)
          (Selector.withAll predicates (.identifier right))).find (Place.root document) ↔
        ∀ s, Walked document s → ∀ i p,
          laterOf (Place.hasKind left) (Place.hasKind right) s i = some p →
          (∃ q ∈ s.drop (i + 1), q.hasKind right = true ∧
            Selector.matchedByAll (Place.root document) predicates q = true) →
          Selector.matchedByAll (Place.root document) predicates p = true) := by
  have hstep := Selector.find_sibling_identifier hkeys left (.identifier right)
    (Place.hasKind right) fun p hp => Selector.among_find_identifier hkeys hp right
  have hquery : query document text = .ok ((Selector.withAll predicates
      (.combine .sibling (.identifier left) (.identifier right))).find (Place.root document)) := by
    rw [query, parse_sibling_predicates htext hpredicates]
    rfl
  refine ⟨_, hquery, ?_⟩
  rw [Selector.find_sibling_withAll hkeys, Selector.find_withAll, hstep,
    List.filter_flatMap]
  refine ⟨rfl, rfl, .flatMap_right _ fun s _ => filter_nearestLater_sublist _ _ _ s, ?_⟩
  rw [flatMap_eq_iff_of_sublist fun s _ => filter_nearestLater_sublist _ _ _ s]
  simp only [filter_nearestLater_eq_iff, mem_sequences_iff]

end Texts

/-- Two sequences with an `A` and a later `B` that has an `x`; in the second one another `B` stands
between them. -/
def nearAndFar : Json :=
  .object [("type", .string "P"),
    ("near", .array [.object [("type", .string "A")],
      .object [("type", .string "B"), ("x", .null)]]),
    ("far", .array [.object [("type", .string "A")], .object [("type", .string "B")],
      .object [("type", .string "B"), ("x", .null)]])]

/-- Of the two nearest `B`s, the one that has an `x` and is the last of its sequence is kept. -/
theorem query_sibling_nearAndFar :
    nearAndFar.DistinctKeys ∧
    tokenize "A ~ B[x]:last-child" = [.identifier "A", .operator "~", .identifier "B",
      .operator "[", .identifier "x", .operator "]", .operator ":", .keyword "last-child"] ∧
    ∃ found, query nearAndFar "A ~ B[x]:last-child" = .ok found ∧
      found = [⟨[.key "near", .index 1], .object [("type", .string "B"), ("x", .null)]⟩] := by
  have hkeys : nearAndFar.DistinctKeys := by
    simp [nearAndFar, Json.DistinctKeys, Json.DistinctKeysEntries, Json.DistinctKeysItems]
  have htext : tokenize "A ~ B[x]:last-child" = [.identifier "A", .operator "~", .identifier "B",
      .operator "[", .identifier "x", .operator "]", .operator ":", .keyword "last-child"] := by
    decide +kernel
  have hpredicates : Grammar.IsTails
      [.operator "[", .identifier "x", .operator "]", .operator ":", .keyword "last-child"]
      ([.attribute "x" .present, .lastChild].map .predicate) :=
    .cons (.predicate (.test (.present "x"))) (.cons (.predicate (.pseudo .lastChild)) .nil)
  obtain ⟨found, hquery, hfound, _⟩ := query_sibling_predicates nearAndFar hkeys htext hpredicates
  exact ⟨hkeys, htext, found, hquery, hfound⟩

/-- The far `B` has an `x` and is the nearest that has one, but it is not the nearest `B`: the step
picks the other, and the test drops that. -/
theorem query_nearAndFar :
    tokenize "A ~ B[x]" = [.identifier "A", .operator "~", .identifier "B", .operator "[",
      .identifier "x", .operator "]"] ∧
    query nearAndFar "A ~ B[x]" =
      .ok [⟨[.key "near", .index 1], .object [("type", .string "B"), ("x", .null)]⟩] ∧
    (sequences (Place.root nearAndFar)).flatMap (nearestLater (Place.hasKind "A") fun p =>
        p.hasKind "B" &&
          Selector.matchedByAll (Place.root nearAndFar) [.attribute "x" .present] p) =
      [⟨[.key "near", .index 1], .object [("type", .string "B"), ("x", .null)]⟩,
        ⟨[.key "far", .index 2], .object [("type", .string "B"), ("x", .null)]⟩] ∧
    (Selector.combine .sibling (.identifier "A")
        (.both (.identifier "B") (.attribute "x" .present))).find (Place.root nearAndFar) =
      [⟨[.key "near", .index 1], .object [("type", .string "B"), ("x", .null)]⟩,
        ⟨[.key "far", .index 2], .object [("type", .string "B"), ("x", .null)]⟩] ∧
    query nearAndFar "A ~ B[x]" ≠ .ok ((Selector.combine .sibling (.identifier "A")
      (.both (.identifier "B") (.attribute "x" .present))).find (Place.root nearAndFar)) := by
  have hparse : parse "A ~ B[x]" = .ok (some (.both (.combine .sibling (.identifier "A")
      (.identifier "B")) (.attribute "x" .present))) := by decide +kernel
  have hquery : query nearAndFar "A ~ B[x]" =
      .ok [⟨[.key "near", .index 1], .object [("type", .string "B"), ("x", .null)]⟩] := by
    rw [query, hparse]
    rfl
  refine ⟨by decide +kernel, hquery, rfl, rfl, fun heq => ?_⟩
  have hlength := congrArg List.length (Except.ok.inj (hquery.symm.trans heq))
  exact absurd hlength (by decide)

end TreeQuery
