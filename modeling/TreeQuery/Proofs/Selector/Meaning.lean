import TreeQuery.Proofs.Document.Context
import TreeQuery.Proofs.Document.Distinct
import TreeQuery.Proofs.Selector.Position
import TreeQuery.Proofs.Selector.Sequence

/-!
# Proofs/Selector/Meaning — a selector matches what it means

`Selector.Matches` says which places of a document a selector means, without walks, lists or
contexts: terms speak of one reached node, combinators of two that lie above one another, hold one
another or stand in one walked sequence.  `mem_find_iff_matches` is the main statement: the places
that `Selector.find` lists are those.

`Combinator.mem_relate_iff` is the same for one combinator and any two lists of reached nodes; the
theorem on selectors is an induction over it.
-/

open Relation

namespace TreeQuery

/-! ## The meaning of a selector -/

/-- Whether a value passes a test. -/
def AttributeTest.PassedBy (value : Json) : AttributeTest → Prop
  | .present => True
  | .equal literal => (Scalar.ofJson value).equals literal = true

/-- **Which right matches a combinator keeps**, given what matches on either side: those that some
left match lies above; that some left match holds directly; that are the nearest right match after
some left match in a walked sequence; that come right after a left match in a walked sequence. -/
def Combinator.Relates (document : Json) (left right : Place → Prop) (p : Place) :
    Combinator → Prop
  | .descendant => right p ∧ ∃ q, left q ∧ q.Above p
  | .child => right p ∧ ∃ q, left q ∧ q.Holds p
  | .sibling => right p ∧ ∃ s, Walked document s ∧ ∃ i j : Nat, ∃ q, i < j ∧ s[i]? = some q ∧
      s[j]? = some p ∧ left q ∧ ∀ k r, i < k → k < j → s[k]? = some r → ¬ right r
  | .adjacent => right p ∧ ∃ s, Walked document s ∧ ∃ i : Nat, ∃ q, s[i]? = some q ∧
      s[i + 1]? = some p ∧ left q

/-- **The places that a selector means** in a document. -/
def Selector.Matches (document : Json) : Selector → Place → Prop
  | .wildcard, p => Reached document p ∧ p.isNode = true
  | .identifier name, p => Reached document p ∧ p.kind? = some name
  | .combine combinator left right, p =>
    combinator.Relates document (left.Matches document) (right.Matches document) p
  | .both left right, p => left.Matches document p ∧ right.Matches document p
  | .nthChild literal, p => p.isNode = true ∧ ∃ position, literal.Denotes position ∧
      ∃ s, Walked document s ∧ ∃ i : Nat, s[i]? = some p ∧ (i : Int) = placeOf position s.length
  | .attribute name test, p => Reached document p ∧ p.isNode = true ∧
      ∃ value, p.value.resolve? name = some value ∧ test.PassedBy value

/-! ## Combinators, on any two lists of reached nodes -/

/-- Whether a list holds reached nodes only, as the matches of a selector do. -/
def ReachedNodes (document : Json) (places : List Place) : Prop :=
  ∀ p ∈ places, Reached document p ∧ p.isNode = true

section Relate

variable {document : Json} (hkeys : document.DistinctKeys) {left right : List Place} {p : Place}

include hkeys

/-- **Among reached nodes, a place is found by identity.** -/
theorem Place.among_iff (hright : ReachedNodes document right) (hp : Reached document p) :
    p.among right = true ↔ p ∈ right := by
  rw [Place.among, List.any_eq_true]
  constructor
  · rintro ⟨q, hq, hsame⟩
    rwa [(isSame_iff hkeys hp (hright q hq).1).1 hsame]
  · exact fun h => ⟨p, h, (isSame_iff hkeys hp hp).2 rfl⟩

/-- An item of a walked sequence is found by identity. -/
theorem Walked.among_iff {s : List Place} {k : Nat} (hs : Walked document s)
    (hright : ReachedNodes document right) (hp : s[k]? = some p) :
    p.among right = true ↔ p ∈ right :=
  Place.among_iff hkeys hright (hs.reached (List.mem_of_getElem? hp))

theorem mem_findDescendants_iff (hleft : ReachedNodes document left)
    (hright : ReachedNodes document right) :
    p ∈ Combinator.findDescendants (Place.root document) left right ↔
      p ∈ right ∧ ∃ q, q ∈ left ∧ q.Above p := by
  have hfind : p ∈ Combinator.findDescendants (Place.root document) left right ↔
      (p, true) ∈ contexts (markBelow (Place.among left)) false (Place.root document) ∧
        p.among right = true := by
    simp [Combinator.findDescendants]
  rw [hfind, mem_contexts_iff, handed_markBelow_iff]
  constructor
  · rintro ⟨⟨_, q, hq, _, hmark, hqp⟩, hp⟩
    exact ⟨(Place.among_iff hkeys hright (hq.trans hqp.to_reflTransGen)).1 hp, q,
      (Place.among_iff hkeys hleft hq).1 hmark, hqp⟩
  · rintro ⟨hp, q, hq, hqp⟩
    obtain ⟨hp', hnode⟩ := hright p hp
    obtain ⟨hq', hqnode⟩ := hleft q hq
    exact ⟨⟨hnode, q, hq', hqnode, (Place.among_iff hkeys hleft hq').2 hq, hqp⟩,
      (Place.among_iff hkeys hright hp').2 hp⟩

theorem mem_findChildren_iff (hleft : ReachedNodes document left)
    (hright : ReachedNodes document right) :
    p ∈ Combinator.findChildren (Place.root document) left right ↔
      p ∈ right ∧ ∃ q, q ∈ left ∧ q.Holds p := by
  have hfind : p ∈ Combinator.findChildren (Place.root document) left right ↔
      ∃ q, (p, some q) ∈ contexts (nearestMarked (Place.among left)) none (Place.root document) ∧
        p.among right = true ∧ q.holds p = true := by
    simp only [Combinator.findChildren, List.mem_filterMap, Prod.exists]
    constructor
    · rintro ⟨r, above, hmem, h⟩
      cases above with
      | none => simp at h
      | some q =>
        obtain ⟨hcond, hr⟩ := Option.ite_none_right_eq_some.1 h
        obtain rfl := Option.some.inj hr
        exact ⟨q, hmem, by simpa using hcond⟩
    · rintro ⟨q, hmem, hp, hq⟩
      exact ⟨p, some q, hmem, by simp [hp, hq]⟩
  rw [hfind]
  constructor
  · rintro ⟨q, hmem, hp, hholds⟩
    obtain ⟨_, hhanded⟩ := mem_contexts_iff.1 hmem
    obtain ⟨hq, _, hmark⟩ := (hhanded.above_of_nearestMarked rfl).resolve_left (by simp)
    have hp' : Reached document p := hhanded.below_or_same
    exact ⟨(Place.among_iff hkeys hright hp').1 hp, q, (Place.among_iff hkeys hleft hq).1 hmark,
      (Place.holds_iff hkeys hq hp').1 hholds⟩
  · rintro ⟨hp, q, hq, hqp⟩
    obtain ⟨hp', hnode⟩ := hright p hp
    obtain ⟨hq', hqnode⟩ := hleft q hq
    exact ⟨q, mem_contexts_iff.2 ⟨hnode, .nearestMarked_of_holds hq' hqnode
        ((Place.among_iff hkeys hleft hq').2 hq) hqp⟩,
      (Place.among_iff hkeys hright hp').2 hp, (Place.holds_iff hkeys hq' hp').2 hqp⟩

/-- **What a combinator lists is what it relates**, for any reached nodes on either side. -/
theorem Combinator.mem_relate_iff (combinator : Combinator) (hleft : ReachedNodes document left)
    (hright : ReachedNodes document right) :
    p ∈ combinator.relate (Place.root document) left right ↔
      combinator.Relates document (· ∈ left) (· ∈ right) p := by
  cases combinator with
  | descendant => exact mem_findDescendants_iff hkeys hleft hright
  | child => exact mem_findChildren_iff hkeys hleft hright
  | sibling =>
    simp only [relate, Relates, List.mem_flatMap, mem_sequences_iff, mem_siblingsIn_iff,
      nearestAfter_eq_some_iff]
    constructor
    · rintro ⟨s, hs, i, hp, q, hi, hq, j, hij, hj, hbetween⟩
      refine ⟨(hs.among_iff hkeys hright hj).1 hp, s, hs, i, j, q, hij, hi, hj,
        (hs.among_iff hkeys hleft hi).1 hq, fun k r hik hkj hr hmem => ?_⟩
      exact hbetween k r hik hkj hr ((hs.among_iff hkeys hright hr).2 hmem)
    · rintro ⟨hp, s, hs, i, j, q, hij, hi, hj, hq, hbetween⟩
      refine ⟨s, hs, i, (hs.among_iff hkeys hright hj).2 hp, q, hi,
        (hs.among_iff hkeys hleft hi).2 hq, j, hij, hj, fun k r hik hkj hr hmem => ?_⟩
      exact hbetween k r hik hkj hr ((hs.among_iff hkeys hright hr).1 hmem)
  | adjacent =>
    simp only [relate, Relates, List.mem_flatMap, mem_sequences_iff, mem_adjacentIn_iff]
    constructor
    · rintro ⟨s, hs, hp, i, q, hi, hnext, hq⟩
      exact ⟨(hs.among_iff hkeys hright hnext).1 hp, s, hs, i, q, hi, hnext,
        (hs.among_iff hkeys hleft hi).1 hq⟩
    · rintro ⟨hp, s, hs, i, q, hi, hnext, hq⟩
      exact ⟨s, hs, (hs.among_iff hkeys hright hnext).2 hp, i, q, hi, hnext,
        (hs.among_iff hkeys hleft hi).2 hq⟩

end Relate

/-! ## Selectors -/

/-- A position lists what it picks from the walked sequences. -/
theorem Selector.mem_find_nthChild_iff {document : Json} {literal : Literal} {p : Place} :
    p ∈ (nthChild literal).find (Place.root document) ↔
      ∃ index, literal.index? = some index ∧ ∃ s, Walked document s ∧ nthIn index s = some p := by
  rw [find]
  cases literal.index? with
  | none => simp
  | some index => simp [mem_sequences_iff]

/-- Selectors match reached nodes only. -/
theorem Selector.reachedNodes_find {document : Json} (hkeys : document.DistinctKeys)
    (S : Selector) : ReachedNodes document (S.find (Place.root document)) := by
  induction S with
  | wildcard => exact fun p => mem_nodes_iff.1
  | identifier name => exact fun p hp => mem_nodes_iff.1 (List.mem_of_mem_filter hp)
  | combine combinator left right ihl ihr =>
    intro p hp
    have h := (combinator.mem_relate_iff hkeys ihl ihr).1 hp
    cases combinator <;> exact ihr p h.1
  | both left right ihl _ => exact fun p hp => ihl p (List.mem_of_mem_filter hp)
  | nthChild literal =>
    intro p hp
    obtain ⟨_, _, s, hs, hnth⟩ := mem_find_nthChild_iff.1 hp
    obtain ⟨hmem, hnode⟩ := mem_and_isNode_of_nthIn hnth
    exact ⟨hs.reached hmem, hnode⟩
  | «attribute» name test => exact fun p hp => mem_nodes_iff.1 (List.mem_of_mem_filter hp)

/-- Whether the document is one that memory can hold: the keys of every object are distinct, as in
all that is read (`Json.distinctKeys_of_read?`), and 64 bits, sign included, count the items of
every walked sequence. -/
structure Json.WellFormed (document : Json) : Prop where
  distinctKeys : document.DistinctKeys
  length_lt : ∀ s, Walked document s → s.length < 2 ^ 63

/-- **A selector matches exactly what it means.** -/
theorem Selector.mem_find_iff_matches (document : Json) (h : document.WellFormed) (S : Selector)
    (p : Place) : p ∈ S.find (Place.root document) ↔ S.Matches document p := by
  have hkeys := h.distinctKeys
  induction S generalizing p with
  | wildcard => exact mem_nodes_iff
  | identifier name =>
    rw [find, List.mem_filter, mem_nodes_iff, beq_iff_eq, and_assoc]
    refine and_congr_right fun _ => and_iff_right_of_imp fun hkind => ?_
    rw [Place.isNode, Json.isNode, ← Place.kind?, hkind]
    rfl
  | combine combinator left right ihl ihr =>
    rw [find, combinator.mem_relate_iff hkeys (left.reachedNodes_find hkeys)
      (right.reachedNodes_find hkeys), Matches, funext fun p => propext (ihl p),
      funext fun p => propext (ihr p)]
  | both left right ihl ihr =>
    rw [find, List.mem_filter, Matches]
    refine (and_congr_right fun hp => ?_).trans (and_congr (ihl p) (ihr p))
    exact Place.among_iff hkeys (right.reachedNodes_find hkeys)
      (left.reachedNodes_find hkeys p hp).1
  | nthChild literal =>
    rw [mem_find_nthChild_iff, Matches]
    constructor
    · rintro ⟨_, hindex, s, hs, hnth⟩
      obtain ⟨position, hposition, rfl⟩ := Literal.index?_eq_some_iff.1 hindex
      obtain ⟨hnode, hi⟩ := (nthIn_ofIntClamp (h.length_lt s hs)).1 hnth
      exact ⟨hnode, position, hposition, s, hs, hi⟩
    · rintro ⟨hnode, position, hposition, s, hs, hi⟩
      have hindex := Literal.index?_eq_some_iff.2 ⟨position, hposition, rfl⟩
      exact ⟨_, hindex, s, hs, (nthIn_ofIntClamp (h.length_lt s hs)).2 ⟨hnode, hi⟩⟩
  | «attribute» name test =>
    rw [find, List.mem_filter, mem_nodes_iff, and_assoc, Matches]
    refine and_congr_right fun _ => and_congr_right fun _ => ?_
    cases test <;> cases p.value.resolve? name <;>
      simp [AttributeTest.passes, AttributeTest.PassedBy]

/-- A `P` whose body is an `A`, a scalar and, in an array of its own, a `B`, and then a `B`. -/
def sampleDocument : Json :=
  .object [("type", .string "P"), ("body", .array [.object [("type", .string "A")], .null,
    .array [.object [("type", .string "B")]], .object [("type", .string "B")]])]

/-- The `B` that comes after the `A` matches `A ~ P > B`: the one in the inner array is no
sibling. -/
theorem Selector.matches_sampleDocument :
    (Selector.combine .sibling (.identifier "A")
      (.combine .child (.identifier "P") (.identifier "B"))).Matches sampleDocument
        ⟨[.key "body", .index 3], .object [("type", .string "B")]⟩ := by
  have hkeys : sampleDocument.DistinctKeys := by
    simp [sampleDocument, Json.DistinctKeys, Json.DistinctKeysEntries, Json.DistinctKeysItems]
  have hlength : (sequences (Place.root sampleDocument)).all (·.length < 2 ^ 63) = true := by rfl
  refine (Selector.mem_find_iff_matches sampleDocument ⟨hkeys, fun s hs => ?_⟩ _ _).1 ?_
  · simpa using List.all_eq_true.1 hlength s (mem_sequences_iff.2 hs)
  · exact List.mem_singleton.2 rfl

end TreeQuery
