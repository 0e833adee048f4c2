import TreeQuery.Proofs.Document.Refill
import TreeQuery.Proofs.Selector.Multiplicity
import TreeQuery.Proofs.Selector.Reading
import TreeQuery.Proofs.Token.Stream

/-!
# Proofs/Selector/Refill — selectors that are read from texts do not look into arrays

A property path may lead through an array by a position.  But the path of a property test is an
identifier token (`identifier_mem_of_derives`), identifiers have no digits, and a segment without
digits is no position.  So the property tests of a selector that a text denotes lead through objects
only, and pass or fail alike whatever items the arrays of a document have
(`tests_see_no_items`).

Only texts are so restricted: as a value, a selector may test any property path.
-/

namespace TreeQuery

open Grammar

namespace Selector

/-- **The property tests in a selector**, with the property paths that they test. -/
def tests : Selector → List (String × AttributeTest)
  | .combine _ left right | .both left right => left.tests ++ right.tests
  | .attribute name test => [(name, test)]
  | _ => []

end Selector

/-! ## Property paths are identifiers -/

section Names

variable {tokens : List Token} {S : Selector} {entry : String × AttributeTest}

theorem Grammar.IsPredicate.identifier_mem (h : IsPredicate tokens S) (hentry : entry ∈ S.tests) :
    .identifier entry.1 ∈ tokens := by
  cases h with
  | pseudo h => cases h <;> exact absurd hentry List.not_mem_nil
  | test h =>
    cases h with
    | present name =>
      obtain rfl := List.mem_singleton.1 hentry
      simp
    | equal name =>
      obtain rfl := List.mem_singleton.1 hentry
      simp

/-- A test of a term is one of the selector built before it, or its path is among the tokens. -/
theorem Grammar.IsTerm.identifier_mem {built : Option Selector} (h : IsTerm built tokens S)
    (hentry : entry ∈ S.tests) :
    (∃ left ∈ built, entry ∈ left.tests) ∨ .identifier entry.1 ∈ tokens := by
  have hjoined {built : Option Selector} {joined right : Selector}
      (hjoined : joined.tests = (built.elim [] Selector.tests) ++ right.tests)
      (hentry : entry ∈ joined.tests) : (∃ left ∈ built, entry ∈ left.tests) ∨
        entry ∈ right.tests := by
    rw [hjoined, List.mem_append] at hentry
    cases built with
    | none => exact .inr (hentry.resolve_left List.not_mem_nil)
    | some left => exact hentry.imp_left fun hleft => ⟨left, rfl, hleft⟩
  induction h with
  | wildcard | identifier => exact absurd hentry List.not_mem_nil
  | @operand built _ combinator tokens S _ _ ih =>
    have htests : (Selector.combineOnto combinator built S).tests =
        (built.elim [] Selector.tests) ++ S.tests := by cases built <;> rfl
    refine (hjoined htests hentry).imp_right fun hright => ?_
    obtain ⟨_, hnone, _⟩ | hmem := ih hright
    · exact absurd hnone (by simp)
    · exact List.mem_cons_of_mem _ hmem
  | @predicate built tokens S h =>
    have htests : (Selector.bothOnto built S).tests =
        (built.elim [] Selector.tests) ++ S.tests := by cases built <;> rfl
    exact (hjoined htests hentry).imp_right h.identifier_mem

theorem Grammar.IsTerms.identifier_mem {built result : Option Selector}
    (h : IsTerms built tokens result) (hS : S ∈ result) (hentry : entry ∈ S.tests) :
    (∃ left ∈ built, entry ∈ left.tests) ∨ .identifier entry.1 ∈ tokens := by
  induction h with
  | nil => exact .inl ⟨S, hS, hentry⟩
  | cons h _ ih =>
    rcases ih hS with ⟨_, ⟨⟩, hleft⟩ | hmem
    · exact (h.identifier_mem hleft).imp_right (List.mem_append_left _)
    · exact .inr (List.mem_append_right _ hmem)

/-- **The property paths of a selector that a text denotes name no positions.** -/
theorem namesNoPosition_of_parse {text : String} (h : parse text = .ok (some S))
    (hentry : entry ∈ S.tests) : NamesNoPosition entry.1 := by
  have hmem : .identifier entry.1 ∈ tokenize text :=
    ((parseTokens_eq_ok_iff.1 h).identifier_mem rfl hentry).resolve_left (by simp)
  exact namesNoPosition_of_isDigit fun c hc => (gapChar_of_mem_identifier hmem hc).notDigit

end Names

/-! ## Property tests outside of an array -/

section Tests

variable {name : String} {test : AttributeTest} {document other : Json} {p q : Path}

theorem mem_locations_attribute_iff : p ∈ (Selector.attribute name test).locations document ↔
    ∃ value, Reached document ⟨p, value⟩ ∧ value.isNode = true ∧
      test.passes (value.resolve? name) = true := by
  simp only [Selector.locations, Selector.find, List.mem_map, List.mem_filter, mem_nodes_iff]
  constructor
  · rintro ⟨⟨_, value⟩, ⟨⟨hreached, hnode⟩, hpasses⟩, rfl⟩
    exact ⟨value, hreached, hnode, hpasses⟩
  · rintro ⟨value, hreached, hnode, hpasses⟩
    exact ⟨⟨p, value⟩, ⟨⟨hreached, hnode⟩, hpasses⟩, rfl⟩

/-- A test that passes outside of an array passes there after the array is refilled. -/
theorem mem_locations_of_refilledAt (hname : NamesNoPosition name)
    (h : document.RefilledAt q other) (hout : ¬ q <+: p)
    (hp : p ∈ (Selector.attribute name test).locations document) :
    p ∈ (Selector.attribute name test).locations other := by
  obtain ⟨value, hreached, hnode, hpasses⟩ := mem_locations_attribute_iff.1 hp
  obtain ⟨⟨_, value'⟩, hreached', hrefilled⟩ := hreached.exists_refilled h hout
  obtain rfl : _ = p := hrefilled.path_eq
  refine mem_locations_attribute_iff.2 ⟨value', hreached', ?_, ?_⟩
  · exact hrefilled.isNode_eq.trans hnode
  · have hvalue : value.Refilled value' :=
      hrefilled.value.imp_right fun ⟨rest, _, hrest⟩ => ⟨rest, hrest⟩
    rw [hvalue.passes_eq hname, hpasses]

/-- **The property tests of a selector that a text denotes see no items.**  The path of a test that
leads anywhere leads through objects all the way, and where a node lies outside of an array, other
items in that array do not change whether the node passes. -/
theorem tests_see_no_items (text : String) {S : Selector} (h : parse text = .ok (some S))
    {name : String} {test : AttributeTest} (htest : (name, test) ∈ S.tests) :
    (∀ v w : Json, v.resolve? name = some w → ∀ k < (segments name.toList).length,
      ∃ entries, ((segments name.toList).take k).foldlM Json.segment? v = some (.object entries)) ∧
    ∀ (document other : Json) (q : Path), document.RefilledAt q other → ∀ p : Path, ¬ q <+: p →
      (p ∈ (Selector.attribute name test).locations other ↔
        p ∈ (Selector.attribute name test).locations document) := by
  have hname := namesNoPosition_of_parse h htest
  refine ⟨fun v w hw => Json.objects_of_foldlM hname hw, fun document other q hq p hout => ?_⟩
  exact ⟨mem_locations_of_refilledAt hname hq.symm hout, mem_locations_of_refilledAt hname hq hout⟩

/-- A function with a parameter. -/
def oneParameter : Json :=
  .object [("type", .string "F"), ("id", .object [("name", .string "f")]),
    ("params", .array [.object [("type", .string "P")]])]

/-- The same function without parameters. -/
def noParameters : Json :=
  .object [("type", .string "F"), ("id", .object [("name", .string "f")]), ("params", .array [])]

/-- The name of the function is found through the object `id`, and stays when the parameter goes. -/
theorem tests_see_no_items_parameters :
    parse "F[id.name=\"f\"]" = .ok (some (.both (.identifier "F")
      (.attribute "id.name" (.equal (.string "f"))))) ∧
    oneParameter.RefilledAt [.key "params"] noParameters ∧
    (∃ entries, ((segments "id.name".toList).take 1).foldlM Json.segment? oneParameter =
      some (.object entries)) ∧
    [] ∈ (Selector.attribute "id.name" (.equal (.string "f"))).locations noParameters := by
  have hparse : parse "F[id.name=\"f\"]" = .ok (some (.both (.identifier "F")
      (.attribute "id.name" (.equal (.string "f"))))) := by decide +kernel
  have htest : ("id.name", .equal (.string "f")) ∈ (Selector.both (.identifier "F")
      (.attribute "id.name" (.equal (.string "f")))).tests := List.mem_singleton.2 rfl
  have hrefilled : oneParameter.RefilledAt [.key "params"] noParameters :=
    .entry [("type", .string "F"), ("id", .object [("name", .string "f")])] [] (.array _ [])
  have hresolves : oneParameter.resolve? "id.name" = some (.string "f") := by rfl
  have hpasses :
      [] ∈ (Selector.attribute "id.name" (.equal (.string "f"))).locations oneParameter := by
    decide +kernel
  obtain ⟨hobjects, hother⟩ := tests_see_no_items _ hparse htest
  exact ⟨hparse, hrefilled, hobjects _ _ hresolves 1 (by decide),
    (hother _ _ _ hrefilled [] (by simp)).2 hpasses⟩

/-- A selector that no text denotes may look into an array. -/
example : (Selector.attribute "params.0" .present).locations oneParameter = [[]] ∧
    (Selector.attribute "params.0" .present).locations noParameters = [] := by
  decide +kernel

end Tests

end TreeQuery
