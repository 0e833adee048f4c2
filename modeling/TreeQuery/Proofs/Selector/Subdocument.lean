import TreeQuery.Proofs.Selector.Correspondence

/-!
# Proofs/Selector/Subdocument — a value searched alone and within a document

A value that the search reaches in a document can be searched as a document of its own.
`Place.under` says where its places lie in the whole, and the value embeds there
(`embeds_of_reached`).  So nothing that a selector read from a text matches in the part is lost in
the whole (`mem_find_under_of_parse`).
-/

open Relation

namespace TreeQuery

namespace Place

/-- Where a place of the value at `path` lies in the whole. -/
def under (path : Path) (p : Place) : Place :=
  ⟨path ++ p.path, p.value⟩

theorem under_injective (path : Path) : Function.Injective (under path) := by
  rintro ⟨p, v⟩ ⟨q, w⟩ h
  obtain ⟨hpath, hvalue⟩ := Place.mk.inj h
  exact congrArg₂ Place.mk (List.append_cancel_left hpath) hvalue

theorem under_root (p : Place) : under p.path (root p.value) = p := by
  simp [under, root]

theorem Holds.under {p q : Place} (h : p.Holds q) (path : Path) :
    (Place.under path p).Holds (Place.under path q) := by
  cases h with
  | item hi =>
    simp only [Place.under, ← List.append_assoc]
    exact .item hi
  | node hentry hnode =>
    simp only [Place.under, ← List.append_assoc]
    exact .node hentry hnode
  | propertyItem hentry hi =>
    simp only [Place.under, ← List.append_assoc]
    exact .propertyItem hentry hi

theorem map_under_items (path path' : Path) (items : List Json) :
    (⟨path', .array items⟩ : Place).items.map (under path) =
      (⟨path ++ path', .array items⟩ : Place).items := by
  refine map_items rfl fun i value value' hi hi' => ?_
  obtain rfl : value = value' := Option.some.inj (hi.symm.trans hi')
  simp [under]

end Place

section Part

variable {document : Json} {p q : Place} {s : List Place}

/-- What is reached in a part is reached in the whole. -/
theorem Reached.under (hp : Reached document p) (hq : Reached p.value q) :
    Reached document (q.under p.path) := by
  have hbelow : ReflTransGen Place.Holds ((Place.root p.value).under p.path) (q.under p.path) :=
    ReflTransGen.lift (Place.under p.path) (fun _ _ h => h.under p.path) _ _ hq
  rw [Place.under_root] at hbelow
  exact hp.trans hbelow

/-- The sequences that are walked in a part are walked in the whole. -/
theorem Walked.under (hp : Reached document p) (hs : Walked p.value s) :
    Walked document (s.map (Place.under p.path)) := by
  cases hs with
  | itself h =>
    rw [Place.map_under_items]
    exact .itself (hp.under h)
  | property h hentry =>
    rw [Place.map_under_items, ← List.append_assoc]
    exact .property (hp.under h) hentry

/-- **A reached value embeds in the document** at its place. -/
theorem embeds_of_reached (hp : Reached document p) :
    Embeds p.value document (Place.under p.path) where
  reached hq := hp.under hq
  holds _ h := h.under p.path
  walked hs := hs.under hp
  injective _ _ h := Place.under_injective _ h
  kind?_eq _ := rfl
  passes_eq _ _ _ := rfl

end Part

/-- **What a selector read from a text matches in a part of a document, it matches in the whole**,
at the same place. -/
theorem mem_find_under_of_parse (document : Json) (hkeys : document.DistinctKeys) {p : Place}
    (hp : p ∈ reached (Place.root document)) {text : String} {S : Selector}
    (hS : parse text = .ok (some S)) :
    ∀ q ∈ S.find (Place.root p.value), q.under p.path ∈ S.find (Place.root document) := by
  intro q hq
  have hp := mem_reached_root_iff.1 hp
  exact (embeds_of_reached hp).mem_find hkeys (Place.distinctKeys_of_below hp hkeys)
    (derives_of_parse hS).singleRight hq

/-- An `R` that holds the sample document twice, as a property and in a sequence. -/
def nestedDocument : Json :=
  .object [("type", .string "R"), ("only", sampleDocument), ("all", .array [.null, sampleDocument])]

/-- The `B` that `P > A ~ B` matches in the sample document alone is matched where the sample
document stands in the sequence of the nested one. -/
theorem mem_find_nestedDocument :
    parse "P > A ~ B" = .ok (some (.combine .sibling
      (.combine .child (.identifier "P") (.identifier "A")) (.identifier "B"))) ∧
    ⟨[.key "all", .index 1] ++ [.key "body", .index 3], .object [("type", .string "B")]⟩ ∈
      (Selector.combine .sibling (.combine .child (.identifier "P") (.identifier "A"))
        (.identifier "B")).find (Place.root nestedDocument) := by
  have hkeys : nestedDocument.DistinctKeys := by
    simp [nestedDocument, sampleDocument, Json.DistinctKeys, Json.DistinctKeysEntries,
      Json.DistinctKeysItems]
  have hp : ⟨[.key "all", .index 1], sampleDocument⟩ ∈ reached (Place.root nestedDocument) :=
    mem_reached_root_iff.2
      ((Reached.root _).tail (.propertyItem (.tail _ (.tail _ (.head _))) rfl))
  have hparse : parse "P > A ~ B" = .ok (some (.combine .sibling
      (.combine .child (.identifier "P") (.identifier "A")) (.identifier "B"))) := by decide +kernel
  exact ⟨hparse, mem_find_under_of_parse nestedDocument hkeys hp hparse
    ⟨[.key "body", .index 3], .object [("type", .string "B")]⟩ (List.mem_singleton.2 rfl)⟩

end TreeQuery
