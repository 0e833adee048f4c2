import TreeQuery.Proofs.Json.Mirror

/-!
# Proofs/Document/Mirror — what a walk meets in a reversed document

Each place of a document has a mirror image in the reversed document (`Place.mirrored`).  What a
value holds, its image holds the image of (`Place.Holds.mirrored`), so the walk reaches the images
of what it reaches, and the sequences that it meets there are those of the images, each in reverse
(`Walked.mirrored`).
-/

namespace TreeQuery

variable {document : Json} {p q : Place} {path : Path}

namespace Place

/-! ## The image of a place -/

/-- A place lies in a document: its path leads to its value there. -/
def LiesIn (document : Json) (p : Place) : Prop :=
  document.at? p.path = some p.value

/-- **The image of a place** in the reversed document. -/
def mirrored (document : Json) (p : Place) : Place :=
  ⟨document.mirrorPath p.path, p.value.mirror⟩

theorem mirrored_array (document : Json) (path : Path) (items : List Json) :
    mirrored document ⟨path, .array items⟩ =
      ⟨document.mirrorPath path, .array (items.map Json.mirror).reverse⟩ := by
  rw [mirrored, Json.mirror_array]

theorem mirrored_object (document : Json) (path : Path) (entries : Entries) :
    mirrored document ⟨path, .object entries⟩ = ⟨document.mirrorPath path,
      .object (entries.map fun entry => (entry.1, entry.2.mirror))⟩ := by
  rw [mirrored, Json.mirror_object]

theorem isNode_mirrored (document : Json) (p : Place) : (p.mirrored document).isNode = p.isNode :=
  p.value.isNode_mirror

theorem LiesIn.image (h : p.LiesIn document) : (p.mirrored document).LiesIn document.mirror :=
  Json.at?_mirrorPath h

/-- **The image of the image is the place itself.** -/
theorem LiesIn.mirrored_mirrored (h : p.LiesIn document) :
    (p.mirrored document).mirrored document.mirror = p := by
  obtain ⟨path, value⟩ := p
  rw [mirrored, mirrored, Json.mirror_mirror, Json.mirrorPath_mirrorPath h]

/-- The image of what lies one step further. -/
theorem LiesIn.mirrored_append {container : Json} (h : LiesIn document ⟨path, container⟩)
    (step : Step) (value : Json) :
    mirrored document ⟨path ++ [step], value⟩ =
      ⟨document.mirrorPath path ++ [container.mirrorStep step], value.mirror⟩ := by
  rw [mirrored, Json.mirrorPath_append h, Json.mirrorPath_singleton]

/-- **The items of the image are the images of the items, in reverse.** -/
theorem LiesIn.items_mirrored {items : List Json} (h : LiesIn document ⟨path, .array items⟩) :
    (mirrored document ⟨path, .array items⟩).items =
      ((⟨path, .array items⟩ : Place).items.map (mirrored document)).reverse := by
  rw [mirrored_array, items_array, items_array]
  refine List.ext_getElem (by simp) fun i hi hi' => ?_
  simp only [List.length_mapIdx, List.length_reverse, List.length_map] at hi
  have hindex : items.length - 1 - (items.length - 1 - i) = i := by omega
  simp only [List.getElem_mapIdx, List.getElem_reverse, List.getElem_map, List.length_map,
    List.length_mapIdx, h.mirrored_append, Json.mirrorStep, hindex]

theorem LiesIn.property {entries : Entries} {key : String} {value : Json}
    (h : LiesIn document ⟨path, .object entries⟩) (hkeys : (Json.object entries).DistinctKeys)
    (hentry : (key, value) ∈ entries) : LiesIn document ⟨path ++ [.key key], value⟩ := by
  have hget := Entries.get?_of_mem (Json.distinctKeys_object.1 hkeys).1 hentry
  rw [LiesIn, Json.at?_append, h, Option.bind_some, Json.at?_cons, Json.step?, hget]
  rfl

/-! ## What a value holds -/

theorem Holds.of_mem_items {items : List Json} (h : q ∈ (⟨path, .array items⟩ : Place).items) :
    Holds ⟨path, .array items⟩ q := by
  obtain ⟨i, value, hi, rfl⟩ := mem_items_array.1 h
  exact .item hi

theorem Holds.of_mem_property {entries : Entries} {key : String} {items : List Json}
    (hentry : (key, .array items) ∈ entries)
    (h : q ∈ (⟨path ++ [.key key], .array items⟩ : Place).items) :
    Holds ⟨path, .object entries⟩ q := by
  obtain ⟨i, value, hi, rfl⟩ := mem_items_array.1 h
  exact .propertyItem hentry hi

/-- The image of an item is an item of the image. -/
theorem LiesIn.mirrored_mem_items {items : List Json} (h : LiesIn document ⟨path, .array items⟩)
    (hq : q ∈ (⟨path, .array items⟩ : Place).items) :
    q.mirrored document ∈ (mirrored document ⟨path, .array items⟩).items := by
  rw [h.items_mirrored, List.mem_reverse]
  exact List.mem_map_of_mem hq

/-- **What a value holds, its image holds the image of.** -/
theorem Holds.mirrored (hp : p.LiesIn document) (hkeys : p.value.DistinctKeys) (h : p.Holds q) :
    (p.mirrored document).Holds (q.mirrored document) := by
  cases h with
  | item hi =>
    have hitem := hp.mirrored_mem_items (mem_items_array.2 ⟨_, _, hi, rfl⟩)
    rw [mirrored_array] at hitem ⊢
    exact .of_mem_items hitem
  | @node path entries key value hentry hnode =>
    rw [hp.mirrored_append, mirrored_object]
    exact .node (Json.mem_mirror_entries hentry) (value.isNode_mirror.trans hnode)
  | @propertyItem path entries key items i value hentry hi =>
    have hitem := (hp.property hkeys hentry).mirrored_mem_items
      (mem_items_array.2 ⟨_, _, hi, rfl⟩)
    have hentry' := Json.mem_mirror_entries hentry
    rw [hp.mirrored_append, Json.mirror_array] at hitem
    rw [Json.mirror_array] at hentry'
    rw [mirrored_object]
    exact .of_mem_property hentry' hitem

end Place

/-! ## What the walk reaches -/

section Reached

variable (hkeys : document.DistinctKeys)

include hkeys

theorem Reached.liesIn (hp : Reached document p) : p.LiesIn document :=
  hp.at?_eq hkeys

theorem Reached.distinctKeys (hp : Reached document p) : p.value.DistinctKeys :=
  Place.distinctKeys_of_below hp hkeys

/-- **The walk reaches the image of what it reaches.** -/
theorem Reached.mirrored (hp : Reached document p) :
    Reached document.mirror (p.mirrored document) := by
  induction hp with
  | refl => exact .root document.mirror
  | @tail r q hr hstep ih =>
    have hr : Reached document r := hr
    exact ih.tail (hstep.mirrored (hr.liesIn hkeys) (hr.distinctKeys hkeys))

/-- **The images of a walked sequence, in reverse, are a walked sequence.** -/
theorem Walked.mirrored {s : List Place} (hs : Walked document s) :
    Walked document.mirror (s.map (Place.mirrored document)).reverse := by
  cases hs with
  | itself h =>
    have hreached := h.mirrored hkeys
    rw [← (h.liesIn hkeys).items_mirrored]
    rw [Place.mirrored_array] at hreached ⊢
    exact .itself hreached
  | @property path entries key items h hentry =>
    have hobject := h.liesIn hkeys
    have hreached := h.mirrored hkeys
    have hentry' := Json.mem_mirror_entries hentry
    rw [← (hobject.property (h.distinctKeys hkeys) hentry).items_mirrored, hobject.mirrored_append,
      Json.mirror_array]
    rw [Place.mirrored_object] at hreached
    rw [Json.mirror_array] at hentry'
    exact .property hreached hentry'

end Reached

end TreeQuery
