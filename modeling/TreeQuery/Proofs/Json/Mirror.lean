import TreeQuery.Proofs.Document.Distinct
import TreeQuery.Proofs.Json.Edit

/-!
# Proofs/Json/Mirror — a document with every array reversed

`Json.mirror` reverses every array, at every depth.  What stood at a path then stands at the path
whose indices are counted from the other end (`mirrorPath`); a second reversal leads back, for the
values (`mirror_mirror`) and for the paths (`mirrorPath_mirrorPath`).
-/

namespace TreeQuery

namespace Json

/-- **Induction over a value**: from what it consists of to the value. -/
@[elab_as_elim]
theorem induction {motive : Json → Prop}
    (array : ∀ items, (∀ value ∈ items, motive value) → motive (.array items))
    (object : ∀ entries, (∀ entry ∈ entries, motive (Prod.snd entry)) → motive (.object entries))
    (scalar : ∀ value, IsScalar value → motive value) : ∀ value, motive value
  | .array items => array items fun value hvalue =>
      have := List.sizeOf_lt_of_mem hvalue
      induction array object scalar value
  | .object entries => object entries fun entry hentry =>
      have := List.sizeOf_lt_of_mem hentry
      induction array object scalar entry.2
  | .null => scalar _ trivial
  | .bool _ => scalar _ trivial
  | .number _ => scalar _ trivial
  | .string _ => scalar _ trivial
termination_by value => sizeOf value
decreasing_by
  · simp only [Json.array.sizeOf_spec]
    omega
  · obtain ⟨key, value⟩ := entry
    simp only [Prod.mk.sizeOf_spec] at this
    simp only [Json.object.sizeOf_spec]
    omega

/-! ## Values -/

mutual

/-- **The value with every array reversed**, at every depth. -/
def mirror : Json → Json
  | .array items => .array (mirrorItems items).reverse
  | .object entries => .object (mirrorEntries entries)
  | value => value

/-- `mirror` of every item, in place. -/
def mirrorItems : List Json → List Json
  | [] => []
  | value :: items => mirror value :: mirrorItems items

/-- `mirror` of the value of every entry, in place. -/
def mirrorEntries : List (String × Json) → List (String × Json)
  | [] => []
  | (key, value) :: entries => (key, mirror value) :: mirrorEntries entries

end

theorem mirrorItems_eq_map : ∀ items : List Json, mirrorItems items = items.map mirror
  | [] => rfl
  | value :: items => by rw [mirrorItems, mirrorItems_eq_map items, List.map_cons]

theorem mirrorEntries_eq_map : ∀ entries : Entries,
    mirrorEntries entries = entries.map fun entry => (entry.1, entry.2.mirror)
  | [] => rfl
  | (key, value) :: entries => by rw [mirrorEntries, mirrorEntries_eq_map entries, List.map_cons]

theorem mirror_array (items : List Json) :
    (array items).mirror = .array (items.map mirror).reverse := by
  rw [mirror, mirrorItems_eq_map]

theorem mirror_object (entries : Entries) :
    (object entries).mirror = .object (entries.map fun entry => (entry.1, entry.2.mirror)) := by
  rw [mirror, mirrorEntries_eq_map]

/-- The entries of the reversed object are the reversed entries. -/
theorem mem_mirror_entries {entries : Entries} {key : String} {value : Json}
    (h : (key, value) ∈ entries) :
    (key, value.mirror) ∈ entries.map fun entry => (entry.1, entry.2.mirror) :=
  List.mem_map_of_mem h

theorem IsScalar.mirror_eq {value : Json} (h : value.IsScalar) : value.mirror = value := by
  cases value with
  | array | object => exact h.elim
  | _ => rfl

/-- **Reversing twice changes nothing.** -/
@[simp]
theorem mirror_mirror (value : Json) : value.mirror.mirror = value := by
  induction value using Json.induction with
  | array items ih =>
    rw [mirror_array, mirror_array, List.map_reverse, List.reverse_reverse, List.map_map]
    exact congrArg array ((List.map_congr_left ih).trans (List.map_id items))
  | object entries ih =>
    rw [mirror_object, mirror_object, List.map_map]
    have hentries : ∀ entry ∈ entries, (entry.1, entry.2.mirror.mirror) = entry :=
      fun entry hentry => congrArg (Prod.mk entry.1) (ih entry hentry)
    exact congrArg object ((List.map_congr_left hentries).trans (List.map_id entries))
  | scalar value h => rw [h.mirror_eq, h.mirror_eq]

theorem DistinctKeys.mirror {value : Json} : value.DistinctKeys → value.mirror.DistinctKeys := by
  induction value using Json.induction with
  | array items ih =>
    rw [mirror_array, distinctKeys_array, distinctKeys_array]
    intro h mirrored hmirrored
    obtain ⟨value, hvalue, rfl⟩ := List.mem_map.1 (List.mem_reverse.1 hmirrored)
    exact ih value hvalue (h value hvalue)
  | object entries ih =>
    rw [mirror_object, distinctKeys_object, distinctKeys_object, List.map_map]
    rintro ⟨hkeys, hvalues⟩
    refine ⟨hkeys, fun mirrored hmirrored => ?_⟩
    obtain ⟨entry, hentry, rfl⟩ := List.mem_map.1 hmirrored
    exact ih entry hentry (hvalues entry hentry)
  | scalar value h =>
    rw [h.mirror_eq]
    exact id

theorem get?_mirror (name : String) : ∀ value : Json,
    value.mirror.get? name = (value.get? name).map mirror
  | .object entries => by
    rw [mirror_object]
    induction entries with
    | nil => rfl
    | cons entry entries ih =>
      obtain ⟨key, value⟩ := entry
      simp only [get?, Entries.get?, List.map_cons, List.lookup_cons] at ih ⊢
      split
      · rfl
      · exact ih
  | .array items => by rw [mirror_array]; rfl
  | .null | .bool _ | .number _ | .string _ => rfl

/-- A reversal leaves the kind alone. -/
theorem kind?_mirror (value : Json) : value.mirror.kind? = value.kind? := by
  rw [kind?, kind?, get?_mirror]
  cases value.get? "type" with
  | none => rfl
  | some kind =>
    cases kind with
    | array items => rw [Option.map_some, mirror_array]
    | object entries => rw [Option.map_some, mirror_object]
    | _ => rfl

theorem isNode_mirror (value : Json) : value.mirror.isNode = value.isNode :=
  congrArg Option.isSome value.kind?_mirror

/-! ## Paths -/

/-- A step into the value, as a step into the reversed value. -/
def mirrorStep : Json → Step → Step
  | .array items, .index i => .index (items.length - 1 - i)
  | _, step => step

/-- **A path into the value, as a path into the reversed value**: every index is counted from the
other end of its array. -/
def mirrorPath : Json → Path → Path
  | _, [] => []
  | value, step :: path =>
    value.mirrorStep step ::
      match value.step? step with
      | some inner => inner.mirrorPath path
      | none => path

variable {value inner : Json}

theorem at?_cons (value : Json) (step : Step) (path : Path) :
    value.at? (step :: path) = (value.step? step).bind (·.at? path) :=
  rfl

theorem mirrorPath_cons {step : Step} (h : value.step? step = some inner) (path : Path) :
    value.mirrorPath (step :: path) = value.mirrorStep step :: inner.mirrorPath path := by
  rw [mirrorPath, h]

theorem mirrorPath_singleton (value : Json) (step : Step) :
    value.mirrorPath [step] = [value.mirrorStep step] := by
  rw [mirrorPath]
  cases value.step? step <;> rfl

theorem step?_mirror {step : Step} (h : value.step? step = some inner) :
    value.mirror.step? (value.mirrorStep step) = some inner.mirror := by
  cases value with
  | array items =>
    cases step with
    | key name => cases h
    | index i =>
      obtain ⟨hi, -⟩ := List.getElem?_eq_some_iff.1 h
      have hmirror : (items.length - 1 - (items.length - 1 - i)) = i := by omega
      rw [mirror_array, mirrorStep, step?, List.getElem?_reverse (by rw [List.length_map]; omega),
        List.length_map, hmirror, List.getElem?_map]
      exact congrArg (Option.map Json.mirror) h
  | object entries =>
    cases step with
    | key name =>
      have hget := get?_mirror name (.object entries)
      rw [mirror_object] at hget ⊢
      exact hget.trans (congrArg (Option.map Json.mirror) h)
    | index i => cases h
  | _ => cases h

theorem mirrorStep_mirrorStep {step : Step} (h : value.step? step = some inner) :
    value.mirror.mirrorStep (value.mirrorStep step) = step := by
  cases value with
  | array items =>
    cases step with
    | key name => cases h
    | index i =>
      obtain ⟨hi, -⟩ := List.getElem?_eq_some_iff.1 h
      rw [mirror_array, mirrorStep, mirrorStep, List.length_reverse, List.length_map]
      exact congrArg Step.index (by omega)
  | object entries =>
    rw [mirror_object]
    rfl
  | _ => cases h

/-- **The reversed path leads to the reversed value.** -/
theorem at?_mirrorPath : ∀ {path : Path} {value : Json}, value.at? path = some inner →
    value.mirror.at? (value.mirrorPath path) = some inner.mirror
  | [], _, h => congrArg (Option.map Json.mirror) h
  | step :: path, value, h => by
    obtain ⟨next, hstep, hpath⟩ := Option.bind_eq_some_iff.1 ((at?_cons ..).symm.trans h)
    rw [mirrorPath_cons hstep, at?_cons, step?_mirror hstep, Option.bind_some]
    exact at?_mirrorPath hpath

/-- **Reversing twice leads back to the path.** -/
theorem mirrorPath_mirrorPath : ∀ {path : Path} {value : Json}, value.at? path = some inner →
    value.mirror.mirrorPath (value.mirrorPath path) = path
  | [], _, _ => rfl
  | step :: path, value, h => by
    obtain ⟨next, hstep, hpath⟩ := Option.bind_eq_some_iff.1 ((at?_cons ..).symm.trans h)
    rw [mirrorPath_cons hstep, mirrorPath_cons (step?_mirror hstep), mirrorStep_mirrorStep hstep,
      mirrorPath_mirrorPath hpath]

theorem mirrorPath_append {path' : Path} : ∀ {path : Path} {value : Json},
    value.at? path = some inner →
      value.mirrorPath (path ++ path') = value.mirrorPath path ++ inner.mirrorPath path'
  | [], _, h => by rw [Option.some.inj h]; rfl
  | step :: path, value, h => by
    obtain ⟨next, hstep, hpath⟩ := Option.bind_eq_some_iff.1 ((at?_cons ..).symm.trans h)
    rw [List.cons_append, mirrorPath_cons hstep, mirrorPath_cons hstep, mirrorPath_append hpath,
      List.cons_append]

end Json

end TreeQuery
