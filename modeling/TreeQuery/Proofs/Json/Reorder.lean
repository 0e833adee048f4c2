import Mathlib.Data.List.Perm.Basic
import Mathlib.Logic.Relation
import TreeQuery.Proofs.Document.Distinct
import TreeQuery.Selector.Match

/-!
# Proofs/Json/Reorder — values that differ in the order of entries only

`Json.Reorders` permutes the entries of one object, at any depth, and `Json.Reordered` does so any
number of times.  What that does to a value on the surface is said once, constructor by constructor
(`Json.Alike`, `Reordered.alike`): an array stays an array of as many items, an object keeps its
keys, and any other value stays the same.

Under distinct keys, what a search asks of a value does not depend on the order: its kind
(`Rearranged.kind?_eq`), what a property path leads to (`Rearranged.exists_resolve?`) and whether
that passes a test (`Rearranged.passes_eq`).
-/

open Relation
open scoped List

namespace TreeQuery

/-- Under distinct keys, a key finds what stands under it. -/
theorem Entries.get?_eq_some_iff {entries : Entries} (h : (entries.map Prod.fst).Nodup)
    {key : String} {value : Json} : entries.get? key = some value ↔ (key, value) ∈ entries := by
  refine ⟨fun hget => ?_, get?_of_mem h⟩
  obtain ⟨before, after, rfl, _⟩ := List.lookup_eq_some_iff.1 hget
  simp

namespace Json

/-- **The entries of one object are permuted**: of the value itself or of one somewhere in it. -/
inductive Reorders : Json → Json → Prop
  | here {entries entries' : Entries} (h : entries ~ entries') :
      Reorders (.object entries) (.object entries')
  | item (before : List Json) {after : List Json} {value value' : Json}
      (h : Reorders value value') :
      Reorders (.array (before ++ value :: after)) (.array (before ++ value' :: after))
  | entry (before : Entries) {after : Entries} {key : String} {value value' : Json}
      (h : Reorders value value') :
      Reorders (.object (before ++ (key, value) :: after))
        (.object (before ++ (key, value') :: after))

/-- **Two values differ in the order of entries only**, in any objects at any depth. -/
abbrev Reordered : Json → Json → Prop := ReflTransGen Reorders

/-! ## On the surface -/

/-- **Two values look alike**, up to a relation of what they hold: the same scalar, arrays of
related items, or objects with related values under the same keys, in any order. -/
inductive Alike (R : Json → Json → Prop) : Json → Json → Prop
  | null : Alike R .null .null
  | bool (b : Bool) : Alike R (.bool b) (.bool b)
  | number (n : Number) : Alike R (.number n) (.number n)
  | string (s : String) : Alike R (.string s) (.string s)
  | array {items items' : List Json} (length : items'.length = items.length)
      (item : ∀ (i : Nat) value, items[i]? = some value → ∃ value', items'[i]? = some value' ∧
        R value value') : Alike R (.array items) (.array items')
  | object {entries entries' : Entries} (keys : entries'.map Prod.fst ~ entries.map Prod.fst)
      (entry : ∀ key value, (key, value) ∈ entries → ∃ value', (key, value') ∈ entries' ∧
        R value value') : Alike R (.object entries) (.object entries')

section Alike

variable {R : Json → Json → Prop} {value value' value'' : Json}

theorem Alike.refl (hR : ∀ value, R value value) : ∀ value, Alike R value value
  | .null => .null
  | .bool b => .bool b
  | .number n => .number n
  | .string s => .string s
  | .array _ => .array rfl fun _ value hi => ⟨value, hi, hR value⟩
  | .object _ => .object (.refl _) fun _ value hentry => ⟨value, hentry, hR value⟩

theorem Alike.trans (hR : ∀ {a b c}, R a b → R b c → R a c) (h : Alike R value value')
    (h' : Alike R value' value'') : Alike R value value'' := by
  cases h with
  | array length item =>
    cases h' with
    | array length' item' =>
      refine .array (length'.trans length) fun i value hi => ?_
      obtain ⟨middle, hmiddle, h⟩ := item i value hi
      obtain ⟨value', hvalue', h'⟩ := item' i middle hmiddle
      exact ⟨value', hvalue', hR h h'⟩
  | object keys entry =>
    cases h' with
    | object keys' entry' =>
      refine .object (keys'.trans keys) fun key value hentry => ?_
      obtain ⟨middle, hmiddle, h⟩ := entry key value hentry
      obtain ⟨value', hvalue', h'⟩ := entry' key middle hmiddle
      exact ⟨value', hvalue', hR h h'⟩
  | _ => exact h'

/-- **Permuting the entries of one object, seen from the surface.** -/
theorem Reorders.alike (h : Reorders value value') : Alike Reordered value value' := by
  cases h with
  | here h =>
    exact .object (h.map _).symm fun key value hentry => ⟨value, h.mem_iff.1 hentry, .refl⟩
  | @item before after old new h =>
    refine .array (by simp) fun i value hi => ?_
    rw [List.getElem?_append] at hi ⊢
    split at hi
    · next hlt => exact ⟨value, by rw [if_pos hlt, hi], .refl⟩
    · next hlt =>
      rw [if_neg hlt]
      cases hj : i - before.length with
      | zero =>
        rw [hj] at hi
        exact ⟨new, rfl, Option.some.inj hi ▸ .single h⟩
      | succ j =>
        rw [hj] at hi
        exact ⟨value, hi, .refl⟩
  | @entry before after name old new h =>
    refine .object (by simp) fun key value hentry => ?_
    rcases List.mem_append.1 hentry with hentry | hentry
    · exact ⟨value, List.mem_append_left _ hentry, .refl⟩
    rcases List.mem_cons.1 hentry with heq | hentry
    · obtain ⟨rfl, rfl⟩ := Prod.mk.inj heq
      exact ⟨new, List.mem_append_right _ List.mem_cons_self, .single h⟩
    · exact ⟨value, List.mem_append_right _ (List.mem_cons_of_mem _ hentry), .refl⟩

/-- **Reordered values look alike.** -/
theorem Reordered.alike (h : Reordered value value') : Alike Reordered value value' := by
  induction h with
  | refl => exact .refl (fun _ => .refl) _
  | tail _ hstep ih => exact ih.trans .trans hstep.alike

theorem Reorders.symm (h : Reorders value value') : Reorders value' value := by
  induction h with
  | here h => exact .here h.symm
  | item before _ ih => exact .item before ih
  | entry before _ ih => exact .entry before ih

theorem Reordered.symm (h : Reordered value value') : Reordered value' value := by
  induction h with
  | refl => exact .refl
  | tail _ hstep ih => exact .head hstep.symm ih

theorem Reorders.distinctKeys (h : Reorders value value') :
    value.DistinctKeys → value'.DistinctKeys := by
  induction h with
  | here h =>
    rw [distinctKeys_object, distinctKeys_object, (h.map Prod.fst).nodup_iff]
    exact fun ⟨hnodup, hvalues⟩ => ⟨hnodup, fun entry hentry => hvalues entry (h.mem_iff.2 hentry)⟩
  | item _ _ ih =>
    simp only [distinctKeys_array, List.forall_mem_append, List.forall_mem_cons]
    exact fun ⟨hbefore, hvalue, hafter⟩ => ⟨hbefore, ih hvalue, hafter⟩
  | entry _ _ ih =>
    simp only [distinctKeys_object, List.map_append, List.map_cons, List.forall_mem_append,
      List.forall_mem_cons]
    exact fun ⟨hnodup, hbefore, hvalue, hafter⟩ => ⟨hnodup, hbefore, ih hvalue, hafter⟩

end Alike

/-! ## Under distinct keys -/

/-- **Two values with distinct keys that differ in the order of entries only.** -/
structure Rearranged (value value' : Json) : Prop where
  distinctKeys : value.DistinctKeys
  reordered : Reordered value value'

namespace Rearranged

variable {value value' : Json}

theorem distinctKeys' (h : Rearranged value value') : value'.DistinctKeys := by
  obtain ⟨hkeys, h⟩ := h
  induction h with
  | refl => exact hkeys
  | tail _ hstep ih => exact hstep.distinctKeys ih

theorem symm (h : Rearranged value value') : Rearranged value' value :=
  ⟨h.distinctKeys', h.reordered.symm⟩

/-- What looks alike is again rearranged, below the surface. -/
theorem alike (h : Rearranged value value') : Alike Rearranged value value' := by
  obtain ⟨hkeys, h⟩ := h
  cases h.alike with
  | array length item =>
    refine .array length fun i value hi => ?_
    obtain ⟨value', hvalue', h⟩ := item i value hi
    exact ⟨value', hvalue', distinctKeys_array.1 hkeys value (List.mem_of_getElem? hi), h⟩
  | object keys entry =>
    refine .object keys fun key value hentry => ?_
    obtain ⟨value', hvalue', h⟩ := entry key value hentry
    exact ⟨value', hvalue', (distinctKeys_object.1 hkeys).2 _ hentry, h⟩
  | null => exact .null
  | bool b => exact .bool b
  | number n => exact .number n
  | string s => exact .string s

/-- A property holds the same, up to order. -/
theorem exists_get? {name : String} {found : Json} (h : Rearranged value value')
    (hfound : value.get? name = some found) :
    ∃ found', value'.get? name = some found' ∧ Rearranged found found' := by
  have hkeys := h.distinctKeys
  have hkeys' := h.distinctKeys'
  cases h.alike with
  | object _ entry =>
    obtain ⟨hnodup, _⟩ := distinctKeys_object.1 hkeys
    obtain ⟨hnodup', _⟩ := distinctKeys_object.1 hkeys'
    obtain ⟨found', hfound', h⟩ := entry name found ((Entries.get?_eq_some_iff hnodup).1 hfound)
    exact ⟨found', (Entries.get?_eq_some_iff hnodup').2 hfound', h⟩
  | _ => simp [get?] at hfound

theorem kind?_eq_some {kind : String} (h : Rearranged value value')
    (hkind : value.kind? = some kind) : value'.kind? = some kind := by
  have htype : value.get? "type" = some (.string kind) := by
    unfold kind? at hkind
    split at hkind
    · next hget => rw [hget, Option.some.inj hkind]
    · simp at hkind
  obtain ⟨found, hfound, h⟩ := h.exists_get? htype
  cases h.alike with
  | string => rw [kind?, hfound]

/-- **The kind does not depend on the order of entries.** -/
theorem kind?_eq (h : Rearranged value value') : value'.kind? = value.kind? :=
  Option.ext fun _ => ⟨h.symm.kind?_eq_some, h.kind?_eq_some⟩

theorem isNode_eq (h : Rearranged value value') : value'.isNode = value.isNode :=
  congrArg Option.isSome h.kind?_eq

theorem exists_segment? {segment : List Char} {found : Json} (h : Rearranged value value')
    (hfound : value.segment? segment = some found) :
    ∃ found', value'.segment? segment = some found' ∧ Rearranged found found' := by
  cases h.alike with
  | array _ item =>
    obtain ⟨i, hposition, hi⟩ := Option.bind_eq_some_iff.1 hfound
    obtain ⟨found', hfound', h⟩ := item i found hi
    exact ⟨found', Option.bind_eq_some_iff.2 ⟨i, hposition, hfound'⟩, h⟩
  | object => exact h.exists_get? hfound
  | _ => simp [segment?] at hfound

/-- **A property path leads to the same value, up to order.** -/
theorem exists_resolve? {name : String} {found : Json} (h : Rearranged value value')
    (hfound : value.resolve? name = some found) :
    ∃ found', value'.resolve? name = some found' ∧ Rearranged found found' := by
  unfold resolve? at hfound ⊢
  generalize segments name.toList = path at hfound ⊢
  induction path generalizing value value' with
  | nil =>
    obtain rfl := Option.some.inj hfound
    exact ⟨value', rfl, h⟩
  | cons segment path ih =>
    rw [List.foldlM_cons] at hfound ⊢
    obtain ⟨next, hnext, hfound⟩ := Option.bind_eq_some_iff.1 hfound
    obtain ⟨next', hnext', h⟩ := h.exists_segment? hnext
    obtain ⟨found', hfound', h⟩ := ih h hfound
    exact ⟨found', Option.bind_eq_some_iff.2 ⟨next', hnext', hfound'⟩, h⟩

/-- As operands of a comparison, rearranged values are the same. -/
theorem scalar_eq (h : Rearranged value value') : Scalar.ofJson value' = Scalar.ofJson value := by
  cases h.alike <;> rfl

/-- **A test of a property does not depend on the order of entries.** -/
theorem passes_eq (h : Rearranged value value') (name : String) (test : AttributeTest) :
    test.passes (value'.resolve? name) = test.passes (value.resolve? name) := by
  cases hfound : value.resolve? name with
  | none =>
    cases hfound' : value'.resolve? name with
    | none => rfl
    | some found' =>
      obtain ⟨_, hfound'', _⟩ := h.symm.exists_resolve? hfound'
      rw [hfound] at hfound''
      exact absurd hfound'' (by simp)
  | some found =>
    obtain ⟨found', hfound', h⟩ := h.exists_resolve? hfound
    rw [hfound']
    cases test with
    | present => rfl
    | equal literal => exact congrArg (·.equals literal) h.scalar_eq

end Rearranged

end Json

end TreeQuery
