import Mathlib.Data.List.Forall2
import Mathlib.Logic.Relation
import TreeQuery.Document.Place

/-!
# Proofs/Json/Edit — edits of what the walk skips

A property that holds neither an array nor a node is skipped by the walk (`Json.IsSkipped`).
`Json.Edits` adds, removes or replaces one such property, or exchanges one scalar item of an array,
anywhere in a value; `Json.Edited` does so any number of times.

An edit leaves the shape of the value it is made in: an object keeps its kind (`Edits.kind?_eq`),
and an array keeps its length, its items being touched one by one (`Edits.items`).
-/

open Relation
open List (Forall₂)

namespace TreeQuery

namespace Json

/-- A scalar holds no other values. -/
def IsScalar : Json → Prop
  | .array _ | .object _ => False
  | _ => True

/-- **What the walk skips under a property**: everything but arrays and nodes.  Whatever a plain
object holds is skipped with it. -/
def IsSkipped : Json → Prop
  | .array _ => False
  | value => value.isNode = false

/-- **One edit of what the walk skips**, in the value itself or anywhere in it. -/
inductive Edits : Json → Json → Prop
  | add (before after : Entries) {key : String} {value : Json} (hkey : key ≠ "type")
      (h : value.IsSkipped) :
      Edits (.object (before ++ after)) (.object (before ++ (key, value) :: after))
  | remove (before after : Entries) {key : String} {value : Json} (hkey : key ≠ "type")
      (h : value.IsSkipped) :
      Edits (.object (before ++ (key, value) :: after)) (.object (before ++ after))
  | replace (before after : Entries) {key : String} {value value' : Json} (hkey : key ≠ "type")
      (h : value.IsSkipped) (h' : value'.IsSkipped) :
      Edits (.object (before ++ (key, value) :: after)) (.object (before ++ (key, value') :: after))
  | scalar (before after : List Json) {value value' : Json} (h : value.IsScalar)
      (h' : value'.IsScalar) :
      Edits (.array (before ++ value :: after)) (.array (before ++ value' :: after))
  | item (before after : List Json) {value value' : Json} (h : Edits value value') :
      Edits (.array (before ++ value :: after)) (.array (before ++ value' :: after))
  | entry (before after : Entries) {key : String} {value value' : Json} (h : Edits value value') :
      Edits (.object (before ++ (key, value) :: after)) (.object (before ++ (key, value') :: after))

/-- **Two values differ by edits of what the walk skips**, any number of them. -/
abbrev Edited : Json → Json → Prop := ReflTransGen Edits

/-- **What one edit makes of a value somewhere in a document**: nothing, an edit of it, or, if it
is the item that is exchanged, another scalar. -/
inductive Touched : Json → Json → Prop
  | same (value : Json) : Touched value value
  | edits {value value' : Json} (h : Edits value value') : Touched value value'
  | scalar {value value' : Json} (h : value.IsScalar) (h' : value'.IsScalar) : Touched value value'

/-! ## Kinds -/

theorem IsScalar.kind?_eq_none {value : Json} (h : value.IsScalar) : value.kind? = none := by
  cases value with
  | array | object => exact h.elim
  | _ => rfl

/-- The kind of an object is found in what stands before, or else in the rest. -/
theorem kind?_object_append_congr (before : Entries) {after after' : Entries}
    (h : (object after').kind? = (object after).kind?) :
    (object (before ++ after')).kind? = (object (before ++ after)).kind? := by
  simp only [kind?, get?, Entries.get?, List.lookup_append] at h ⊢
  cases before.lookup "type" with
  | none => exact h
  | some _ => rfl

theorem kind?_object_cons_of_ne {key : String} (hkey : key ≠ "type") (value : Json)
    (after : Entries) : (object ((key, value) :: after)).kind? = (object after).kind? := by
  have hne : ("type" == key) = false := beq_false_of_ne hkey.symm
  rw [kind?, kind?, get?, get?, Entries.get?, Entries.get?, List.lookup_cons, hne]

/-- **Under a key the kind stands in a text only**, so anything else may be exchanged. -/
theorem kind?_object_replace (before after : Entries) {key : String} {value value' : Json}
    (h : ∀ kind, value ≠ .string kind) (h' : ∀ kind, value' ≠ .string kind) :
    (object (before ++ (key, value') :: after)).kind? =
      (object (before ++ (key, value) :: after)).kind? := by
  refine kind?_object_append_congr before ?_
  by_cases hkey : key = "type"
  · subst hkey
    have hnone {value : Json} (h : ∀ kind, value ≠ .string kind) :
        (object (("type", value) :: after)).kind? = none := by
      cases value with
      | string kind => exact absurd rfl (h kind)
      | _ => rfl
    rw [hnone h, hnone h']
  · rw [kind?_object_cons_of_ne hkey, kind?_object_cons_of_ne hkey]

namespace Edits

variable {value value' : Json}

/-- **An edit keeps the kind.**  What stands under `type` may be edited too, but is a container
then, and names no kind before or after. -/
theorem kind?_eq (h : Edits value value') : value'.kind? = value.kind? := by
  cases h with
  | add before after hkey =>
    exact kind?_object_append_congr before (kind?_object_cons_of_ne hkey ..)
  | remove before after hkey =>
    exact kind?_object_append_congr before (kind?_object_cons_of_ne hkey ..).symm
  | replace before after hkey =>
    exact kind?_object_append_congr before
      ((kind?_object_cons_of_ne hkey ..).trans (kind?_object_cons_of_ne hkey ..).symm)
  | scalar | item => rfl
  | entry before after h =>
    exact kind?_object_replace before after (by cases h <;> simp) (by cases h <;> simp)

theorem isNode_eq (h : Edits value value') : value'.isNode = value.isNode :=
  congrArg Option.isSome h.kind?_eq

end Edits

theorem Touched.kind?_eq {value value' : Json} : Touched value value' → value'.kind? = value.kind?
  | .same _ => rfl
  | .edits h => h.kind?_eq
  | .scalar h h' => h'.kind?_eq_none.trans h.kind?_eq_none.symm

/-! ## Items -/

/-- **An edit of an array touches its items one by one**, and adds and removes none. -/
theorem Edits.items {items : List Json} {value' : Json} (h : Edits (.array items) value') :
    ∃ items', value' = .array items' ∧ Forall₂ Touched items items' := by
  have around (before after : List Json) {old new : Json} (h : Touched old new) :
      Forall₂ Touched (before ++ old :: after) (before ++ new :: after) :=
    List.rel_append (List.forall₂_same.2 fun value _ => .same value)
      (.cons h (List.forall₂_same.2 fun value _ => .same value))
  cases h with
  | scalar before after h h' => exact ⟨_, rfl, around before after (.scalar h h')⟩
  | item before after h => exact ⟨_, rfl, around before after (.edits h)⟩

end Json

end TreeQuery
