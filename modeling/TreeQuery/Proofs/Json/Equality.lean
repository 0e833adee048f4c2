import Mathlib.Data.List.Forall2
import TreeQuery.Json.Basic

/-!
# Proofs/Json/Equality — when two JSON values are equal

`Json.Equals` is equality of JSON values as values: floats are compared as floats, so both zeros are
equal and nothing equals NaN, and the entries of an object are compared key by key, in whatever
order they stand.
-/

namespace TreeQuery

/-- **Two numbers are equal**: two whole numbers that are the same, or two floats that compare
equal. -/
inductive Number.Equals : Number → Number → Prop
  | int (n : Int) : Equals (.int n) (.int n)
  | float {x y : Float} (h : (x == y) = true) : Equals (.float x) (.float y)

/-- **Two JSON values are equal**: arrays item by item, objects key by key. -/
inductive Json.Equals : Json → Json → Prop
  | null : Equals .null .null
  | bool (b : Bool) : Equals (.bool b) (.bool b)
  | number {m n : Number} (h : m.Equals n) : Equals (.number m) (.number n)
  | string (s : String) : Equals (.string s) (.string s)
  | array {items items' : List Json} (h : List.Forall₂ Equals items items') :
      Equals (.array items) (.array items')
  | object {entries entries' : Entries}
      (h : ∀ name, Option.Rel Equals (Entries.get? entries name) (Entries.get? entries' name)) :
      Equals (.object entries) (.object entries')

namespace Json

variable {value other : Json} {x y : Float}

@[simp] theorem get?_object_cons (name key : String) (v : Json) (entries : Entries) :
    (object ((key, v) :: entries)).get? name =
      bif name == key then some v else (object entries).get? name := rfl

/-- Equal values have equal properties. -/
theorem Equals.get? (h : value.Equals other) (name : String) :
    Option.Rel Equals (value.get? name) (other.get? name) := by
  cases h with
  | object h => exact h name
  | _ => exact .none

/-- Properties that are both there are equal. -/
theorem Equals.of_get? (h : value.Equals other) (name : String) {v v' : Json}
    (hv : value.get? name = some v) (hv' : other.get? name = some v') : v.Equals v' := by
  have hrel := h.get? name
  rw [hv, hv'] at hrel
  cases hrel with
  | some h => exact h

theorem Equals.string_inj {s t : String} (h : Equals (.string s) (.string t)) : s = t := by
  cases h
  rfl

/-- Entries with the same keys in the same order make equal objects of equal values. -/
theorem equals_object {entries entries' : Entries}
    (h : List.Forall₂ (fun e e' => e.1 = e'.1 ∧ Equals e.2 e'.2) entries entries') :
    Equals (.object entries) (.object entries') := by
  suffices h : ∀ name, Option.Rel Equals ((object entries).get? name) ((object entries').get? name)
    from .object h
  intro name
  induction h with
  | nil => exact .none
  | @cons e e' _ _ he _ ih =>
    obtain ⟨key, v⟩ := e
    obtain ⟨_, v'⟩ := e'
    obtain ⟨rfl, hv⟩ := he
    rw [get?_object_cons, get?_object_cons]
    cases name == key with
    | true => exact .some hv
    | false => exact ih

theorem ofFloat_of_isFinite (h : x.isFinite = true) : ofFloat x = .number (.float x) :=
  if_pos h

/-- **Finite floats are equal as JSON values** if they compare equal. -/
theorem equals_ofFloat_iff (hx : x.isFinite = true) (hy : y.isFinite = true) :
    (ofFloat x).Equals (ofFloat y) ↔ (x == y) = true := by
  rw [ofFloat_of_isFinite hx, ofFloat_of_isFinite hy]
  constructor
  · rintro (_ | _ | ⟨_ | h⟩)
    exact h
  · exact fun h => .number (.float h)

end Json

end TreeQuery
