import TreeQuery.Selector.Basic

/-!
# Selector/Encoding — selectors as JSON values

A selector is written as an object that names its form under `type`; operands are written in the
same way.  The absence of a selector is written as `null`.  `Selector.ofJson?` reads the form
back, whatever the order of the properties.
-/

namespace TreeQuery

namespace Literal

/-- A literal as a JSON value. -/
def toJson : Literal → Json
  | .number x => .ofFloat x
  | .string s => .string s

/-- Reads a literal back from a JSON value. -/
def ofJson? : Json → Option Literal
  | .number n => some (.number n.toFloat)
  | .string s => some (.string s)
  | _ => none

end Literal

namespace AttributeTest

/-- A test as a JSON value. -/
def toJson : AttributeTest → Json
  | .present => .string "exists"
  | .equal literal => .object [("equal", literal.toJson)]

/-- Reads a test back from a JSON value. -/
def ofJson? : Json → Option AttributeTest
  | .string "exists" => some .present
  | value => do
    return .equal (← Literal.ofJson? (← value.get? "equal"))

end AttributeTest

namespace Combinator

/-- The name of a combinator. -/
def name : Combinator → String
  | .descendant => "descendant"
  | .child => "child"
  | .sibling => "sibling"
  | .adjacent => "adjacent"

/-- The combinator of a given name. -/
def ofName? : String → Option Combinator
  | "descendant" => some .descendant
  | "child" => some .child
  | "sibling" => some .sibling
  | "adjacent" => some .adjacent
  | _ => none

end Combinator

namespace Selector

/-- **A selector as a JSON value.** -/
def toJson : Selector → Json
  | .wildcard => .object [("type", .string "wildcard")]
  | .identifier name => .object [("type", .string "identifier"), ("name", .string name)]
  | .combine combinator left right =>
    .object [("type", .string combinator.name), ("left", left.toJson), ("right", right.toJson)]
  | .both left right =>
    .object [("type", .string "and"), ("left", left.toJson), ("right", right.toJson)]
  | .nthChild position =>
    .object [("type", .string "nth-child"), ("index", position.toJson)]
  | .attribute name test =>
    .object [("type", .string "attribute"), ("name", .string name), ("test", test.toJson)]

/-- A selector, or `null` for none. -/
def optionToJson : Option Selector → Json
  | some selector => selector.toJson
  | none => .null

end Selector

/-! ## Reading selectors back -/

/-- A value under a key is smaller than the object. -/
theorem Entries.sizeOf_get?_lt {name : String} {value : Json} :
    ∀ {entries : Entries}, Entries.get? entries name = some value → sizeOf value < sizeOf entries
  | [], h => by simp [Entries.get?] at h
  | (key, old) :: entries, h => by
    rw [Entries.get?, List.lookup_cons] at h
    simp only [List.cons.sizeOf_spec, Prod.mk.sizeOf_spec]
    split at h
    · simp only [Option.some.injEq] at h
      subst h
      omega
    · have := sizeOf_get?_lt h
      omega

theorem Json.sizeOf_get?_lt {value property : Json} {name : String}
    (h : value.get? name = some property) : sizeOf property < sizeOf value := by
  cases value with
  | object entries =>
    have : sizeOf property < sizeOf entries := Entries.sizeOf_get?_lt h
    simp only [Json.object.sizeOf_spec]
    omega
  | _ => simp [Json.get?] at h

namespace Selector

/-- **Reads a selector back from a JSON value.** -/
def ofJson? (value : Json) : Option Selector :=
  match value.get? "type" with
  | some (.string "wildcard") => some .wildcard
  | some (.string "identifier") =>
    match value.get? "name" with
    | some (.string name) => some (.identifier name)
    | _ => none
  | some (.string "nth-child") =>
    ((value.get? "index").bind Literal.ofJson?).map .nthChild
  | some (.string "attribute") =>
    match value.get? "name" with
    | some (.string name) =>
      ((value.get? "test").bind AttributeTest.ofJson?).map (.attribute name)
    | _ => none
  | some (.string form) =>
    match _left : value.get? "left", _right : value.get? "right" with
    | some left, some right => do
      let left ← ofJson? left
      let right ← ofJson? right
      if form = "and" then some (.both left right)
      else return .combine (← Combinator.ofName? form) left right
    | _, _ => none
  | _ => none
termination_by sizeOf value
decreasing_by
  · exact Json.sizeOf_get?_lt _left
  · exact Json.sizeOf_get?_lt _right

/-- Reads a selector, or none from `null`. -/
def optionOfJson? : Json → Option (Option Selector)
  | .null => some none
  | value => (ofJson? value).map some

end Selector

end TreeQuery
