import TreeQuery.Json.Basic
import TreeQuery.Text.Digits

/-!
# Document/Property — dotted property paths

A dotted path such as `id.name` or `params.0` leads from a value through nested properties, one
segment at a time.  In an object a segment is a property name, in an array a position, and from
any other value no segment leads on.  A present `null` counts as found.
-/

namespace TreeQuery

/-- The segments of a dotted path: what stands between the points.  There is always one. -/
def segments : List Char → List (List Char)
  | [] => [[]]
  | c :: cs =>
    if c = '.' then [] :: segments cs
    else
      match segments cs with
      | [] => [[c]]
      | segment :: rest => (c :: segment) :: rest

/-- The position that a segment denotes: a run of digits, with a plus sign before it or not. -/
def position? (segment : List Char) : Option Nat :=
  let digits :=
    match segment with
    | '+' :: digits => digits
    | digits => digits
  if digits.isEmpty || !digits.all Char.isDigit then none else some (Text.digitsValue digits)

namespace Json

/-- Follows one segment from a value. -/
def segment? (value : Json) (segment : List Char) : Option Json :=
  match value with
  | .object entries => Entries.get? entries (String.ofList segment)
  | .array items => (position? segment).bind (items[·]?)
  | _ => none

/-- **Follows a dotted path** from a value. -/
def resolve? (value : Json) (path : String) : Option Json :=
  (segments path.toList).foldlM segment? value

end Json

end TreeQuery
