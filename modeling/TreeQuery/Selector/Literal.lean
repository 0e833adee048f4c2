import TreeQuery.Json.Basic
import TreeQuery.Number.Binary

/-!
# Selector/Literal — the literals of selectors and what they compare with

A literal is a number or a text.  It serves as a position (`Literal.index?`) and as the right
side of a property test, where it is compared with what a property holds (`Scalar`).
-/

namespace TreeQuery

/-- **A literal**: the operand of a positional predicate or of a property test. -/
inductive Literal
  | number (value : Float)
  | string (value : String)
  deriving DecidableEq

/-- The literal as a position.  A position is a whole number of 64 bits; one outside that range
is taken to the nearer end of it. -/
def Literal.index? : Literal → Option Int64
  | .number x => (Number.exactInt? x).map Int64.ofIntClamp
  | .string _ => none

/-- **What a property holds**, as far as a literal can be compared with it.  Booleans, `null`,
arrays and objects are `other`: they exist, but equal no literal. -/
inductive Scalar
  | number (value : Float)
  | string (value : String)
  | other
  deriving DecidableEq

namespace Scalar

/-- What a JSON value is as a property. -/
def ofJson : Json → Scalar
  | .number n => .number n.toFloat
  | .string s => .string s
  | _ => .other

/-- Strict equality: of the same type and of the same value.  Numbers compare as floats do, so
both zeros are equal and NaN equals nothing. -/
def equals : Scalar → Literal → Bool
  | .number x, .number y => x == y
  | .string s, .string t => s == t
  | _, _ => false

end Scalar

end TreeQuery
