import TreeQuery.Text.Digits

/-!
# Number/Scientific — the float nearest to a decimal

A decimal `± digits · 10 ^ exponent` is read as the nearest float, ties to the even neighbour.
Above the largest float it is read as an infinity, below half the smallest positive one as zero.
-/

namespace TreeQuery.Number

/-- A decimal number `± digits · 10 ^ exponent`. -/
structure Scientific where
  negative : Bool
  digits : Nat
  exponent : Int
  deriving DecidableEq, Repr

namespace Scientific

/-- The magnitude, rounded to the nearest float.

A number of `n` digits lies between `10 ^ (n - 1 + exponent)` and `10 ^ (n + exponent)`.  Floats
end below `10 ^ 309`, and what lies below `10 ^ (-324)` rounds to zero, so an exponent far
outside this range need not be raised to a power. -/
def magnitude (d : Scientific) : Float :=
  let size := (Text.digitsOf d.digits).length + d.exponent
  if d.digits = 0 ∨ size < -400 then 0.0
  else if 400 < size then 1.0 / 0.0
  else if d.exponent < 0 then Float.ofScientific d.digits true (-d.exponent).toNat
  else Float.ofScientific d.digits false d.exponent.toNat

/-- **The float nearest to a decimal.**  The sign is kept on zero. -/
def toFloat (d : Scientific) : Float :=
  if d.negative then -d.magnitude else d.magnitude

end Scientific

end TreeQuery.Number
