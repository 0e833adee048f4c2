/-!
# Number/Binary — the exact value of a float

A finite float is `± mantissa · 2 ^ exponent` with a mantissa below `2 ^ 53`.  `Binary.ofFloat?`
reads these parts off the bits, so that questions about the exact value (is it an integer, which
decimals round to it) are settled in integer arithmetic.
-/

namespace TreeQuery.Number

/-- **The exact value of a finite float**: `± mantissa · 2 ^ exponent`. -/
structure Binary where
  /-- Whether the sign bit is set; zero has a sign too. -/
  negative : Bool
  mantissa : Nat
  exponent : Int
  deriving DecidableEq, Repr

namespace Binary

/-- The parts of a float, or `none` for an infinity and for NaN.

Of the 64 bits the lowest 52 are the fraction, the next 11 the biased exponent, the highest the
sign.  A biased exponent of zero marks the subnormal numbers, which lack the implicit leading
one; all ones mark the infinities and NaN. -/
def ofFloat? (x : Float) : Option Binary :=
  let bits : Nat := x.toBits.toNat
  let fraction : Nat := bits % Nat.pow 2 52
  let biased : Nat := bits / Nat.pow 2 52 % Nat.pow 2 11
  let negative : Bool := bits / Nat.pow 2 63 == 1
  if biased = 2047 then none
  else if biased = 0 then some ⟨negative, fraction, -1074⟩
  else some ⟨negative, Nat.pow 2 52 + fraction, (biased : Int) - 1075⟩

/-- The absolute value as a quotient: the numerator. -/
def numerator (b : Binary) : Nat :=
  b.mantissa * Nat.pow 2 b.exponent.toNat

/-- The absolute value as a quotient: the denominator, a power of two. -/
def denominator (b : Binary) : Nat :=
  Nat.pow 2 (-b.exponent).toNat

/-- The value, where it is an integer. -/
def toInt? (b : Binary) : Option Int :=
  if b.numerator % b.denominator = 0 then
    let n := b.numerator / b.denominator
    some (if b.negative then -(n : Int) else n)
  else none

end Binary

/-- **The integer that a float denotes**, or `none` for an infinity, NaN or a fractional value.
Both zeros denote `0`. -/
def exactInt? (x : Float) : Option Int :=
  (Binary.ofFloat? x).bind Binary.toInt?

end TreeQuery.Number
