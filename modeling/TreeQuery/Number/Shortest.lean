import TreeQuery.Text.Digits
import TreeQuery.Number.Binary

/-!
# Number/Shortest — the fewest digits that read back

Every float has decimals that round to it.  `shortest` finds, in exact integer arithmetic, one
with the fewest digits, and of these the nearest to the float (of two equally near, the even
one).

On a grid `10 ^ e` the only candidates are the two neighbours of the float: if any point of the
grid rounds to the float, so does one of them.  Seventeen digits always suffice.
-/

namespace TreeQuery.Number

/-- A positive decimal `digits · 10 ^ exponent`. -/
structure Decimal where
  digits : Nat
  exponent : Int
  deriving DecidableEq, Repr

namespace Decimal

/-- The decimal as a quotient: the numerator. -/
def numerator (d : Decimal) : Nat :=
  d.digits * Nat.pow 10 d.exponent.toNat

/-- The decimal as a quotient: the denominator, a power of ten. -/
def denominator (d : Decimal) : Nat :=
  Nat.pow 10 (-d.exponent).toNat

end Decimal

namespace Binary

/-- Twice the upper end of the interval that rounds to `b`, in units of the last place. -/
def upperHalves (b : Binary) : Nat :=
  2 * b.mantissa + 1

/-- Four times the lower end of the interval that rounds to `b`, in units of the last place.
Below a power of two the neighbouring floats are twice as dense. -/
def lowerQuarters (b : Binary) : Nat :=
  if b.mantissa = Nat.pow 2 52 ∧ -1074 < b.exponent then 4 * b.mantissa - 1 else 4 * b.mantissa - 2

/-- Whether a decimal rounds to `b`.  The ends of the interval belong to an even mantissa. -/
def isNearest (b : Binary) (d : Decimal) : Bool :=
  let unit := d.denominator * Nat.pow 2 b.exponent.toNat
  let value := d.numerator * b.denominator
  let low := b.lowerQuarters * unit
  let high := 2 * b.upperHalves * unit
  if b.mantissa % 2 = 0 then low ≤ 4 * value && 4 * value ≤ high
  else low < 4 * value && 4 * value < high

/-- The position of the decimal point: the `k` with `10 ^ (k - 1) ≤ b < 10 ^ k`.  No positive
float lies below `10 ^ (-324)`, so the integer part of `b · 10 ^ 324` has `k + 324` digits. -/
def pointPosition (b : Binary) : Int :=
  (Text.digitsOf (b.numerator * Nat.pow 10 324 / b.denominator)).length - 324

/-- The better of the two neighbours of `b` on the grid `10 ^ e`, if one of them rounds to `b`. -/
def onGrid? (b : Binary) (e : Int) : Option Decimal :=
  let scaled := b.numerator * Nat.pow 10 (-e).toNat
  let unit := b.denominator * Nat.pow 10 e.toNat
  let below := scaled / unit
  let twice := 2 * (scaled % unit)
  let (near, far) :=
    if twice < unit ∨ (twice = unit ∧ below % 2 = 0) then (below, below + 1)
    else (below + 1, below)
  if b.isNearest ⟨near, e⟩ then some ⟨near, e⟩
  else if b.isNearest ⟨far, e⟩ then some ⟨far, e⟩
  else none

/-- **The shortest decimal that reads back as a positive `b`**: the first grid with a hit, from
one digit to seventeen.  A carry into the next place may leave trailing zeros. -/
def shortest (b : Binary) : Decimal :=
  let k := b.pointPosition
  ((List.range 17).findSome? fun n => b.onGrid? (k - (n + 1 : Nat))).getD ⟨0, 0⟩

end Binary

end TreeQuery.Number
