import TreeQuery.Number.Shortest

/-!
# Number/Layout — how a float is laid out in text

A float is written with its shortest digits: in plain decimal while the point stays near them,
otherwise in scientific form.  The decisions of the format are gathered in one record.
-/

namespace TreeQuery.Number

/-- The decisions of a number format. -/
structure Layout where
  /-- Plain decimal is used when the point position exceeds this bound … -/
  plainAbove : Int
  /-- … and does not exceed this one. -/
  plainUpTo : Int
  /-- What follows a plain number without fractional digits. -/
  wholeEnding : String
  /-- What stands between the digits and a non-negative exponent. -/
  exponentMark : String
  /-- What stands between the digits and the magnitude of a negative exponent. -/
  negativeExponentMark : String

namespace Layout

/-- **Numbers in JSON texts**: plain from `0.00001` up to below `10 ^ 16`, with at least one
digit after the point; scientific outside, as in `1.5e+300` and `5e-324`. -/
def json : Layout where
  plainAbove := -5
  plainUpTo := 16
  wholeEnding := ".0"
  exponentMark := "e+"
  negativeExponentMark := "e-"

/-- The digits with the trailing zeros removed. -/
def significant (digits : List Char) : List Char :=
  (digits.reverse.dropWhile (· == '0')).reverse

/-- Digits `d₁ d₂ …` with the decimal point after the first `point` of them. -/
def placed (layout : Layout) (digits : List Char) (point : Int) : String :=
  if layout.plainAbove < point ∧ point ≤ layout.plainUpTo then
    if point ≤ 0 then
      String.ofList ('0' :: '.' :: (List.replicate (-point).toNat '0' ++ digits))
    else if digits.length ≤ point.toNat then
      String.ofList (digits ++ List.replicate (point.toNat - digits.length) '0') ++ layout.wholeEnding
    else
      String.ofList (digits.take point.toNat ++ '.' :: digits.drop point.toNat)
  else
    let exponent := point - 1
    let mark := if exponent < 0 then layout.negativeExponentMark else layout.exponentMark
    let fraction := if digits.length ≤ 1 then [] else '.' :: digits.drop 1
    String.ofList (digits.take 1 ++ fraction) ++ mark ++ String.ofList (Text.digitsOf exponent.natAbs)

/-- The text of a finite float. -/
def text (layout : Layout) (b : Binary) : String :=
  let sign := if b.negative then "-" else ""
  if b.mantissa = 0 then sign ++ "0" ++ layout.wholeEnding
  else
    let d := b.shortest
    let digits := Text.digitsOf d.digits
    sign ++ layout.placed (significant digits) (digits.length + d.exponent)

end Layout

end TreeQuery.Number
