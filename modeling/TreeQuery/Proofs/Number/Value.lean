import Mathlib.Data.Rat.Cast.Defs
import TreeQuery.Number.Binary

/-!
# Proofs/Number/Value — the value of a float as a rational number

A finite float is the rational number `± mantissa · 2 ^ exponent` (`Binary.value`).  The test on the
parts of the float, a division of naturals with a remainder, finds the integer among these numbers
exactly (`exactInt?_eq_some_iff`).
-/

namespace TreeQuery.Number

namespace Binary

/-- The absolute value. -/
def magnitude (b : Binary) : ℚ :=
  b.mantissa * 2 ^ b.exponent

/-- The value. -/
def value (b : Binary) : ℚ :=
  if b.negative then -b.magnitude else b.magnitude

theorem denominator_pos (b : Binary) : 0 < b.denominator :=
  Nat.pow_pos Nat.two_pos

/-- A power of two as a quotient of naturals. -/
theorem two_zpow_eq_div (e : ℤ) : (2 : ℚ) ^ e = 2 ^ e.toNat / 2 ^ (-e).toNat := by
  obtain ⟨n, rfl | rfl⟩ := e.eq_nat_or_neg <;> simp

theorem magnitude_eq_div (b : Binary) : b.magnitude = b.numerator / b.denominator := by
  have hnumerator : (b.numerator : ℚ) = b.mantissa * 2 ^ b.exponent.toNat := by
    rw [numerator, Nat.pow_eq, Nat.cast_mul, Nat.cast_pow, Nat.cast_ofNat]
  have hdenominator : (b.denominator : ℚ) = 2 ^ (-b.exponent).toNat := by
    rw [denominator, Nat.pow_eq, Nat.cast_pow, Nat.cast_ofNat]
  rw [magnitude, two_zpow_eq_div, hnumerator, hdenominator, mul_div_assoc]

/-- The absolute value is an integer if the division leaves no remainder, namely the quotient. -/
theorem magnitude_eq_intCast_iff {b : Binary} {n : ℤ} :
    b.magnitude = n ↔
      b.numerator % b.denominator = 0 ∧ ((b.numerator / b.denominator : ℕ) : ℤ) = n := by
  have hpos := b.denominator_pos
  have hmul : b.magnitude = n ↔ (b.numerator : ℤ) = n * b.denominator := by
    rw [magnitude_eq_div, div_eq_iff (Nat.cast_ne_zero.2 hpos.ne')]
    norm_cast
  rw [hmul]
  constructor
  · intro h
    have hdvd : b.denominator ∣ b.numerator := Int.natCast_dvd_natCast.1 ⟨n, h.trans (mul_comm _ _)⟩
    refine ⟨Nat.mod_eq_zero_of_dvd hdvd, ?_⟩
    rw [Int.natCast_ediv, h, Int.mul_ediv_cancel _ (Int.natCast_ne_zero.2 hpos.ne')]
  · rintro ⟨hmod, rfl⟩
    rw [← Int.natCast_mul, Nat.div_mul_cancel (Nat.dvd_of_mod_eq_zero hmod)]

/-- **The integer read off the parts is the value.** -/
theorem toInt?_eq_some_iff {b : Binary} {v : ℤ} : b.toInt? = some v ↔ b.value = v := by
  rw [toInt?, value, Option.ite_none_right_eq_some, Option.some_inj]
  split
  · rw [neg_eq_iff_eq_neg, neg_eq_iff_eq_neg, ← Int.cast_neg, magnitude_eq_intCast_iff]
  · exact magnitude_eq_intCast_iff.symm

end Binary

/-- **The value of a float**, if it is finite. -/
def value? (x : Float) : Option ℚ :=
  (Binary.ofFloat? x).map Binary.value

/-- **The integer that a float denotes is its value.** -/
theorem exactInt?_eq_some_iff {x : Float} {v : ℤ} :
    exactInt? x = some v ↔ value? x = some (v : ℚ) := by
  rw [exactInt?, value?, Option.bind_eq_some_iff, Option.map_eq_some_iff]
  exact exists_congr fun b => and_congr_right fun _ => Binary.toInt?_eq_some_iff

/-- A float denotes no integer if it has no value or a fractional one. -/
theorem exactInt?_eq_none_iff {x : Float} :
    exactInt? x = none ↔ ∀ v : ℤ, value? x ≠ some (v : ℚ) := by
  rw [Option.eq_none_iff_forall_ne_some]
  exact forall_congr' fun _ => exactInt?_eq_some_iff.not

end TreeQuery.Number
