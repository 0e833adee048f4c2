import Mathlib.Data.List.Induction
import TreeQuery.Text.Digits

/-!
# Proofs/Text/Digits — what a run of digits denotes

A run of digits has a value, and the digits of a number have that number as their value.  Other runs
of the same value only have zeros in front (`digitsValue_eq_iff`).  With a plus sign or without,
these runs are the numerals that denote the number (`Denotes`).
-/

namespace TreeQuery.Text

variable {c : Char} {ds : List Char} {n : Nat}

theorem digitsValue_eq_ofDigitChars (ds : List Char) : digitsValue ds = Nat.ofDigitChars 10 ds 0 :=
  rfl

/-- Writing a number and reading it back. -/
theorem digitsValue_digitsOf (n : Nat) : digitsValue (digitsOf n) = n :=
  Nat.ofDigitChars_ten_toDigits

theorem isDigit_of_mem_digitsOf (h : c ∈ digitsOf n) : c.isDigit = true :=
  Nat.isDigit_of_mem_toDigits (by decide) (by decide) h

/-- A digit is below ten, and is the digit of its value. -/
theorem digitChar_digitValue (h : c.isDigit = true) :
    digitValue c < 10 ∧ (digitValue c).digitChar = c := by
  obtain ⟨hlow, hhigh⟩ := Char.isDigit_iff_toNat.1 h
  have hzero : '0'.toNat = 48 := rfl
  have hnine : '9'.toNat = 57 := rfl
  have hlt : digitValue c < 10 := by rw [digitValue]; omega
  refine ⟨hlt, Char.toNat_inj.1 ?_⟩
  rw [Nat.toNat_digitChar_of_lt_ten hlt, digitValue]
  omega

theorem digitsOf_digitValue (h : c.isDigit = true) : digitsOf (digitValue c) = [c] := by
  obtain ⟨hlt, hchar⟩ := digitChar_digitValue h
  rw [digitsOf, Nat.toDigits_of_lt_base hlt, hchar]

/-- A digit after those of a number. -/
theorem digitsOf_append_digit (hn : 0 < n) (h : c.isDigit = true) :
    digitsOf n ++ [c] = digitsOf (10 * n + digitValue c) := by
  rw [← digitsOf_digitValue h]
  exact Nat.toDigits_append_toDigits (by decide) hn (digitChar_digitValue h).1

theorem digitsValue_append_digit (ds : List Char) (c : Char) :
    digitsValue (ds ++ [c]) = 10 * digitsValue ds + digitValue c := by
  simp [digitsValue]

/-- **The runs of digits with a given value** are the digits of that number, after any number of
zeros. -/
theorem digitsValue_eq_iff (hne : ds ≠ []) (hdigits : ∀ c ∈ ds, c.isDigit = true) :
    digitsValue ds = n ↔ ∃ zeros, ds = List.replicate zeros '0' ++ digitsOf n := by
  constructor
  · rintro rfl
    -- digit by digit, from the front: the last one is kept apart
    induction ds using List.reverseRecOn with
    | nil => exact absurd rfl hne
    | append_singleton ds c ih =>
      have hc : c.isDigit = true := hdigits c (by simp)
      rw [digitsValue_append_digit]
      by_cases hds : ds = []
      · subst hds
        have hone : 10 * digitsValue [] + digitValue c = digitValue c := Nat.zero_add _
        exact ⟨0, by rw [hone, digitsOf_digitValue hc]; rfl⟩
      obtain ⟨zeros, hzeros⟩ := ih hds fun d hd => hdigits d (List.mem_append_left _ hd)
      obtain hzero | hpos := Nat.eq_zero_or_pos (digitsValue ds)
      · -- only zeros so far: the digits of `0` are one more
        refine ⟨zeros + 1, ?_⟩
        rw [hzero] at hzeros ⊢
        rw [Nat.mul_zero, Nat.zero_add, digitsOf_digitValue hc, List.replicate_succ', hzeros]
        rfl
      · refine ⟨zeros, ?_⟩
        rw [← digitsOf_append_digit hpos hc, ← List.append_assoc, ← hzeros]
  · rintro ⟨zeros, rfl⟩
    rw [digitsValue_eq_ofDigitChars, Nat.ofDigitChars_append, Nat.ofDigitChars_replicate_zero,
      Nat.mul_zero]
    exact digitsValue_digitsOf n

/-! ## Numerals -/

/-- **A numeral denotes a number**: it consists of the digits of the number, of any number of zeros
before them and perhaps of a plus sign in front. -/
def Denotes (cs : List Char) (n : Nat) : Prop :=
  ∃ sign zeros, (sign = [] ∨ sign = ['+']) ∧
    cs = sign ++ List.replicate zeros '0' ++ digitsOf n

theorem denotes_digitsOf (n : Nat) : Denotes (digitsOf n) n :=
  ⟨[], 0, .inl rfl, rfl⟩

/-- Zeros before the digits of a number are digits too. -/
theorem isDigit_of_mem_zeros_append {zeros : Nat}
    (h : c ∈ List.replicate zeros '0' ++ digitsOf n) : c.isDigit = true := by
  rcases List.mem_append.1 h with hzero | hdigit
  · rw [List.eq_of_mem_replicate hzero]
    rfl
  · exact isDigit_of_mem_digitsOf hdigit

end TreeQuery.Text
