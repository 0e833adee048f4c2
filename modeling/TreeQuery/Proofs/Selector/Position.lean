import TreeQuery.Proofs.Number.Value
import TreeQuery.Selector.Match

/-!
# Proofs/Selector/Position — positions of 64 bits select what exact positions would

A literal denotes the integer that is its value (`Literal.Denotes`).  As a position that integer is
clamped to 64 bits and counted there (`nthIn`).  In a sequence that 64 bits can count, neither the
clamping nor the addition for a negative position shows: `nthIn_ofIntClamp` states the item selected
in unbounded integers.
-/

namespace TreeQuery

/-- The place in a sequence that a position means: counted from the front, or, if it is negative,
from the end.  Not every such place exists. -/
def placeOf (position : Int) (length : Nat) : Int :=
  if position < 0 then length + position else position

/-- **A literal denotes a position**: it is a number whose value is that integer. -/
def Literal.Denotes : Literal → Int → Prop
  | .number x, position => Number.value? x = some (position : ℚ)
  | .string _, _ => False

/-- A literal is taken as the position that it denotes, clamped. -/
theorem Literal.index?_eq_some_iff {literal : Literal} {k : Int64} :
    literal.index? = some k ↔
      ∃ position, literal.Denotes position ∧ Int64.ofIntClamp position = k := by
  cases literal with
  | number x =>
    rw [index?, Option.map_eq_some_iff]
    exact exists_congr fun _ => and_congr_left' Number.exactInt?_eq_some_iff
  | string s => exact iff_of_false nofun fun ⟨_, hfalse, _⟩ => hfalse

theorem Literal.index?_eq_none_iff {literal : Literal} :
    literal.index? = none ↔ ∀ position, ¬ literal.Denotes position := by
  rw [Option.eq_none_iff_forall_ne_some]
  refine ⟨fun h position hposition => ?_, fun h k hk => ?_⟩
  · exact h _ (index?_eq_some_iff.2 ⟨position, hposition, rfl⟩)
  · obtain ⟨position, hposition, -⟩ := index?_eq_some_iff.1 hk
    exact h position hposition

/-- The clamped integer is the integer itself or lies at the end of the range that it exceeds. -/
theorem toInt_ofIntClamp (v : Int) :
    (Int64.ofIntClamp v).toInt = max (-2 ^ 63) (min v (2 ^ 63 - 1)) := by
  have hmin : Int64.minValue.toInt = -2 ^ 63 := rfl
  have hmax : Int64.maxValue.toInt = 2 ^ 63 - 1 := rfl
  by_cases hl : Int64.minValue.toInt ≤ v
  · by_cases hr : v ≤ Int64.maxValue.toInt
    · rw [Int64.toInt_ofIntClamp hl hr]
      omega
    · rw [Int64.ofIntClamp, dif_pos hl, dif_neg hr]
      omega
  · rw [Int64.ofIntClamp, dif_neg hl]
    omega

/-- **In a sequence that 64 bits can count, no position overflows.** -/
theorem toInt_placeOf {k : Int64} {length : Nat} (h : length < 2 ^ 63) :
    (if k < 0 then Int64.ofNat length + k else k).toInt = placeOf k.toInt length := by
  have hneg : k < 0 ↔ k.toInt < 0 := by rw [Int64.lt_iff_toInt_lt, Int64.toInt_zero]
  by_cases hk : k.toInt < 0
  · have := k.le_toInt
    rw [placeOf, if_pos hk, if_pos (hneg.2 hk), Int64.toInt_add, Int64.toInt_ofNat_of_lt h,
      Int.bmod_eq_of_le] <;> omega
  · rw [placeOf, if_neg hk, if_neg (mt hneg.1 hk)]

/-- A literal that is a position picks from every sequence the item there. -/
theorem nthChild_find_of_index? {literal : Literal} {k : Int64} (h : literal.index? = some k)
    (root : Place) :
    (Selector.nthChild literal).find root = (sequences root).filterMap (nthIn k) := by
  rw [Selector.find, h]

theorem nthChild_find_of_index?_eq_none {literal : Literal} (h : literal.index? = none)
    (root : Place) : (Selector.nthChild literal).find root = [] := by
  rw [Selector.find, h]

/-- A position selects nodes of the sequence only. -/
theorem mem_and_isNode_of_nthIn {k : Int64} {s : List Place} {p : Place} (h : nthIn k s = some p) :
    p ∈ s ∧ p.isNode = true := by
  simp only [nthIn] at h
  obtain ⟨_, h⟩ := Option.ite_none_right_eq_some.1 h
  obtain ⟨hp, hnode⟩ := Option.filter_eq_some_iff.1 h
  exact ⟨List.mem_of_getElem? hp, hnode⟩

/-- The node at an integer of which it is known that it is not negative. -/
theorem filter_getElem?_toNat_eq_some_iff {v : Int} (hv : 0 ≤ v) {s : List Place} {p : Place} :
    s[v.toNat]?.filter Place.isNode = some p ↔
      p.isNode = true ∧ ∃ i : Nat, s[i]? = some p ∧ (i : Int) = v := by
  rw [Option.filter_eq_some_iff, and_comm]
  refine and_congr_right fun _ => ⟨fun h => ⟨_, h, Int.toNat_of_nonneg hv⟩, ?_⟩
  rintro ⟨i, hi, rfl⟩
  rwa [Int.toNat_natCast]

/-- The item at a position of 64 bits, in unbounded integers. -/
theorem nthIn_eq_some_iff {k : Int64} {s : List Place} (hs : s.length < 2 ^ 63) {p : Place} :
    nthIn k s = some p ↔
      p.isNode = true ∧ ∃ i : Nat, s[i]? = some p ∧ (i : Int) = placeOf k.toInt s.length := by
  have hplace := toInt_placeOf (k := k) hs
  simp only [nthIn]
  generalize (if k < 0 then Int64.ofNat s.length + k else k) = j at hplace
  simp only [← hplace, Int64.le_iff_toInt_le, Int64.lt_iff_toInt_lt, Int64.toInt_ofNat_of_lt hs,
    Int64.toInt_zero]
  split
  · next hj => rw [← Int64.toNat_toInt, filter_getElem?_toNat_eq_some_iff hj.1]
  · next hj =>
    refine iff_of_false (by simp) ?_
    rintro ⟨_, i, hi, hij⟩
    have := (List.getElem?_eq_some_iff.1 hi).1
    omega

/-- **Clamping a position to 64 bits changes nothing**: the item is the one at the exact
position. -/
theorem nthIn_ofIntClamp {v : Int} {s : List Place} (hs : s.length < 2 ^ 63) {p : Place} :
    nthIn (Int64.ofIntClamp v) s = some p ↔
      p.isNode = true ∧ ∃ i : Nat, s[i]? = some p ∧ (i : Int) = placeOf v s.length := by
  rw [nthIn_eq_some_iff hs, toInt_ofIntClamp]
  refine and_congr_right fun _ => exists_congr fun i => and_congr_right fun hi => ?_
  have := (List.getElem?_eq_some_iff.1 hi).1
  simp only [placeOf]
  split <;> split <;> omega

end TreeQuery
