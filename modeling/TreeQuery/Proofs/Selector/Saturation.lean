import TreeQuery.Proofs.Selector.Position

/-!
# Proofs/Selector/Saturation — a literal as a position, in words and in integers

A number literal is turned into a word of 64 bits, saturating (`Literal.index?`), and the word is
counted in a sequence with the arithmetic of words (`counted`).  In a sequence that words can count
no step of this departs from the integers (`Counts`), so the item selected is the one at the value
of the literal, however large it is (`itemAt`).
-/

namespace TreeQuery

/-! ## Counting in words -/

/-- The place in a sequence that an index means, in the arithmetic of 64-bit words. -/
def counted (k : Int64) (length : Nat) : Int64 :=
  if k < 0 then Int64.ofNat length + k else k

/-- **Counting in words is counting in integers**, for one index and one sequence. -/
structure Counts (k : Int64) (items : List Place) : Prop where
  /-- The length is not truncated. -/
  length_eq : (Int64.ofNat items.length).toInt = items.length
  /-- The sum, which is taken for a negative index, does not overflow. -/
  no_overflow : k < 0 → (Int64.ofNat items.length).toBitVec.saddOverflow k.toBitVec = false
  /-- The place is the one that integers give. -/
  counted_eq : (counted k items.length).toInt = placeOf k.toInt items.length
  /-- A place that passes the check is turned into the same natural number, one of an item. -/
  access : 0 ≤ counted k items.length → counted k items.length < Int64.ofNat items.length →
    (counted k items.length).toNatClampNeg < items.length ∧
      ((counted k items.length).toNatClampNeg : Int) = (counted k items.length).toInt
  /-- The item is taken from that place if it passes the check. -/
  nthIn_eq : nthIn k items =
    if 0 ≤ counted k items.length ∧ counted k items.length < Int64.ofNat items.length then
      items[(counted k items.length).toNatClampNeg]?.filter Place.isNode
    else none

/-- A natural number below the limit and a negative word have a sum among the words. -/
theorem saddOverflow_ofNat_eq_false {k : Int64} {length : Nat} (hlength : length < 2 ^ 63)
    (hk : k < 0) : (Int64.ofNat length).toBitVec.saddOverflow k.toBitVec = false := by
  rw [Int64.lt_iff_toInt_lt, Int64.toInt_zero] at hk
  have hleast := k.le_toInt
  rw [BitVec.saddOverflow, Int64.toInt_toBitVec, Int64.toInt_toBitVec,
    Int64.toInt_ofNat_of_lt hlength, Bool.or_eq_false_iff, decide_eq_false_iff_not,
    decide_eq_false_iff_not]
  omega

/-- **No index leads out of the words** in a sequence whose length is below the limit. -/
theorem counts {items : List Place} (hlength : items.length < 2 ^ 63) (k : Int64) :
    Counts k items where
  length_eq := Int64.toInt_ofNat_of_lt hlength
  no_overflow := saddOverflow_ofNat_eq_false hlength
  counted_eq := toInt_placeOf hlength
  access hlow hhigh := by
    rw [Int64.le_iff_toInt_le, Int64.toInt_zero] at hlow
    rw [Int64.lt_iff_toInt_lt, Int64.toInt_ofNat_of_lt hlength] at hhigh
    have hcast : ((counted k items.length).toNatClampNeg : Int) =
        (counted k items.length).toInt := by
      rw [← Int64.toNat_toInt, Int.toNat_of_nonneg hlow]
    exact ⟨by omega, hcast⟩
  nthIn_eq := rfl

/-! ## Counting in integers -/

/-- **The item at an integer position**, if it is a node: from the front, or, for a negative
position, from the end. -/
def itemAt (v : Int) (items : List Place) : Option Place :=
  if 0 ≤ v ∧ v < items.length then items[v.toNat]?.filter Place.isNode
  else if -items.length ≤ v ∧ v < 0 then items[(items.length + v).toNat]?.filter Place.isNode
  else none

theorem itemAt_eq_some_iff {v : Int} {items : List Place} {p : Place} :
    itemAt v items = some p ↔
      p.isNode = true ∧ ∃ i : Nat, items[i]? = some p ∧ (i : Int) = placeOf v items.length := by
  rw [itemAt, placeOf]
  split
  · next h => rw [if_neg (by omega), filter_getElem?_toNat_eq_some_iff h.1]
  split
  · next h => rw [if_pos h.2, filter_getElem?_toNat_eq_some_iff (by omega)]
  · next hfront hback =>
    refine iff_of_false (by simp) ?_
    rintro ⟨-, i, hi, hv⟩
    have hi := (List.getElem?_eq_some_iff.1 hi).1
    split at hv <;> omega

/-- **Saturation does not show**: the item at a saturated position is the one at the position. -/
theorem nthIn_ofIntClamp_eq {items : List Place} (hlength : items.length < 2 ^ 63) (v : Int) :
    nthIn (Int64.ofIntClamp v) items = itemAt v items :=
  Option.ext fun _ => (nthIn_ofIntClamp hlength).trans itemAt_eq_some_iff.symm

/-! ## Number literals -/

/-- **A number literal selects by its value.**  If the value is not a finite integer, nothing is
selected.  If it is, of any magnitude, every sequence contributes what the saturated value selects
in it, and in a sequence that 64 bits can count that is the item at the value itself: no sum
overflows, no access is out of range, and the item is the one that integers give. -/
theorem nthChild_number_exact (x : Float) :
    ((∀ v : ℤ, Number.value? x ≠ some (v : ℚ)) →
      ∀ root, (Selector.nthChild (.number x)).find root = []) ∧
    ∀ v : ℤ, Number.value? x = some (v : ℚ) →
      (∀ root, (Selector.nthChild (.number x)).find root =
        (sequences root).filterMap (nthIn (Int64.ofIntClamp v))) ∧
      ∀ items : List Place, items.length ≤ 2 ^ 63 - 1 →
        Counts (Int64.ofIntClamp v) items ∧
          nthIn (Int64.ofIntClamp v) items = itemAt v items := by
  constructor
  · intro hvalue root
    have hindex : (Literal.number x).index? = none := Literal.index?_eq_none_iff.2 hvalue
    exact nthChild_find_of_index?_eq_none hindex root
  · intro v hvalue
    have hindex : (Literal.number x).index? = some (Int64.ofIntClamp v) :=
      Literal.index?_eq_some_iff.2 ⟨v, hvalue, rfl⟩
    refine ⟨nthChild_find_of_index? hindex, fun items hlength => ?_⟩
    have hlength : items.length < 2 ^ 63 := by omega
    exact ⟨counts hlength _, nthIn_ofIntClamp_eq hlength v⟩

/-- Two nodes and, between them, an item that is not one. -/
def threeItems : Json :=
  .array [.object [("type", .string "A")], .null, .object [("type", .string "B")]]

/-- Among three items, negative zero selects the first and `-1` the last; `±10 ^ 19`, which are no
words of 64 bits, select none, and a half selects nothing in any document.  All these words count
the three items. -/
theorem nthChild_number_threeItems :
    let items := (Place.root threeItems).items
    (∀ root, (Selector.nthChild (.number 0.5)).find root = []) ∧
    (Selector.nthChild (.number (-0.0))).find (Place.root threeItems) =
      [⟨[.index 0], .object [("type", .string "A")]⟩] ∧
    (Selector.nthChild (.number (-1))).find (Place.root threeItems) =
      [⟨[.index 2], .object [("type", .string "B")]⟩] ∧
    (Selector.nthChild (.number 1e19)).find (Place.root threeItems) = [] ∧
    (Selector.nthChild (.number (-1e19))).find (Place.root threeItems) = [] ∧
    Counts (Int64.ofIntClamp 0) items ∧ Counts (Int64.ofIntClamp (-1)) items ∧
    Counts (Int64.ofIntClamp (10 ^ 19)) items ∧ Counts (Int64.ofIntClamp (-10 ^ 19)) items := by
  intro items
  have hlength : items.length ≤ 2 ^ 63 - 1 := by decide
  have hsequences : sequences (Place.root threeItems) = [items] := rfl
  have hhalf : Number.exactInt? 0.5 = none := by decide +kernel
  have hzero : Number.exactInt? (-0.0) = some 0 := by decide +kernel
  have hlast : Number.exactInt? (-1) = some (-1) := by decide +kernel
  have hlarge : Number.exactInt? 1e19 = some (10 ^ 19) := by decide +kernel
  have hsmall : Number.exactInt? (-1e19) = some (-10 ^ 19) := by decide +kernel
  have hat {x : Float} {v : ℤ} (hv : Number.exactInt? x = some v) :
      (Selector.nthChild (.number x)).find (Place.root threeItems) =
        [items].filterMap (itemAt v) ∧ Counts (Int64.ofIntClamp v) items := by
    obtain ⟨hfind, hitems⟩ := (nthChild_number_exact x).2 v (Number.exactInt?_eq_some_iff.1 hv)
    obtain ⟨hcounts, hnth⟩ := hitems items hlength
    refine ⟨?_, hcounts⟩
    rw [hfind, hsequences, List.filterMap_cons, List.filterMap_cons, hnth]
    rfl
  exact ⟨(nthChild_number_exact 0.5).1 (Number.exactInt?_eq_none_iff.1 hhalf), (hat hzero).1,
    (hat hlast).1, (hat hlarge).1, (hat hsmall).1, (hat hzero).2, (hat hlast).2, (hat hlarge).2,
    (hat hsmall).2⟩

end TreeQuery
