import TreeQuery.Proofs.Selector.Meaning

/-!
# Proofs/Selector/Conjunction — where a predicate is conjoined

A conjunction keeps what its left operand lists and its right operand lists too, so conjoining is
filtering: by one selector (`Selector.find_both`) or by a row of them (`Selector.find_withAll`).
Membership is by path, and among filtered places it is membership and the filter
(`Place.among_filter`).

Filtering the right operand of a combinator is therefore filtering what the combinator lists, for
all but the sibling combinator (`Combinator.relate_filter`).  That one looks for the nearest match,
and a narrower right operand may put it further away.
-/

namespace TreeQuery

/-! ## Membership among filtered places -/

namespace Place

/-- The path decides whether a place is among others. -/
theorem among_congr {p q : Place} (h : p.path = q.path) (places : List Place) :
    p.among places = q.among places := by
  have hsame : p.isSame = q.isSame := funext fun r => by rw [isSame, isSame, h]
  rw [among, among, hsame]

/-- **Among the filtered places are the places that pass the filter**, if it looks at paths only. -/
theorem among_filter {f : Place → Bool} (hf : ∀ p q : Place, p.path = q.path → f p = f q)
    (p : Place) (places : List Place) : p.among (places.filter f) = (p.among places && f p) := by
  rw [Bool.eq_iff_iff, Bool.and_eq_true, among, among, List.any_filter, List.any_eq_true,
    List.any_eq_true]
  constructor
  · rintro ⟨q, hq, h⟩
    obtain ⟨hpass, hsame⟩ := Bool.and_eq_true_iff.1 h
    exact ⟨⟨q, hq, hsame⟩, (hf p q (beq_iff_eq.1 hsame)).trans hpass⟩
  · rintro ⟨⟨q, hq, hsame⟩, hpass⟩
    have hpass' : f q = true := (hf p q (beq_iff_eq.1 hsame)).symm.trans hpass
    exact ⟨q, hq, Bool.and_eq_true_iff.2 ⟨hpass', hsame⟩⟩

theorem among_filter_among (p : Place) (places others : List Place) :
    p.among (places.filter (among others)) = (p.among places && p.among others) :=
  among_filter (fun _ _ h => among_congr h others) p places

end Place

/-! ## Filtering the right operand of a combinator -/

namespace Combinator

variable (root : Place) (left right others : List Place)

theorem findDescendants_filter :
    findDescendants root left (right.filter (Place.among others)) =
      (findDescendants root left right).filter (Place.among others) := by
  rw [findDescendants, findDescendants, List.filter_filterMap]
  refine List.filterMap_congr fun entry _ => ?_
  obtain ⟨p, below⟩ := entry
  simp only [Place.among_filter_among, ← Bool.and_assoc]
  by_cases h : (below && p.among right) = true <;> by_cases h' : p.among others = true <;>
    simp [h, h', Option.filter]

theorem findChildren_filter :
    findChildren root left (right.filter (Place.among others)) =
      (findChildren root left right).filter (Place.among others) := by
  rw [findChildren, findChildren, List.filter_filterMap]
  refine List.filterMap_congr fun entry _ => ?_
  obtain ⟨p, parent⟩ := entry
  cases parent with
  | none => rfl
  | some parent =>
    simp only [Place.among_filter_among]
    by_cases h : p.among right = true <;> by_cases h' : p.among others = true <;>
      by_cases hholds : parent.holds p = true <;> simp [h, h', hholds, Option.filter]

theorem adjacentIn_filter : ∀ s : List Place,
    adjacentIn left (right.filter (Place.among others)) s =
      (adjacentIn left right s).filter (Place.among others)
  | [] => rfl
  | [_] => rfl
  | item :: next :: later => by
    rw [adjacentIn, adjacentIn, List.filter_append, adjacentIn_filter (next :: later),
      Place.among_filter_among, ← Bool.and_assoc]
    by_cases h : (item.among left && next.among right) = true <;>
      by_cases h' : next.among others = true <;> simp [h, h']

/-- **Filtering the right operand filters what the combinator lists**, in the same order and with
the same repeats, unless the combinator looks for the nearest right match. -/
theorem relate_filter {combinator : Combinator} (h : combinator ≠ .sibling) :
    combinator.relate root left (right.filter (Place.among others)) =
      (combinator.relate root left right).filter (Place.among others) := by
  match combinator with
  | .descendant => exact findDescendants_filter root left right others
  | .child => exact findChildren_filter root left right others
  | .sibling => exact absurd rfl h
  | .adjacent =>
    rw [relate, relate, List.filter_flatMap]
    exact List.flatMap_congr fun s _ => adjacentIn_filter left right others s

end Combinator

/-! ## Selectors -/

namespace Selector

/-- Conjoining is filtering. -/
theorem find_both (root : Place) (left right : Selector) :
    (both left right).find root = (left.find root).filter (Place.among (right.find root)) := rfl

/-- A selector with a row of others conjoined to it, one after the other. -/
def withAll (row : List Selector) (S : Selector) : Selector :=
  row.foldl both S

/-- Whether a place is among the matches of every selector of a row. -/
def matchedByAll (root : Place) (row : List Selector) (p : Place) : Bool :=
  row.all fun Q => p.among (Q.find root)

theorem matchedByAll_congr (root : Place) (row : List Selector) {p q : Place}
    (h : p.path = q.path) : matchedByAll root row p = matchedByAll root row q := by
  have hamong : ∀ Q : Selector, p.among (Q.find root) = q.among (Q.find root) := fun Q =>
    Place.among_congr h (Q.find root)
  simp only [matchedByAll, hamong]

/-- **Conjoining a row of selectors** keeps the matches that each of them matches too. -/
theorem find_withAll (root : Place) : ∀ (row : List Selector) (S : Selector),
    (withAll row S).find root = (S.find root).filter (matchedByAll root row)
  | [], S => (List.filter_eq_self.2 fun _ _ => rfl).symm
  | Q :: row, S => by
    rw [withAll, List.foldl_cons, ← withAll, find_withAll root row, find_both, List.filter_filter]
    exact List.filter_congr fun p _ => Bool.and_comm (matchedByAll root row p) _

/-- **A conjunction with a combination is a conjunction with its right operand**: for the
descendant, the child and the adjacent combinator both list the same places, in the same order and
with the same repeats. -/
theorem find_both_combine (document : Json) (combinator : Combinator) (h : combinator ≠ .sibling)
    (left right predicate : Selector) :
    (both (combine combinator left right) predicate).find (Place.root document) =
      (combine combinator left (both right predicate)).find (Place.root document) :=
  (Combinator.relate_filter (Place.root document) (left.find (Place.root document))
    (right.find (Place.root document)) (predicate.find (Place.root document)) h).symm

/-- The last child of the `P` is the same place, whether it is the last of the children or a child
that is the last of its sequence. -/
theorem find_both_combine_sampleDocument :
    Combinator.child ≠ .sibling ∧
    (both (combine .child (.identifier "P") .wildcard) lastChild).find (Place.root sampleDocument) =
      (combine .child (.identifier "P") (both .wildcard lastChild)).find
        (Place.root sampleDocument) ∧
    ((combine .child (.identifier "P") (both .wildcard lastChild)).find
      (Place.root sampleDocument)).map Place.path = [[.key "body", .index 3]] := by
  have hchild : Combinator.child ≠ .sibling := by decide
  exact ⟨hchild, find_both_combine sampleDocument .child hchild _ _ _, by decide +kernel⟩

end Selector

end TreeQuery
