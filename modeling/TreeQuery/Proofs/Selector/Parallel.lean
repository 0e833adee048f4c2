import TreeQuery.Proofs.Document.Parallel
import TreeQuery.Proofs.Selector.Multiplicity

/-!
# Proofs/Selector/Parallel — structural selectors match in step

A structural selector asks nothing of a node but its kind and how it stands to others.  Between
documents whose walks run in step (`Parallel`) it therefore lists related places, one by one
(`Parallel.find`), and so the same paths (`Parallel.locations_eq`).  Each combinator lists related
places for related operands (`Parallel.relate`), and a position picks related items of related
sequences (`Parallel.nthIn`).
-/

open List (Forall₂)

namespace TreeQuery

/-- **A structural selector** has no property tests. -/
def Selector.Structural : Selector → Prop
  | .combine _ left right => left.Structural ∧ right.Structural
  | .both left right => left.Structural ∧ right.Structural
  | .attribute _ _ => False
  | _ => True

variable {R : Place → Place → Prop}

/-- What stands at one index of related lists is related. -/
theorem rel_getElem? {s s' : List Place} (hs : Forall₂ R s s') :
    ∀ i : Nat, Option.Rel R s[i]? s'[i]? := by
  induction hs with
  | nil => exact fun _ => .none
  | cons hab _ ih =>
    intro i
    match i with
    | 0 => exact .some hab
    | i + 1 => exact ih i

theorem forall₂_toList {α β : Type} {P : α → β → Prop} {o : Option α} {o' : Option β} :
    Option.Rel P o o' → Forall₂ P o.toList o'.toList
  | .some h => .cons h .nil
  | .none => .nil

namespace Parallel

variable (h : Parallel R) {p q : Place} {left left' right right' s s' : List Place}

include h

/-- A place is among others if the related place is among the related others. -/
theorem among_eq (hpq : R p q) (hs : Forall₂ R s s') : q.among s' = p.among s := by
  induction hs with
  | nil => rfl
  | @cons a b _ _ hab _ ih =>
    have hsame : q.isSame b = p.isSame a := by
      rw [Place.isSame, Place.isSame, h.path_eq hpq, h.path_eq hab]
    simp only [Place.among, List.any_cons] at ih ⊢
    rw [hsame, ih]

theorem holds_eq {parent parent' : Place} (hparent : R parent parent') (hpq : R p q) :
    parent'.holds q = parent.holds p :=
  h.among_eq hpq (h.held hparent)

/-! ## Sequences -/

theorem find?_among (hright : Forall₂ R right right') (hs : Forall₂ R s s') :
    Option.Rel R (s.find? (Place.among right)) (s'.find? (Place.among right')) := by
  induction hs with
  | nil => exact .none
  | cons hab _ ih =>
    rw [List.find?_cons, List.find?_cons, h.among_eq hab hright]
    split
    · exact .some hab
    · exact ih

theorem siblingsIn (hleft : Forall₂ R left left') (hright : Forall₂ R right right')
    (hs : Forall₂ R s s') :
    Forall₂ R (Combinator.siblingsIn left right s) (Combinator.siblingsIn left' right' s') := by
  induction hs with
  | nil => exact .nil
  | cons hab hlater ih =>
    rw [Combinator.siblingsIn, Combinator.siblingsIn, h.among_eq hab hleft]
    refine List.rel_append ?_ ih
    split
    · exact forall₂_toList (h.find?_among hright hlater)
    · exact .nil

theorem adjacentIn (hleft : Forall₂ R left left') (hright : Forall₂ R right right')
    (hs : Forall₂ R s s') :
    Forall₂ R (Combinator.adjacentIn left right s) (Combinator.adjacentIn left' right' s') := by
  induction hs with
  | nil => exact .nil
  | cons hab hlater ih =>
    match hlater with
    | .nil => exact .nil
    | .cons hnext _ =>
      rw [Combinator.adjacentIn, Combinator.adjacentIn, h.among_eq hab hleft,
        h.among_eq hnext hright]
      refine List.rel_append ?_ ih
      split
      · exact .cons hnext .nil
      · exact .nil

/-- A position picks related items of related sequences. -/
theorem nthIn (position : Int64) (hs : Forall₂ R s s') :
    Option.Rel R (nthIn position s) (TreeQuery.nthIn position s') := by
  simp only [TreeQuery.nthIn, hs.length_eq]
  generalize (if position < 0 then Int64.ofNat s'.length + position else position) = i
  split
  · have hrel := rel_getElem? hs i.toNatClampNeg
    generalize s[i.toNatClampNeg]? = a, s'[i.toNatClampNeg]? = b at hrel
    cases hrel with
    | none => exact .none
    | some hab =>
      rw [Option.filter_some, Option.filter_some, h.isNode_eq hab]
      split
      · exact .some hab
      · exact .none
  · exact .none

/-! ## Combinators -/

theorem findDescendants (hpq : R p q) (hleft : Forall₂ R left left')
    (hright : Forall₂ R right right') :
    Forall₂ R (Combinator.findDescendants p left right)
      (Combinator.findDescendants q left' right') := by
  refine List.rel_filterMap ?_ (h.contexts (C := Eq) ?_ hpq rfl)
  · rintro ⟨a, below⟩ ⟨b, _⟩ ⟨hab, rfl⟩
    simp only [h.among_eq hab hright]
    split
    · exact .some hab
    · exact .none
  · rintro a b below _ hab rfl
    simp only [handedDown, h.isNode_eq hab, h.among_eq hab hleft]

theorem findChildren (hpq : R p q) (hleft : Forall₂ R left left')
    (hright : Forall₂ R right right') :
    Forall₂ R (Combinator.findChildren p left right) (Combinator.findChildren q left' right') := by
  refine List.rel_filterMap ?_ (h.contexts (C := Option.Rel R) ?_ hpq .none)
  · rintro ⟨a, above⟩ ⟨b, above'⟩ ⟨hab, habove⟩
    match above, above', habove with
    | _, _, .none => exact .none
    | some parent, some parent', .some hparent =>
      simp only [h.among_eq hab hright, h.holds_eq hparent hab]
      split
      · exact .some hab
      · exact .none
  · intro a b above above' hab habove
    simp only [handedDown, h.isNode_eq hab, h.among_eq hab hleft, Option.getD_some]
    split
    · split
      · exact .some hab
      · exact .none
    · exact habove

/-- **A combinator lists related places for related operands.** -/
theorem relate (combinator : Combinator) (hpq : R p q) (hleft : Forall₂ R left left')
    (hright : Forall₂ R right right') :
    Forall₂ R (combinator.relate p left right) (combinator.relate q left' right') := by
  match combinator with
  | .descendant => exact h.findDescendants hpq hleft hright
  | .child => exact h.findChildren hpq hleft hright
  | .sibling => exact List.rel_flatMap (h.sequences hpq) fun _ _ => h.siblingsIn hleft hright
  | .adjacent => exact List.rel_flatMap (h.sequences hpq) fun _ _ => h.adjacentIn hleft hright

/-! ## Selectors -/

/-- **A structural selector lists related places**, one by one. -/
theorem find {S : Selector} (hS : S.Structural) (hpq : R p q) :
    Forall₂ R (S.find p) (S.find q) := by
  induction S with
  | wildcard => exact h.nodes hpq
  | identifier name =>
    have hkind : ∀ ⦃a b : Place⦄, R a b →
        ((a.kind? == some name) = true ↔ (b.kind? == some name) = true) := fun a b hab => by
      rw [h.kind?_eq hab]
    exact List.rel_filter hkind (h.nodes hpq)
  | combine combinator left right ihl ihr =>
    exact h.relate combinator hpq (ihl hS.1) (ihr hS.2)
  | both left right ihl ihr =>
    have hamong : ∀ ⦃a b : Place⦄, R a b →
        (a.among (right.find p) = true ↔ b.among (right.find q) = true) := fun a b hab => by
      rw [h.among_eq hab (ihr hS.2)]
    exact List.rel_filter hamong (ihl hS.1)
  | nthChild position =>
    rw [Selector.find, Selector.find]
    cases position.index? with
    | none => exact .nil
    | some index =>
      have hnth : ∀ ⦃s s' : List Place⦄, Forall₂ R s s' →
          Option.Rel R (TreeQuery.nthIn index s) (TreeQuery.nthIn index s') := fun _ _ =>
        h.nthIn index
      exact List.rel_filterMap hnth (h.sequences hpq)
  | «attribute» name test => exact hS.elim

/-- The paths it lists are the same. -/
theorem locations_eq {document other : Json} (hroot : R (Place.root document) (Place.root other))
    {S : Selector} (hS : S.Structural) : S.locations other = S.locations document := by
  have hpath : ∀ ⦃a b : Place⦄, R a b → a.path = b.path := fun _ _ hab => (h.path_eq hab).symm
  have hpaths : Forall₂ Eq (S.locations document) (S.locations other) :=
    List.rel_map hpath (h.find hS hroot)
  rw [List.forall₂_eq_eq_eq] at hpaths
  exact hpaths.symm

end Parallel

end TreeQuery
