import TreeQuery.Proofs.Json.Edit
import TreeQuery.Proofs.Selector.Parallel

/-!
# Proofs/Selector/Edit — what the walk skips does not influence structural selectors

One edit of what the walk skips leaves the same edges, pair by pair (`Json.Touched.edges`), so the
walks over the document before and after it run in step (`parallel_touched`), and a structural
selector lists the same paths in both.  By induction it does so after any number of edits
(`Selector.locations_eq_of_edited`).
-/

open Relation
open List (Forall₂)

namespace TreeQuery

open Json (Touched Edits)

/-- **Places at the same path, before and after one edit.** -/
inductive Place.Touched : Place → Place → Prop
  | intro (path : Path) {value value' : Json} (h : Json.Touched value value') :
      Touched ⟨path, value⟩ ⟨path, value'⟩

theorem Place.Touched.refl : ∀ p : Place, Touched p p
  | ⟨path, value⟩ => .intro path (.same value)

theorem forall₂_itemsFrom (path : Path) {items items' : List Json}
    (h : Forall₂ Touched items items') : ∀ position : Nat,
      Forall₂ Place.Touched (Place.itemsFrom path position items)
        (Place.itemsFrom path position items') := by
  induction h with
  | nil => exact fun _ => .nil
  | cons h _ ih => exact fun position => .cons (.intro _ h) (ih (position + 1))

/-! ## Edges -/

/-- **Under a property there is no edge exactly if what it holds is skipped.** -/
theorem Edge.ofEntry?_eq_none_iff {path : Path} {key : String} {value : Json} :
    Edge.ofEntry? path (key, value) = none ↔ value.IsSkipped := by
  cases value with
  | array | object => simp [Edge.ofEntry?, Json.IsSkipped]
  | _ => simp [Edge.ofEntry?, Json.IsSkipped, Json.isNode, Json.kind?, Json.get?]

theorem Edge.Pairs.refl : ∀ edge : Edge, Pairs Place.Touched edge edge
  | .node child => .node (.refl child)
  | .sequence _ => .sequence (List.forall₂_same.2 fun item _ => .refl item)

theorem forall₂_pairs_refl (edges : List Edge) : Forall₂ (Edge.Pairs Place.Touched) edges edges :=
  List.forall₂_same.2 fun edge _ => .refl edge

/-- The items of an edited array make a sequence in step with that of the items before. -/
theorem Json.Edits.sequence (path : Path) {items items' : List Json}
    (h : Edits (.array items) (.array items')) :
    Edge.Pairs Place.Touched (.sequence ⟨path, .array items⟩)
      (.sequence ⟨path, .array items'⟩) := by
  obtain ⟨_, ⟨⟩, hitems⟩ := h.items
  exact .sequence (forall₂_itemsFrom path hitems 0)

/-- A value that is edited under a property is entered there as before. -/
theorem Json.Edits.ofEntry? (path : Path) (key : String) {value value' : Json}
    (h : Edits value value') :
    Option.Rel (Edge.Pairs Place.Touched) (Edge.ofEntry? path (key, value))
      (Edge.ofEntry? path (key, value')) := by
  have hnode := h.isNode_eq
  have hchild : Place.Touched ⟨path ++ [.key key], value⟩ ⟨path ++ [.key key], value'⟩ :=
    .intro _ (.edits h)
  cases h with
  | scalar before after hold hnew => exact .some (Edits.sequence _ (.scalar before after hold hnew))
  | item before after h => exact .some (Edits.sequence _ (.item before after h))
  | _ =>
    rw [Edge.ofEntry?, Edge.ofEntry?, hnode]
    split
    · exact .some (.node hchild)
    · exact .none

theorem Place.edges_append (path : Path) (before after : Entries) :
    edges ⟨path, .object (before ++ after)⟩ =
      edges ⟨path, .object before⟩ ++ edges ⟨path, .object after⟩ :=
  List.filterMap_append

theorem Place.edges_cons (path : Path) (entry : String × Json) (after : Entries) :
    edges ⟨path, .object (entry :: after)⟩ =
      (Edge.ofEntry? path entry).toList ++ edges ⟨path, .object after⟩ := by
  simp only [edges, List.filterMap_cons]
  cases Edge.ofEntry? path entry <;> rfl

theorem Json.IsScalar.edges_eq_nil (path : Path) {value : Json} (h : value.IsScalar) :
    Place.edges ⟨path, value⟩ = [] := by
  cases value with
  | array | object => exact h.elim
  | _ => rfl

/-- **An edit leaves the edges of the value it is made in**, pair by pair: the properties that are
added, removed or replaced lead nowhere. -/
theorem Json.Edits.edges (path : Path) {value value' : Json} (h : Edits value value') :
    Forall₂ (Edge.Pairs Place.Touched) (Place.edges ⟨path, value⟩)
      (Place.edges ⟨path, value'⟩) := by
  cases h with
  | add before after _ hvalue =>
    rw [Place.edges_append, Place.edges_append, Place.edges_cons,
      Edge.ofEntry?_eq_none_iff.2 hvalue]
    exact forall₂_pairs_refl _
  | remove before after _ hvalue =>
    rw [Place.edges_append, Place.edges_append, Place.edges_cons,
      Edge.ofEntry?_eq_none_iff.2 hvalue]
    exact forall₂_pairs_refl _
  | replace before after _ hvalue hvalue' =>
    rw [Place.edges_append, Place.edges_append, Place.edges_cons, Place.edges_cons,
      Edge.ofEntry?_eq_none_iff.2 hvalue, Edge.ofEntry?_eq_none_iff.2 hvalue']
    exact forall₂_pairs_refl _
  | scalar before after hold hnew =>
    exact .cons (Edits.sequence path (.scalar before after hold hnew)) .nil
  | item before after h => exact .cons (Edits.sequence path (.item before after h)) .nil
  | entry before after h =>
    rw [Place.edges_append, Place.edges_append, Place.edges_cons, Place.edges_cons]
    exact List.rel_append (forall₂_pairs_refl _)
      (List.rel_append (forall₂_toList (h.ofEntry? path _)) (forall₂_pairs_refl _))

/-- **The walks before and after one edit run in step.** -/
theorem parallel_touched : Parallel Place.Touched where
  path_eq := fun ⟨_, _⟩ => rfl
  kind?_eq := fun ⟨_, h⟩ => h.kind?_eq
  edges := fun ⟨path, h⟩ =>
    match h with
    | .same _ => forall₂_pairs_refl _
    | .edits h => h.edges path
    | .scalar h h' => by
      rw [h.edges_eq_nil, h'.edges_eq_nil]
      exact .nil

/-! ## Selectors -/

/-- **What the walk skips does not influence structural selectors**: after any number of edits of
it, a selector without property tests lists the same paths, in the same order and with the same
repeats. -/
theorem Selector.locations_eq_of_edited (document other : Json) (h : document.Edited other)
    (S : Selector) (hS : S.Structural) : S.locations other = S.locations document := by
  induction h with
  | refl => rfl
  | tail _ hstep ih =>
    exact (parallel_touched.locations_eq (.intro [] (.edits hstep)) hS).trans ih

/-- Two `A` and a `B` in a sequence, some with a line. -/
def lined : Json :=
  .object [("type", .string "P"), ("body", .array [.object [("type", .string "A"),
    ("line", .number (.int 1))], .object [("type", .string "A")], .null, .object
      [("type", .string "B"), ("line", .number (.int 4))]])]

/-- The same with other lines, a text for the `null`, and a note that holds another `B`. -/
def noted : Json :=
  .object [("type", .string "P"), ("note", .object [("on", .object [("type", .string "B")])]),
    ("body", .array [.object [("type", .string "A"), ("line", .number (.int 7))], .object
      [("type", .string "A")], .string "gap", .object [("type", .string "B")]])]

/-- The `B` of the sequence follows two `A` in both, and the `B` of the note none. -/
theorem Selector.locations_noted :
    lined.Edited noted ∧
    (Selector.combine .sibling (.identifier "A") (.identifier "B")).Structural ∧
    (Selector.combine .sibling (.identifier "A") (.identifier "B")).locations lined =
      [[.key "body", .index 3], [.key "body", .index 3]] ∧
    (Selector.combine .sibling (.identifier "A") (.identifier "B")).locations noted =
      (Selector.combine .sibling (.identifier "A") (.identifier "B")).locations lined := by
  have hedited : lined.Edited noted := by
    have hline : (Json.object [("type", .string "A"), ("line", .number (.int 1))]).Edits
        (.object [("type", .string "A"), ("line", .number (.int 7))]) :=
      .replace [_] [] (by decide) rfl rfl
    have hnull (before after : List Json) : (Json.array (before ++ .null :: after)).Edits
        (.array (before ++ .string "gap" :: after)) := .scalar before after trivial trivial
    have hunlined : (Json.object [("type", .string "B"), ("line", .number (.int 4))]).Edits
        (.object [("type", .string "B")]) := .remove [_] [] (by decide) rfl
    have hbody : lined.Edits _ := .entry [_] [] (.item [] _ hline)
    refine .head hbody (.head (.entry [_] [] (hnull [_, _] _)) ?_)
    refine .head (.entry [_] [] (.item [_, _, _] [] hunlined)) (.single ?_)
    exact .add [_] _ (by decide) rfl
  have hstructural :
      (Selector.combine .sibling (.identifier "A") (.identifier "B")).Structural :=
    ⟨trivial, trivial⟩
  exact ⟨hedited, hstructural, rfl,
    Selector.locations_eq_of_edited lined noted hedited _ hstructural⟩

end TreeQuery
