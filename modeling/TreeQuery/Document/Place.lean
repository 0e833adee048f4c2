import TreeQuery.Json.Basic

/-!
# Document/Place — values and where they lie

A document is searched by place: a value together with the steps that lead to it from the root.
Two equal values at different places are different places, and matches are told apart by path
alone.

A *node* is an object whose `type` property is a string, its *kind*.  An *edge* leads from a
value to what the search enters from it: a node under a property, or a sequence, which is an
array under a property or the value itself if it is an array.  Other properties (scalars, and
objects that are not nodes) lead nowhere.
-/

namespace TreeQuery

/-- A step into a value: to a property of an object or to an item of an array. -/
inductive Step
  | key (name : String)
  | index (position : Nat)
  deriving DecidableEq, Repr

/-- The steps from the root of a document to a value. -/
abbrev Path := List Step

namespace Json

/-- The kind of a node: its `type` property, if that is a string. -/
def kind? (value : Json) : Option String :=
  match value.get? "type" with
  | some (.string kind) => some kind
  | _ => none

/-- Whether a value is a node. -/
def isNode (value : Json) : Bool :=
  value.kind?.isSome

/-- One step into a value. -/
def step? : Json → Step → Option Json
  | .object entries, .key name => Entries.get? entries name
  | .array items, .index position => items[position]?
  | _, _ => none

/-- The value at the end of a path. -/
def at? (value : Json) (path : Path) : Option Json :=
  path.foldlM step? value

end Json

/-- **A value of a document and where it lies.** -/
structure Place where
  path : Path
  value : Json
  deriving Inhabited

namespace Place

/-- The place of the document itself. -/
def root (document : Json) : Place :=
  ⟨[], document⟩

/-- Whether the value is a node. -/
def isNode (place : Place) : Bool :=
  place.value.isNode

/-- The kind of the node. -/
def kind? (place : Place) : Option String :=
  place.value.kind?

/-- Whether two places are the same; the path decides. -/
def isSame (p q : Place) : Bool :=
  p.path == q.path

/-- The places of values that stand in a row, the first of them at `position`. -/
def itemsFrom (path : Path) (position : Nat) : List Json → List Place
  | [] => []
  | value :: items =>
    ⟨path ++ [.index position], value⟩ :: itemsFrom path (position + 1) items

/-- The items of an array; no other value has items. -/
def items (place : Place) : List Place :=
  match place.value with
  | .array items => itemsFrom place.path 0 items
  | _ => []

end Place

/-- **What the search enters from a value.** -/
inductive Edge
  | node (child : Place)
  | sequence (array : Place)

namespace Edge

/-- The places that an edge holds: the node, or the items of the sequence. -/
def held : Edge → List Place
  | .node child => [child]
  | .sequence array => array.items

/-- The edge under a property, if any. -/
def ofEntry? (path : Path) : String × Json → Option Edge
  | (key, value) =>
    match value with
    | .array items => some (.sequence ⟨path ++ [.key key], .array items⟩)
    | .object entries =>
      if (Json.object entries).isNode then some (.node ⟨path ++ [.key key], .object entries⟩)
      else none
    | _ => none

end Edge

namespace Place

/-- The edges of a value, in the order of its properties. -/
def edges (place : Place) : List Edge :=
  match place.value with
  | .array items => [.sequence ⟨place.path, .array items⟩]
  | .object entries => entries.filterMap (Edge.ofEntry? place.path)
  | _ => []

/-- The places that a value holds directly, in order. -/
def held (place : Place) : List Place :=
  place.edges.flatMap Edge.held

/-- Whether `parent` holds `place` directly, as a property or as an item of one of its
sequences. -/
def holds (parent place : Place) : Bool :=
  parent.held.any (isSame place)

/-- The sequences of a value, each as the list of its items. -/
def sequences (place : Place) : List (List Place) :=
  place.edges.filterMap fun
    | .sequence array => some array.items
    | .node _ => none

end Place

end TreeQuery
