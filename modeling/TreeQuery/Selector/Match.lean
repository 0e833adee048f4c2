import TreeQuery.Document.Property
import TreeQuery.Document.Walk
import TreeQuery.Selector.Basic

/-!
# Selector/Match — the nodes that a selector matches

`Selector.find` lists the matches of a selector in a document, as places.  Terms filter the
nodes in pre-order.  A combinator first matches both operands in the whole document and then
relates the two sets of places: the descendant and child combinators along the walk, with what
is above a node as its context, the sibling and adjacent combinators within every sequence.

Only a sibling step can list a place twice: it lists the nearest later match once for each left
match.
-/

namespace TreeQuery

/-- Whether a place is among the given ones. -/
def Place.among (places : List Place) (place : Place) : Bool :=
  places.any (Place.isSame place)

namespace AttributeTest

/-- Whether what was found at a property path passes the test. -/
def passes (test : AttributeTest) (found : Option Json) : Bool :=
  match test, found with
  | _, none => false
  | .present, some _ => true
  | .equal literal, some value => (Scalar.ofJson value).equals literal

end AttributeTest

namespace Combinator

/-- The right matches somewhere below a left match.  The context is whether a left match lies
above; once set it holds for the whole subtree. -/
def findDescendants (root : Place) (left right : List Place) : List Place :=
  (contexts (fun p _ => if p.among left then some true else none) false root).filterMap
    fun (p, below) => if below && p.among right then some p else none

/-- The right matches that a left match holds directly.  The context is the nearest node above,
if it is a left match; a node may still hold another only through a container. -/
def findChildren (root : Place) (left right : List Place) : List Place :=
  (contexts (fun p _ => some (if p.among left then some p else none)) none root).filterMap
    fun (p, parent) =>
      match parent with
      | some parent => if p.among right && parent.holds p then some p else none
      | none => none

/-- For each left match of a sequence, the nearest later right match of that sequence. -/
def siblingsIn (left right : List Place) : List Place → List Place
  | [] => []
  | item :: later =>
    (if item.among left then (later.find? (Place.among right)).toList else []) ++
      siblingsIn left right later

/-- The right matches that directly follow a left match in a sequence. -/
def adjacentIn (left right : List Place) : List Place → List Place
  | item :: next :: later =>
    (if item.among left && next.among right then [next] else []) ++
      adjacentIn left right (next :: later)
  | _ => []

/-- The places that a combinator selects, given the matches of its operands. -/
def relate (combinator : Combinator) (root : Place) (left right : List Place) : List Place :=
  match combinator with
  | .descendant => findDescendants root left right
  | .child => findChildren root left right
  | .sibling => (sequences root).flatMap (siblingsIn left right)
  | .adjacent => (sequences root).flatMap (adjacentIn left right)

end Combinator

/-- The item of a sequence at a position, if it is a node.  A negative position counts from the
end.  The arithmetic is that of 64-bit words; lengths stay far below their limit. -/
def nthIn (position : Int64) (items : List Place) : Option Place :=
  let length := Int64.ofNat items.length
  let position := if position < 0 then length + position else position
  if 0 ≤ position ∧ position < length then
    items[position.toNatClampNeg]?.filter Place.isNode
  else none

namespace Selector

/-- **The places that a selector matches**, in the order they are met and with repeats. -/
def find (root : Place) : Selector → List Place
  | .wildcard => nodes root
  | .identifier name => (nodes root).filter fun p => p.kind? == some name
  | .combine combinator left right => combinator.relate root (find root left) (find root right)
  | .both left right => (find root left).filter (Place.among (find root right))
  | .nthChild position =>
    match position.index? with
    | some index => (sequences root).filterMap (nthIn index)
    | none => []
  | .attribute name test => (nodes root).filter fun p => test.passes (p.value.resolve? name)

end Selector

/-- **The matches of a selector in a document.**  No selector matches nothing. -/
def matchDocument (document : Json) (selector : Option Selector) : List Place :=
  match selector with
  | some selector => selector.find (Place.root document)
  | none => []

end TreeQuery
