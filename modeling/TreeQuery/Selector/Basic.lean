import TreeQuery.Selector.Literal
import TreeQuery.Text.Blank

/-!
# Selector/Basic — selectors

A selector is a term (a wildcard, a kind, a position, a property test), two selectors joined by a
combinator, or the conjunction of two.  It refers to no document, so one selector can be matched
against many.
-/

namespace TreeQuery

/-- **How two selectors are joined structurally.** -/
inductive Combinator
  /-- `left right`: somewhere below. -/
  | descendant
  /-- `left > right`: directly below. -/
  | child
  /-- `left ~ right`: later in the same sequence. -/
  | sibling
  /-- `left + right`: the next in the same sequence. -/
  | adjacent
  deriving DecidableEq, Repr

/-- The combinator that an operator stands for.  A run of blanks is the descendant combinator. -/
def Combinator.ofOperator? (operator : String) : Option Combinator :=
  if operator = ">" then some .child
  else if operator = "~" then some .sibling
  else if operator = "+" then some .adjacent
  else if operator ≠ "" ∧ operator.toList.all Text.isBlank then some .descendant
  else none

/-- The test on the value at a property path. -/
inductive AttributeTest
  /-- `[name]`: the path leads to a value. -/
  | present
  /-- `[name=literal]`: the path leads to a value that equals the literal. -/
  | equal (literal : Literal)
  deriving DecidableEq

/-- **A selector.** -/
inductive Selector
  /-- `*`: every node. -/
  | wildcard
  /-- `Name`: the nodes of that kind. -/
  | identifier (name : String)
  /-- Two selectors joined by a combinator. -/
  | combine (combinator : Combinator) (left right : Selector)
  /-- What both selectors match, written without anything between them. -/
  | both (left right : Selector)
  /-- The item at a position of a sequence; negative positions count from the end. -/
  | nthChild (position : Literal)
  /-- The nodes whose property passes a test. -/
  | attribute (name : String) (test : AttributeTest)
  deriving DecidableEq

namespace Selector

/-- `:first-child`: the item at position `0`. -/
def firstChild : Selector :=
  .nthChild (.number 0.0)

/-- `:last-child`: the item at position `-1`. -/
def lastChild : Selector :=
  .nthChild (.number (-1.0))

/-- `left` and `right` joined by a combinator, or `right` alone. -/
def combineOnto (combinator : Combinator) (left : Option Selector) (right : Selector) : Selector :=
  match left with
  | some left => .combine combinator left right
  | none => right

/-- The conjunction of `left` and `right`, or `right` alone. -/
def bothOnto (left : Option Selector) (right : Selector) : Selector :=
  match left with
  | some left => .both left right
  | none => right

end Selector

end TreeQuery
