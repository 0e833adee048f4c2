/-!
# Command/Topic — the documentation that the command line prints

There is an overview and one text for each of four topics.  A topic goes by several names, in
any case and with underscores for hyphens.
-/

namespace TreeQuery

/-- **A topic of the documentation.** -/
inductive Topic
  /-- Terms, their conjunction, and how a text is cut into tokens. -/
  | terms
  /-- The four combinators. -/
  | combinators
  /-- Positions in sequences. -/
  | positions
  /-- Tests on properties. -/
  | attributes
  deriving DecidableEq, Repr

namespace Topic

/-- A name in lower case with hyphens for underscores.  The names of topics are ASCII, so only
ASCII letters need to change case. -/
def normalised (name : String) : String :=
  String.ofList (name.toList.map fun c => if c = '_' then '-' else c.toLower)

/-- The topic of a given name. -/
def ofName? (name : String) : Option Topic :=
  match normalised name with
  | "syntax" => some .terms
  | "combinators" | "combinator" => some .combinators
  | "pseudo" | "pseudo-classes" | "positions" => some .positions
  | "attributes" | "attribute" | "attrs" => some .attributes
  | _ => none

/-- The overview of the topics. -/
def overview : String :=
  "SELECTREE DOCUMENTATION

Selectree finds nodes in JSON syntax trees (ESTree and similar) with a small
CSS-like selector language. A node is any JSON object with a string \"type\".

DOCUMENTATION TOPICS

  syntax            Terms, conjunction, and how selectors are tokenized
  combinators       Descendant, child, sibling, and adjacent combinators
  pseudo            :first-child, :last-child, and :nth-child(n)
  attributes        [path] and [path=literal] property tests

QUICK REFERENCE

  *                 Any node
  Name              Nodes whose type is Name
  a b               b somewhere below a
  a > b             b directly below a
  a ~ b             b later in the same list as a
  a + b             b right after a in the same list
  :first-child      First element of a list
  [id.name=\"x\"]     Property equality

Run 'selectree doc <topic>' for detailed documentation.
"

/-- The text on terms. -/
def termsText : String :=
  "SYNTAX - Terms and Conjunction

WILDCARD
  *
    Matches every node in the tree, in pre-order.

TYPE
  Name
    Matches nodes whose \"type\" property equals Name.

    Example:
      Input:  \x7b\"type\": \"Program\", \"body\": [\x7b\"type\": \"EmptyStatement\"\x7d]\x7d
      Query:  EmptyStatement
      Output: [\x7b\"type\": \"EmptyStatement\"\x7d]

CONJUNCTION
  Name[attr]:first-child
    Terms written without whitespace between them must all match the same
    node.

TOKENIZING
  Whitespace around * > ~ + [ ] ( ) = is absorbed. Any other whitespace run
  between two terms is the descendant combinator, so \"a :first-child\" and
  \"a:first-child\" mean different things.

  Constraints:
    - A type or * cannot follow another term without a combinator; since
      whitespace before * is absorbed, write \"a > *\" rather than \"a *\"
    - Strings are double-quoted and end at the next quote (no escapes)
"

/-- The text on combinators. -/
def combinatorsText : String :=
  "COMBINATORS - Structural Relationships

DESCENDANT
  a b
    b has an ancestor (at any depth) matching a.

CHILD
  a > b
    b's immediate parent node matches a.

SIBLING
  a ~ b
    In any list property, for each element matching a the nearest later
    element matching b.

ADJACENT
  a + b
    In any list property, the element directly after one matching a, if it
    matches b.

  Combinators fold left: \"a > b c\" is \"(a > b) c\".
"

/-- The text on positions. -/
def positionsText : String :=
  "PSEUDO - Positions Within Lists

  :first-child      Element 0 of every list property in the tree
  :last-child       Last element of every list property
  :nth-child(n)     Element n (zero-based); negative n counts from the end

    Example:
      Input:  \x7b\"type\": \"Program\", \"body\": [\x7b\"type\": \"A\"\x7d, \x7b\"type\": \"B\"\x7d]\x7d
      Query:  :nth-child(-1)
      Output: [\x7b\"type\": \"B\"\x7d]

  Constraints:
    - n must be an integer literal; anything else matches nothing
    - Out of range positions match nothing
"

/-- The text on property tests. -/
def attributesText : String :=
  "ATTRIBUTES - Property Tests

EXISTENCE
  [path]
    The dotted path resolves on the node. A present null counts.

EQUALITY
  [path=literal]
    The resolved value strictly equals a number or \"string\" literal.

    Example:
      Input:  \x7b\"type\": \"Identifier\", \"name\": \"main\"\x7d
      Query:  Identifier[name=\"main\"]

PATHS
  id.name         Nested object properties

  Constraints:
    - Path segments containing digits are split by the tokenizer, so list
      indices cannot be written in a selector path
"

/-- The text of a topic. -/
def text : Topic → String
  | .terms => termsText
  | .combinators => combinatorsText
  | .positions => positionsText
  | .attributes => attributesText

end Topic

end TreeQuery
