import TreeQuery.Number.Scientific
import TreeQuery.Token.Basic
import TreeQuery.Token.Fragment

/-!
# Token/Lexer — the tokens of a selector text

Every fragment becomes one token, so lexing never fails.  A fragment is classified by its text
alone; the first class that fits is taken, and an identifier is what fits no other.
-/

namespace TreeQuery

/-- Whether `part` occurs in a text. -/
def occursIn (part : List Char) : List Char → Bool
  | [] => part.isEmpty
  | c :: cs => part.isPrefixOf (c :: cs) || occursIn part cs

/-- The words that make a fragment a keyword. -/
def reservedWords : List String :=
  ["first-child", "nth-child", "last-child", "calc", "length"]

/-- Whether a text contains a reserved word. -/
def hasReservedWord (cs : List Char) : Bool :=
  reservedWords.any fun word => occursIn word.toList cs

/-- Whether a later quote stands on the same line. -/
def quoteOnLine : List Char → Bool
  | [] => false
  | c :: cs => c == '"' || (c != '\n' && quoteOnLine cs)

/-- Whether two quotes stand on one line of a text. -/
def hasQuotedLine : List Char → Bool
  | [] => false
  | c :: cs => (c == '"' && quoteOnLine cs) || hasQuotedLine cs

/-- A text without the quote at its front and the quote at its end, where there is one. -/
def unquote (cs : List Char) : List Char :=
  let cs :=
    match cs with
    | '"' :: cs => cs
    | cs => cs
  if cs.getLast? = some '"' then cs.dropLast else cs

/-- The number that a whole text denotes. -/
def numberOf? (cs : List Char) : Option Float :=
  match Separator.number? cs with
  | some (_, []) =>
    let (negative, cs) :=
      match cs with
      | '-' :: cs => (true, cs)
      | '+' :: cs => (false, cs)
      | cs => (false, cs)
    let (whole, rest) := Text.spanDigits cs
    let fraction := rest.drop 1
    some (Number.Scientific.toFloat
      ⟨negative, Text.digitsValue (whole ++ fraction), -fraction.length⟩)
  | _ => none

/-- The characters that make a fragment an operator: punctuation and blanks. -/
def isOperatorChar (c : Char) : Bool :=
  c ∈ ['~', '<', '>', '=', ':', '+', '[', ']', '(', ')'] || Text.isBlank c

/-- **The token of a fragment.** -/
def Token.ofText (cs : List Char) : Token :=
  if cs = ['*'] then .wildcard
  else if hasReservedWord cs then .keyword (String.ofList cs)
  else if hasQuotedLine cs then .string (String.ofList (unquote cs))
  else
    match numberOf? cs with
    | some x => .number x
    | none =>
      if cs.any isOperatorChar then .operator (String.ofList cs) else .identifier (String.ofList cs)

/-- **The tokens of a selector text.** -/
def tokenize (selector : String) : List Token :=
  (fragments selector.toList).map fun f => Token.ofText f.text

end TreeQuery
