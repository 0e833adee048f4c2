/-!
# Token/Basic — the tokens of a selector text

A token is a classified fragment of a selector text.  It carries no position: two texts with the
same tokens denote the same selector.
-/

namespace TreeQuery

/-- **A token.** -/
inductive Token
  /-- `*` -/
  | wildcard
  /-- A fragment that contains the name of a pseudo-class or a reserved word. -/
  | keyword (text : String)
  /-- A literal text, without its quotes. -/
  | string (text : String)
  /-- A number, with or without sign and fraction. -/
  | number (value : Float)
  /-- Punctuation, or a blank that separates two terms. -/
  | operator (text : String)
  /-- Anything else: the names of kinds and property paths. -/
  | identifier (name : String)
  deriving DecidableEq

/-- Whether a token is the operator with exactly that text. -/
def Token.isOperator (token : Token) (text : String) : Bool :=
  match token with
  | .operator op => op == text
  | _ => false

end TreeQuery
