import TreeQuery.Json.Writer
import TreeQuery.Selector.Encoding
import TreeQuery.Token.Encoding

/-!
# Selector/Error — why a text is no selector

A parse error says what went wrong, at which token, which tokens were left and which selector had
been built by then, so that the place can be found without cutting the text again.
-/

namespace TreeQuery

/-- **What went wrong** while reading a selector. -/
inductive ParseError.Kind
  /-- A token that cannot stand where a term is expected. -/
  | unexpectedToken
  /-- The tokens ended where one was needed. -/
  | unexpectedEnd
  /-- An operator that neither joins nor starts a term. -/
  | unexpectedOperator
  /-- A keyword that names no pseudo-class. -/
  | unexpectedKeyword
  /-- No keyword after a colon. -/
  | unexpectedPseudo
  /-- A property test that the end of the text cuts off. -/
  | unterminatedAttribute
  /-- A token that cannot stand where it does in a property test. -/
  | unexpectedAttribute
  /-- No parenthesised argument where one is needed. -/
  | unexpectedArgs
  /-- No literal where one is needed, or an argument that is not closed. -/
  | unexpectedValue
  deriving DecidableEq, Repr

/-- The wording of a kind. -/
def ParseError.Kind.text : ParseError.Kind → String
  | .unexpectedToken => "Unexpected token"
  | .unexpectedEnd => "Unexpected end of selector"
  | .unexpectedOperator => "Unexpected operator"
  | .unexpectedKeyword => "Unexpected keyword"
  | .unexpectedPseudo => "Unexpected token in pseudo"
  | .unterminatedAttribute => "Unterminated attribute"
  | .unexpectedAttribute => "Unexpected token in attribute"
  | .unexpectedArgs => "Unexpected token in args"
  | .unexpectedValue => "Unexpected token for value"

/-- **A failed reading of a selector.** -/
structure ParseError where
  kind : ParseError.Kind
  /-- The token at fault, if one was left. -/
  token : Option Token
  /-- The tokens after it. -/
  remaining : List Token
  /-- The selector built so far. -/
  built : Option Selector
  deriving DecidableEq

/-- The message for a parse error. -/
def ParseError.message (error : ParseError) : String :=
  error.kind.text ++ ": " ++ ((error.token.map Token.toJson).getD .null).compact ++
    "\nRemaining tokens: " ++ (Token.listToJson error.remaining).pretty ++
    "\nCurrent ast: " ++ (Selector.optionToJson error.built).pretty

end TreeQuery
