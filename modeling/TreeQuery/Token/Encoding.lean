import TreeQuery.Json.Basic
import TreeQuery.Token.Basic

/-!
# Token/Encoding — tokens as JSON values

A token is written as an object with its class under `type` and its content under `value`.
-/

namespace TreeQuery.Token

/-- The name of the token's class. -/
def className : Token → String
  | .wildcard => "wildcard"
  | .keyword _ => "keyword"
  | .string _ => "string"
  | .number _ => "number"
  | .operator _ => "operator"
  | .identifier _ => "identifier"

/-- What the token holds, as a JSON value. -/
def content : Token → Json
  | .wildcard => .string "*"
  | .number x => .ofFloat x
  | .keyword text | .string text | .operator text | .identifier text => .string text

/-- **A token as a JSON value.** -/
def toJson (token : Token) : Json :=
  .object [("type", .string token.className), ("value", token.content)]

/-- The token of a class with a given content. -/
def ofContent? (className : String) (content : Json) : Option Token :=
  match className, content with
  | "wildcard", _ => some .wildcard
  | "keyword", .string text => some (.keyword text)
  | "string", .string text => some (.string text)
  | "number", .number x => some (.number x.toFloat)
  | "operator", .string text => some (.operator text)
  | "identifier", .string text => some (.identifier text)
  | _, _ => none

/-- Reads a token back from a JSON value. -/
def ofJson? (value : Json) : Option Token := do
  match ← value.get? "type" with
  | .string className => ofContent? className (← value.get? "value")
  | _ => none

/-- Tokens as a JSON array. -/
def listToJson (tokens : List Token) : Json :=
  .array (tokens.map toJson)

/-- Reads tokens back from a JSON array. -/
def listOfJson? : Json → Option (List Token)
  | .array items => items.mapM ofJson?
  | _ => none

end TreeQuery.Token
