import TreeQuery.Command.Topic
import TreeQuery.Json.Reader
import TreeQuery.Query

/-!
# Command/Check — what the commands compute

Each command is a function from its arguments to a JSON value or an error.  `check` looks at the
selector before the document, so of two faults that of the selector is reported.
-/

namespace TreeQuery

/-- **Why a command failed.** -/
inductive CommandError
  /-- The text is no selector. -/
  | parse (error : ParseError)
  /-- The document is no JSON text. -/
  | json
  /-- The standard input is no UTF-8 text. -/
  | encoding
  /-- There is neither an input argument nor a piped standard input. -/
  | noInput
  /-- There is no documentation of that name. -/
  | unknownTopic (name : String)
  deriving DecidableEq

/-- The message for a failed command. -/
def CommandError.message : CommandError → String
  | .parse error => "Parse error: " ++ error.message
  | .json => "Invalid JSON: not a single well-formed value"
  | .encoding => "IO error: stream did not contain valid UTF-8"
  | .noInput => "No input provided. Use --input or pipe JSON to stdin."
  | .unknownTopic name =>
    "Unknown topic: '" ++ name ++ "'\nRun 'selectree docs' to see available topics."

/-- What a check found out. -/
inductive CheckResult
  /-- The text is a selector; nothing was matched. -/
  | wellFormed
  /-- The matched values, as a JSON array. -/
  | found (values : Json)

/-- **Checks a selector**, and matches it against the input unless only its form is asked for. -/
def check (selector : String) (input : Option String) (formOnly : Bool) :
    Except CommandError CheckResult := do
  let selector ← (parse selector).mapError .parse
  if formOnly then return .wellFormed
  match input with
  | none => throw .noInput
  | some text =>
    match Json.readDocument? text with
    | none => throw .json
    | some document => return .found (.array ((matchDocument document selector).map Place.value))

/-- The tokens of a selector text, as a JSON value. -/
def tokensToJson (selector : String) : Json :=
  Token.listToJson (tokenize selector)

/-- The selector that a text denotes, as a JSON value. -/
def selectorToJson (selector : String) : Except CommandError Json :=
  ((parse selector).mapError .parse).map Selector.optionToJson

/-- The documentation on a topic. -/
def topicText (name : String) : Except CommandError String :=
  match Topic.ofName? name with
  | some topic => .ok topic.text
  | none => .error (.unknownTopic name)

end TreeQuery
