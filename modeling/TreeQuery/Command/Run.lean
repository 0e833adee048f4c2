import TreeQuery.Command.Arguments
import TreeQuery.Command.Check

/-!
# Command/Run — a command line and what the program answers

`run` is the whole program as a function: from the arguments and the bytes of the standard input
to the exit status and the two outputs.  The status is 0 for success, 1 for a failed command and
2 for a usage error.
-/

namespace TreeQuery

/-- **What the program answers.** -/
structure Answer where
  status : UInt32
  output : String
  errors : String
  deriving DecidableEq, Repr

namespace Answer

/-- A success with the given output. -/
def success (output : String) : Answer :=
  ⟨0, output, ""⟩

/-- The answer to a failed command. -/
def failure (error : CommandError) : Answer :=
  ⟨1, "", error.message ++ "\n"⟩

/-- The answer to a command line that cannot be read. -/
def usage : Answer :=
  ⟨2, "", "Usage: selectree query|tokens|parse|docs|doc ...\n"⟩

/-- A success, or the answer to a failure. -/
def ofResult : Except CommandError String → Answer
  | .ok output => success output
  | .error e => failure e

end Answer

/-- A JSON value on lines of its own. -/
def printed (pretty : Bool) (value : Json) : String :=
  (if pretty then value.pretty else value.compact) ++ "\n"

namespace Invocation

/-- Whether the command reads the standard input. -/
def readsInput : Invocation → Bool
  | .query _ none _ false => true
  | _ => false

/-- The result of a command, given the bytes of a piped standard input. -/
def result (invocation : Invocation) (piped : Option ByteArray) : Except CommandError String :=
  match invocation with
  | .query selector input pretty formOnly => do
    let input ←
      match invocation.readsInput, piped with
      | true, some bytes =>
        match String.fromUTF8? bytes with
        | some text => pure (some text)
        | none => throw .encoding
      | _, _ => pure input
    match ← check selector input formOnly with
    | .wellFormed => return "Syntax is valid\n"
    | .found values => return printed pretty values
  | .tokens selector => return printed false (tokensToJson selector)
  | .parse selector pretty => return printed pretty (← selectorToJson selector)
  | .docs => return Topic.overview
  | .doc name => topicText name
  | .version => return "selectree 0.1.0\n"

end Invocation

/-- **The program as a function** of its arguments and a piped standard input. -/
def run (arguments : List String) (piped : Option ByteArray) : Answer :=
  match Invocation.ofArguments? arguments with
  | some invocation => .ofResult (invocation.result piped)
  | none => .usage

/-- Whether the program reads the standard input. -/
def readsInput (arguments : List String) : Bool :=
  ((Invocation.ofArguments? arguments).map Invocation.readsInput).getD false

end TreeQuery
