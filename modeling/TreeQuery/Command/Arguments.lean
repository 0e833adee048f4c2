/-!
# Command/Arguments — reading the command line

A command line names a subcommand, followed by operands and flags in any order.

* A flag is given once.  Flags of one letter may share a dash.
* The input flag takes a value: what follows its letter, what follows an equals sign, or else
  the next word, which must not look like a flag.
* After a double dash every word is an operand.

A line of any other form is a usage error, for which `Invocation.ofArguments?` gives nothing.
-/

namespace TreeQuery

/-- **A command with its arguments.** -/
inductive Invocation
  /-- Match a selector against the input. -/
  | query (selector : String) (input : Option String) (pretty formOnly : Bool)
  /-- Print the tokens of a selector. -/
  | tokens (selector : String)
  /-- Print the selector that a text denotes. -/
  | parse (selector : String) (pretty : Bool)
  /-- Print the overview of the documentation. -/
  | docs
  /-- Print the documentation on a topic. -/
  | doc (topic : String)
  /-- Print the version. -/
  | version
  deriving DecidableEq, Repr

/-- The flags of the subcommands. -/
inductive Flag
  | input
  | pretty
  | formOnly
  deriving DecidableEq, Repr

/-- The flag with a long name. -/
def Flag.ofLong? : String → Option Flag
  | "input" => some .input
  | "pretty" => some .pretty
  | "syntax-only" => some .formOnly
  | _ => none

/-- The flag of one letter. -/
def Flag.ofShort? : Char → Option Flag
  | 'i' => some .input
  | 'p' => some .pretty
  | _ => none

/-- What a word of the command line looks like. -/
inductive Word
  | operand (text : String)
  /-- A double dash. -/
  | endOfFlags
  /-- A name after two dashes, with what follows its equals sign. -/
  | long (name : String) (value : Option String)
  /-- Letters after one dash. -/
  | short (letters : List Char)
  deriving DecidableEq, Repr

/-- The look of a word.  A single dash is an operand. -/
def Word.ofString (word : String) : Word :=
  match word.toList with
  | ['-', '-'] => .endOfFlags
  | '-' :: '-' :: rest =>
    let name := String.ofList (rest.takeWhile (· != '='))
    match rest.dropWhile (· != '=') with
    | [] => .long name none
    | _ :: value => .long name (some (String.ofList value))
  | '-' :: c :: letters => .short (c :: letters)
  | _ => .operand word

/-- What has been read of the words after a subcommand. -/
structure Arguments where
  operands : List String := []
  input : Option String := none
  pretty : Bool := false
  formOnly : Bool := false
  /-- The input flag has been read, its value has not. -/
  awaitsInput : Bool := false
  /-- A double dash has been read. -/
  flagsEnded : Bool := false
  deriving DecidableEq, Repr

namespace Arguments

/-- Reads the value of the input flag. -/
def setInput? (given : Arguments) (value : String) : Option Arguments :=
  if given.input.isSome then none
  else some { given with input := some value, awaitsInput := false }

/-- Reads the input flag; its value is the next word. -/
def awaitInput? (given : Arguments) : Option Arguments :=
  if given.input.isSome then none else some { given with awaitsInput := true }

/-- Reads a flag that has no value. -/
def setFlag? (given : Arguments) : Flag → Option Arguments
  | .input => none
  | .pretty => if given.pretty then none else some { given with pretty := true }
  | .formOnly => if given.formOnly then none else some { given with formOnly := true }

/-- Reads the letters after a dash. -/
def readLetters? (allowed : List Flag) (given : Arguments) : List Char → Option Arguments
  | [] => some given
  | c :: letters => do
    let flag ← Flag.ofShort? c
    if flag ∉ allowed then none
    else if flag = .input then
      match letters with
      | [] => given.awaitInput?
      | '=' :: value => given.setInput? (String.ofList value)
      | value => given.setInput? (String.ofList value)
    else readLetters? allowed (← given.setFlag? flag) letters

/-- Reads a flag by its long name. -/
def readLong? (allowed : List Flag) (given : Arguments) (name : String) (value : Option String) :
    Option Arguments := do
  let flag ← Flag.ofLong? name
  if flag ∉ allowed then none
  else if flag = .input then
    match value with
    | none => given.awaitInput?
    | some value => given.setInput? value
  else if value.isSome then none
  else given.setFlag? flag

/-- Reads a word. -/
def readWord? (allowed : List Flag) (given : Arguments) (word : String) : Option Arguments :=
  if given.flagsEnded then some { given with operands := given.operands ++ [word] }
  else if given.awaitsInput then
    match Word.ofString word with
    | .operand value => given.setInput? value
    | _ => none
  else
    match Word.ofString word with
    | .operand text => some { given with operands := given.operands ++ [text] }
    | .endOfFlags => some { given with flagsEnded := true }
    | .long name value => given.readLong? allowed name value
    | .short letters => given.readLetters? allowed letters

/-- Reads the words after a subcommand that allows the given flags. -/
def read? (allowed : List Flag) (words : List String) : Option Arguments := do
  let given ← words.foldlM (readWord? allowed) {}
  if given.awaitsInput then none else some given

end Arguments

namespace Invocation

/-- The invocation of a subcommand. -/
def ofSubcommand? (name : String) (words : List String) : Option Invocation :=
  match name with
  | "query" => do
    let given ← Arguments.read? [.input, .pretty, .formOnly] words
    match given.operands with
    | [selector] => some (.query selector given.input given.pretty given.formOnly)
    | _ => none
  | "tokens" => do
    match (← Arguments.read? [] words).operands with
    | [selector] => some (.tokens selector)
    | _ => none
  | "parse" => do
    let given ← Arguments.read? [.pretty] words
    match given.operands with
    | [selector] => some (.parse selector given.pretty)
    | _ => none
  | "docs" => do
    match (← Arguments.read? [] words).operands with
    | [] => some .docs
    | _ => none
  | "doc" => do
    match (← Arguments.read? [] words).operands with
    | [topic] => some (.doc topic)
    | _ => none
  | _ => none

/-- **Reads a command line.**  The version flag wins over anything after it. -/
def ofArguments? : List String → Option Invocation
  | [] => none
  | word :: words =>
    match Word.ofString word with
    | .operand name => ofSubcommand? name words
    | .long "version" none => some .version
    | .short ('V' :: _) => some .version
    | _ => none

end Invocation

end TreeQuery
