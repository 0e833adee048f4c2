import TreeQuery.Json.Basic
import TreeQuery.Number.Layout

/-!
# Json/Writer — the compact and the pretty text of a value

The compact text has no blanks between its parts.  The pretty text puts every item and every
entry on a line of its own, two spaces deeper than its container; an empty container stays on
one line.  An infinity or NaN, which JSON cannot express, is written as `null`.
-/

namespace TreeQuery

/-- The text of a number. -/
def Number.text : Number → String
  | .int n => toString n
  | .float x => ((Number.Binary.ofFloat? x).map Number.Layout.json.text).getD "null"

namespace Json

/-- A character inside a quoted text: quotes, backslashes and the characters below U+0020 are
escaped, all others stand for themselves. -/
def escape (c : Char) : List Char :=
  match c with
  | '"' => ['\\', '"']
  | '\\' => ['\\', '\\']
  | '\x08' => ['\\', 'b']
  | '\x0c' => ['\\', 'f']
  | '\n' => ['\\', 'n']
  | '\r' => ['\\', 'r']
  | '\t' => ['\\', 't']
  | c =>
    if c.toNat < 0x20 then
      ['\\', 'u', '0', '0', Nat.digitChar (c.toNat / 16), Nat.digitChar (c.toNat % 16)]
    else [c]

/-- A text in quotes. -/
def quote (s : String) : String :=
  String.ofList ('"' :: s.toList.flatMap escape ++ ['"'])

mutual

/-- **The compact text** of a value. -/
def compact : Json → String
  | .null => "null"
  | .bool b => if b then "true" else "false"
  | .number n => n.text
  | .string s => quote s
  | .array items => "[" ++ ",".intercalate (compactItems items) ++ "]"
  | .object entries => "\x7b" ++ ",".intercalate (compactEntries entries) ++ "\x7d"

/-- The compact texts of the items. -/
def compactItems : List Json → List String
  | [] => []
  | value :: items => compact value :: compactItems items

/-- The compact texts of the entries. -/
def compactEntries : List (String × Json) → List String
  | [] => []
  | (key, value) :: entries => (quote key ++ ":" ++ compact value) :: compactEntries entries

end

/-- A line break and the indentation of the given depth. -/
def lineBreak (depth : Nat) : String :=
  String.ofList ('\n' :: List.replicate (2 * depth) ' ')

/-- Parts on lines of their own between two brackets. -/
def bracketed (opening closing : String) (depth : Nat) (parts : List String) : String :=
  if parts.isEmpty then opening ++ closing
  else opening ++ lineBreak (depth + 1) ++ ("," ++ lineBreak (depth + 1)).intercalate parts ++
    lineBreak depth ++ closing

mutual

/-- The pretty text of a value that stands `depth` containers deep. -/
def prettyAt (depth : Nat) : Json → String
  | .array items => bracketed "[" "]" depth (prettyItems (depth + 1) items)
  | .object entries => bracketed "\x7b" "\x7d" depth (prettyEntries (depth + 1) entries)
  | .null => "null"
  | .bool b => if b then "true" else "false"
  | .number n => n.text
  | .string s => quote s

/-- The pretty texts of the items. -/
def prettyItems (depth : Nat) : List Json → List String
  | [] => []
  | value :: items => prettyAt depth value :: prettyItems depth items

/-- The pretty texts of the entries. -/
def prettyEntries (depth : Nat) : List (String × Json) → List String
  | [] => []
  | (key, value) :: entries =>
    (quote key ++ ": " ++ prettyAt depth value) :: prettyEntries depth entries

end

/-- **The pretty text** of a value. -/
def pretty (value : Json) : String :=
  prettyAt 0 value

end Json

end TreeQuery
