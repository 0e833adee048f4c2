/-!
# Json/Basic — JSON values with ordered entries

The entries of an object keep the order in which they were written, because that order decides
the order of matches.  Reading a text leaves the keys of every object distinct
(`Json.DistinctKeys`): a repeated key keeps its first place and takes its last value
(`Entries.put`).
-/

namespace TreeQuery

/-- **A JSON number**: a whole number within 64 bits is kept exactly, any other is a float. -/
inductive Number
  | int (value : Int)
  | float (value : Float)
  deriving DecidableEq

/-- The number as a float; a large whole number is rounded to the nearest. -/
def Number.toFloat : Number → Float
  | .int n => Float.ofInt n
  | .float x => x

/-- **A JSON value.** -/
inductive Json
  | null
  | bool (value : Bool)
  | number (value : Number)
  | string (value : String)
  | array (items : List Json)
  | object (entries : List (String × Json))
  deriving Inhabited

/-- The entries of an object, in order. -/
abbrev Entries := List (String × Json)

namespace Entries

/-- The value under a key. -/
def get? (entries : Entries) (name : String) : Option Json :=
  entries.lookup name

/-- The entries with `value` under `name`: in the place of the entry that holds the key, or after
all others. -/
def put (name : String) (value : Json) : Entries → Entries
  | [] => [(name, value)]
  | (key, old) :: entries =>
    if key = name then (key, value) :: entries else (key, old) :: put name value entries

/-- The entries that result from writing `written` in order. -/
def ofWritten (written : List (String × Json)) : Entries :=
  written.foldl (fun entries entry => put entry.1 entry.2 entries) []

end Entries

namespace Json

/-- A float as a JSON value.  An infinity and NaN, which JSON cannot express, become `null`. -/
def ofFloat (x : Float) : Json :=
  if x.isFinite then .number (.float x) else .null

/-- The value of a property; only objects have properties. -/
def get? : Json → String → Option Json
  | .object entries, name => Entries.get? entries name
  | _, _ => none

mutual

/-- The keys of every object in the value are distinct. -/
def DistinctKeys : Json → Prop
  | .array items => DistinctKeysItems items
  | .object entries => (entries.map Prod.fst).Nodup ∧ DistinctKeysEntries entries
  | _ => True

/-- `DistinctKeys` of every item. -/
def DistinctKeysItems : List Json → Prop
  | [] => True
  | value :: items => DistinctKeys value ∧ DistinctKeysItems items

/-- `DistinctKeys` of the value of every entry. -/
def DistinctKeysEntries : List (String × Json) → Prop
  | [] => True
  | (_, value) :: entries => DistinctKeys value ∧ DistinctKeysEntries entries

end

end Json

end TreeQuery
