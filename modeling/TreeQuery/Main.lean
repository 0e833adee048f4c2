import TreeQuery.Command.Run

/-!
# Main — the command line program

All decisions are in `TreeQuery.run`; here its inputs are fetched and its answer is delivered.
-/

/-- Everything on the standard input, unless it is a terminal. -/
def pipedInput : IO (Option ByteArray) := do
  let stdin ← IO.getStdin
  if ← stdin.isTty then return none
  return some (← stdin.readBinToEnd)

/-- Runs the program. -/
def main (arguments : List String) : IO UInt32 := do
  let piped ← if TreeQuery.readsInput arguments then pipedInput else pure none
  let answer := TreeQuery.run arguments piped
  IO.print answer.output
  IO.eprint answer.errors
  return answer.status
