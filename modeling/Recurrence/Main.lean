/-
# The program

Key definitions: `main`.
-/
import Recurrence.Expand

/-- Expands the recurrence lines of the standard input. -/
def main (args : List String) : IO UInt32 := do
  let input ← (← IO.getStdin).readToEnd
  let outcome := Recurrence.Expand.run args input
  IO.print outcome.output
  IO.eprint outcome.errors
  return outcome.exitCode.toUInt32
