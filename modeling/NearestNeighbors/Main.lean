import NearestNeighbors.CommandLine

/-!
# The program

Prints the accuracy of the usual experiment.
-/

open NearestNeighbors

/-- Prints the output of the command and exits with its code. -/
def main : IO UInt32 := do
  IO.print CommandLine.outcome.output
  return CommandLine.outcome.code
