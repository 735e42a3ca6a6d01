import NearestNeighbors.Experiment

/-!
# The command

The command takes no arguments: it runs the usual experiment and prints the accuracy
with three places.

* `CommandLine.outcome`: what it prints and how it exits.
-/

namespace NearestNeighbors.CommandLine

/-- What a command leaves: its exit code and its output. -/
structure Outcome where
  code : UInt32
  output : String
  deriving DecidableEq, Repr

/-- The line that gives the accuracy. -/
def accuracyLine (accuracy : Float) : String :=
  "Test accuracy: " ++ Decimal.fixedText 3 accuracy ++ "\n"

/-- The report as an output; a failure prints nothing and exits with one. -/
def outcomeOf : Except Failure Experiment.Report → Outcome
  | .ok report => ⟨0, accuracyLine report.accuracy⟩
  | .error _ => ⟨1, ""⟩

/-- What the command leaves. -/
def outcome : Outcome := outcomeOf (Experiment.run {})

end NearestNeighbors.CommandLine
