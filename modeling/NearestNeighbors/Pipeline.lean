import NearestNeighbors.Classifier
import NearestNeighbors.Split

/-!
# From a data set to a score

A data set is split, a model is fitted on the train side and asked about the test side.
The stages that were reached are kept, so that a failure shows how far it went.

* `Pipeline.run`: the stages and the failure that ended them, if any.
-/

namespace NearestNeighbors.Pipeline

/-- What each stage leaves behind. -/
inductive Stage where
  | loaded (samples : Nat)
  | split (train test : List Nat)
  | fitted
  | predicted (labels : List Nat)
  | scored (score : Float)

/-- The stages in order, and why there are no more. -/
structure Outcome where
  stages : List Stage
  failure : Option Failure

namespace Outcome

/-- A stage that was reached before the others. -/
def after (stage : Stage) (rest : Outcome) : Outcome :=
  { rest with stages := stage :: rest.stages }

/-- The end, with a failure or without. -/
def ends (failure : Option Failure) : Outcome := ⟨[], failure⟩

end Outcome

/-- The stages that ask the model about a side of the split. -/
def evaluate (m : Model) (side : Side) : Outcome :=
  match m.predictBatch side.features with
  | .error e => .ends (some e)
  | .ok labels => .after (.predicted labels) <|
    match m.score side.features side.labels with
    | .error e => .ends (some e)
    | .ok score => .after (.scored score) (.ends none)

/-- The stages that fit a model on the train side and ask it about the test side. -/
def learn (neighbors : Nat) (split : Split) : Outcome :=
  match (Model.new neighbors).fit split.train.features split.train.labels with
  | (.error e, _) => .ends (some (.error e))
  | (.ok (), m) => .after .fitted (evaluate m split.test)

/-- All stages, from a data set or from the error that stands in its place. -/
def run (dataset : Except Error Dataset) (fraction : Float) (seed : UInt64)
    (neighbors : Nat) : Outcome :=
  match dataset with
  | .error e => .ends (some (.error e))
  | .ok d => .after (.loaded d.size) <|
    match trainTestSplit d.features d.labels fraction seed with
    | .error e => .ends (some e)
    | .ok split => .after (.split split.train.indices split.test.indices) (learn neighbors split)

end NearestNeighbors.Pipeline
