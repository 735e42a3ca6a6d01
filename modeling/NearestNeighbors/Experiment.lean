import NearestNeighbors.Classifier
import NearestNeighbors.Iris
import NearestNeighbors.Split

/-!
# The iris experiment

The iris table is loaded and split, a model is fitted on the train side and scored on the
test side.

* `Experiment.Config`: fraction, seed and neighbours, with their usual values.
* `Experiment.run`: the report of one experiment.
-/

namespace NearestNeighbors.Experiment

/-- The usual part of the flowers that is kept for testing. -/
def testFraction : Float := 0.2

/-- The usual seed. -/
def seed : UInt64 := 42

/-- The usual number of neighbours. -/
def neighbors : Nat := 3

/-- What an experiment can vary. -/
structure Config where
  testFraction : Float := Experiment.testFraction
  seed : UInt64 := Experiment.seed
  neighbors : Nat := Experiment.neighbors

/-- What an experiment finds. -/
structure Report where
  accuracy : Float
  trainSize : Nat
  testSize : Nat
  testIndices : List Nat

/-- The experiment: load, split, fit, score. -/
def run (config : Config) : Except Failure Report := do
  let dataset ← orFail Iris.load
  let split ← trainTestSplit dataset.features dataset.labels config.testFraction config.seed
  let (fitted, model) :=
    (Model.new config.neighbors).fit split.train.features split.train.labels
  orFail fitted
  let accuracy ← model.score split.test.features split.test.labels
  return {
    accuracy
    trainSize := split.train.labels.length
    testSize := split.test.labels.length
    testIndices := split.test.indices }

end NearestNeighbors.Experiment
