import NearestNeighbors.Binary64.Magnitude
import NearestNeighbors.Dataset
import NearestNeighbors.Permutation

/-!
# Splitting into a train and a test side

A split takes the first rows of a permutation for testing and leaves the rest for
training. The test side is rounded up.

* `splitSizes`: the sizes of the sides.
* `trainTestSplit`: the sides.
-/

namespace NearestNeighbors

/-- The sizes of both sides. -/
structure SplitSizes where
  train : Nat
  test : Nat
  deriving DecidableEq, Repr

/-- The size of the test side: the double product, rounded up. -/
def testSize (samples : Nat) (fraction : Float) : Nat :=
  Binary64.ceilingSize (Float.ofNat samples * fraction)

/-- The sizes for a fraction strictly between zero and one. Neither side is empty. -/
def splitSizes (samples : Nat) (fraction : Float) : Except Error SplitSizes :=
  if 0 < fraction ∧ fraction < 1 then
    let test := testSize samples fraction
    let train := samples - test
    if train = 0 ∨ test = 0 then .error (.degenerateSplit samples train test)
    else .ok ⟨train, test⟩
  else .error (.invalidTestFraction fraction)

/-- Rows of a data set, with their labels and the positions they had. -/
structure Side where
  features : Matrix
  labels : List Nat
  indices : List Nat

/-- The rows at the positions `indices`. -/
def Side.select (features : Matrix) (labels indices : List Nat) : Except Failure Side := do
  let rows ← features.select indices
  let chosen ← selectAt labels indices
  return ⟨rows, chosen, indices⟩

/-- Both sides of a split. -/
structure Split where
  train : Side
  test : Side

/-- The first `n` elements of a list and those after them. -/
def cutAt {α : Type} (l : List α) (n : Nat) : Except Failure (List α × List α) :=
  if n ≤ l.length then .ok (l.take n, l.drop n) else .error .outOfRange

/-- The split of a data set. Rows and labels have to be equally many; after that only
the sizes can be wrong. -/
def trainTestSplit (features : Matrix) (labels : List Nat) (fraction : Float)
    (seed : UInt64) : Except Failure Split :=
  if features.size ≠ labels.length then
    .error (.error (.lengthMismatch features.size labels.length))
  else do
    let sizes ← orFail (splitSizes features.size fraction)
    let (testIndices, trainIndices) ← cutAt (permutation features.size seed) sizes.test
    let train ← Side.select features labels trainIndices
    let test ← Side.select features labels testIndices
    return ⟨train, test⟩

end NearestNeighbors
