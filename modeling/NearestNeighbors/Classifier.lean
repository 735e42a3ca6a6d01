import NearestNeighbors.Binary64.Order
import NearestNeighbors.Distance
import NearestNeighbors.Matrix
import NearestNeighbors.Selection
import NearestNeighbors.Vote

/-!
# The classifier

A model keeps a number of neighbours and, once it is fitted, a training set. It labels
a row by a vote among the training rows nearest to it. Rows that are equally near count
in the order of the training set.

* `Model.fit`: keeps a training set, or nothing.
* `Model.predict`, `Model.predictBatch`: the label of one row and of many.
* `Model.score`: the part of labels that come out right.
-/

namespace NearestNeighbors

/-- A classifier: how many rows vote, the training rows once there are any, and their
labels. -/
structure Model where
  neighbors : Nat
  features : Option Matrix
  labels : List Nat

namespace Model

/-- A model that has seen nothing. -/
def new (neighbors : Nat) : Model := ⟨neighbors, none, []⟩

/-- Whether there is a training set. -/
def isFitted (m : Model) : Bool := m.features.isSome

/-- The model without its training set. -/
def cleared (m : Model) : Model := { m with features := none, labels := [] }

/-- The model with a new training set in place of the old one. A training set needs a
label for each row, a row, and a row for each vote; when it will not do, the old one is
gone all the same. -/
def fit (m : Model) (features : Matrix) (labels : List Nat) : Except Error Unit × Model :=
  let m := m.cleared
  if features.size ≠ labels.length then
    (.error (.lengthMismatch features.size labels.length), m)
  else if features.size = 0 then (.error .empty, m)
  else if m.neighbors = 0 ∨ features.size < m.neighbors then
    (.error (.invalidNeighbors m.neighbors features.size), m)
  else (.ok (), { m with features := some features, labels })

/-- The place of each training row in the order of distances to `query`. -/
def distanceKeys (features : Matrix) (query : List Float) : Except Failure (List Int) :=
  features.rows.mapM fun row =>
    match distance row query with
    | some d => .ok (Binary64.orderKey d)
    | none => .error .unequalRows

/-- The positions of the `k` training rows nearest to `query`. -/
def nearest (features : Matrix) (k : Nat) (query : List Float) : Except Failure (List Nat) := do
  let keys ← distanceKeys features query
  return smallest k keys

/-- The label of a row: its nearest training rows vote. -/
def predict (m : Model) (query : List Float) : Except Failure Nat :=
  match m.features with
  | none => .error (.error .notFitted)
  | some features =>
    if query.length ≠ features.cols then
      .error (.error (.dimensionMismatch features.cols query.length))
    else do
      let positions ← nearest features m.neighbors query
      let votes ← selectAt m.labels positions
      vote votes

/-- The labels of the rows of a matrix, up to the first row that has none. -/
def predictBatch (m : Model) (features : Matrix) : Except Failure (List Nat) :=
  features.rows.mapM m.predict

/-- How many labels come out as expected. -/
def hits (predictions labels : List Nat) : Nat :=
  (predictions.zip labels).countP fun (p, l) => p = l

/-- The part of the rows whose label comes out as expected. -/
def score (m : Model) (features : Matrix) (labels : List Nat) : Except Failure Float :=
  if features.size ≠ labels.length then
    .error (.error (.lengthMismatch features.size labels.length))
  else if labels.isEmpty then .error (.error .empty)
  else do
    let predictions ← m.predictBatch features
    return Float.ofNat (hits predictions labels) / Float.ofNat labels.length

end Model

end NearestNeighbors
