import NearestNeighbors.Csv.Record
import NearestNeighbors.Decimal.Notation

/-!
# Errors

Everything that can be wrong with a table, a split or a classifier, and the one place
where it is put into words.

* `Error`: the causes.
* `Error.message`: the text of each.
* `Failure`: an error, or the end of a computation that has no error for it.
-/

namespace NearestNeighbors

/-- What is wrong. Records of a table are counted from one, the header not included. -/
inductive Error where
  /-- A field of a record is not UTF-8. The position is where the reading of the record
  began; `field` counts from zero; `valid` is the length of the part in front that is
  well-formed. -/
  | encoding (position : Csv.Position) (field valid : Nat)
  | unknownSpecies (name : String)
  | fieldCount (record expected found : Nat)
  | invalidNumber (record : Nat) (text : String)
  /-- The fraction is not between zero and one. -/
  | invalidTestFraction (fraction : Float)
  /-- One side of the split is empty. -/
  | degenerateSplit (samples train test : Nat)
  | lengthMismatch (features labels : Nat)
  | dimensionMismatch (expected found : Nat)
  /-- No neighbours, or more than there are samples. -/
  | invalidNeighbors (neighbors samples : Nat)
  | empty
  | notFitted

/-- The wording of an error. Texts from the table are given as they are. -/
def Error.message : Error → String
  | .encoding p field valid =>
    s!"CSV parse error: record {p.records} (line {p.line}, field: {field}, byte: {p.byte}): " ++
      s!"invalid utf-8: invalid UTF-8 in field {field} near byte index {valid}"
  | .unknownSpecies name => s!"unexpected species '{name}'"
  | .fieldCount record expected found =>
    s!"record {record}: expected {expected} fields, found {found}"
  | .invalidNumber record text => s!"record {record}: '{text}' is not a number"
  | .invalidTestFraction fraction =>
    s!"test fraction must be in (0, 1), got {Decimal.plainText fraction}"
  | .degenerateSplit samples train test =>
    s!"split of {samples} samples leaves {train} train and {test} test samples"
  | .lengthMismatch features labels => s!"{features} feature rows but {labels} labels"
  | .dimensionMismatch expected found => s!"expected {expected} features, got {found}"
  | .invalidNeighbors neighbors samples =>
    s!"cannot use {neighbors} neighbors with {samples} training samples"
  | .empty => "empty sample set"
  | .notFitted => "model is not fitted"

/-- Why a computation gives no result. All but `error` break it off where it stands. -/
inductive Failure where
  | error (cause : Error)
  /-- The votes cannot be counted: a counter for each label up to the largest one would
  not fit into memory. -/
  | capacity
  /-- A position outside a list. -/
  | outOfRange
  /-- The distance of two rows that do not fit. -/
  | unequalRows

/-- An error as a failure. -/
def orFail {α : Type} : Except Error α → Except Failure α
  | .ok a => .ok a
  | .error e => .error (.error e)

theorem orFail_eq_ok {α : Type} {x : Except Error α} {a : α} : orFail x = .ok a ↔ x = .ok a := by
  cases x with
  | ok b => exact ⟨fun h => by cases h; rfl, fun h => by cases h; rfl⟩
  | error e => exact ⟨fun h => (nomatch h), fun h => (nomatch h)⟩

end NearestNeighbors
