/-!
# Records of a comma-separated table

A table is a sequence of records, a record a sequence of fields, a field a row of
bytes. Each record knows where the reading of it began.

* `Position`: records, lines and bytes behind a reader.
* `Record`: fields and where their reading began.
-/

namespace NearestNeighbors.Csv

/-- How far a reader has come: the records behind it, the line it stands on, counted
from one by line feeds, and the bytes behind it. -/
structure Position where
  records : Nat
  line : Nat
  byte : Nat
  deriving DecidableEq, Repr

/-- Before the first byte. -/
def Position.start : Position := ⟨0, 1, 0⟩

/-- The fields of one record, as they stand between the delimiters and without the
quotes around them. -/
structure Record where
  /-- Where the record before this one ended. -/
  start : Position
  fields : List (List UInt8)
  deriving DecidableEq, Repr

end NearestNeighbors.Csv
