import NearestNeighbors.Matrix
import NearestNeighbors.Table.Reader

/-!
# Data sets

A data set holds its samples column-wise: a matrix of measurements and a list of
labels, both in the order of the samples.

* `Dataset.ofSamples`, `Dataset.parse`: from samples and from a table.
-/

namespace NearestNeighbors

/-- Feature rows and the labels that go with them. -/
structure Dataset where
  features : Matrix
  labels : List Nat

namespace Dataset

/-- The samples as rows and labels. -/
def ofSamples (samples : List Sample) : Dataset where
  features :=
    { cols := dimensions
      rows := samples.map fun s => s.features.toList
      length_row := by simp }
  labels := samples.map Sample.label

/-- The number of samples. -/
def size (d : Dataset) : Nat := d.labels.length

/-- Whether there is no sample. -/
def isEmpty (d : Dataset) : Bool := d.labels.isEmpty

/-- The data set that a table holds. -/
def parse (bytes : List UInt8) : Except Error Dataset :=
  (Table.parse bytes).map ofSamples

end Dataset

end NearestNeighbors
