import NearestNeighbors.Decimal.Notation
import NearestNeighbors.Sample

/-!
# Writing a table of samples

A table is a header and one line for each sample: the measurements, each as the
shortest decimal that reads back, and the species.

* `render`: the bytes of a table.
-/

namespace NearestNeighbors.Table

/-- The names of the columns. -/
def columns : List String :=
  ["sepal_length", "sepal_width", "petal_length", "petal_width", "species"]

/-- One line: fields with commas between them, and a line feed. -/
def line (fields : List String) : String :=
  ",".intercalate fields ++ "\n"

/-- The fields of a sample. A label without a species leaves the last field empty. -/
def fieldsOf (s : Sample) : List String :=
  s.features.toList.map Decimal.plainText ++ [species.getD s.label ""]

/-- The bytes of a table with the given samples. -/
def render (samples : List Sample) : List UInt8 :=
  (line columns ++ String.join (samples.map fun s => line (fieldsOf s))).toUTF8.toList

end NearestNeighbors.Table
