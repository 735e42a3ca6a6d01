import NearestNeighbors.Error

/-!
# Samples

A sample is a flower: four measurements and the label of its species. Labels are the
positions in the list of species.

* `species`: the species in label order; `label` finds a name in it.
* `Sample`: measurements and label.
-/

namespace NearestNeighbors

/-- How many measurements a sample has. -/
def dimensions : Nat := 4

/-- The species in label order. -/
def species : List String := ["setosa", "versicolor", "virginica"]

/-- The label of a species. The name has to match exactly. -/
def label (name : String) : Except Error Nat :=
  match species.idxOf? name with
  | some i => .ok i
  | none => .error (.unknownSpecies name)

/-- A flower. Its label may be any number where samples are not read from a table. -/
structure Sample where
  features : Vector Float dimensions
  label : Nat

end NearestNeighbors
