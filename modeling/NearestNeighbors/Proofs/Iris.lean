import Mathlib
import NearestNeighbors.Iris
import NearestNeighbors.Proofs.Dataset
import NearestNeighbors.Proofs.Table.Spelling

/-!
# The iris table is read

The lines of the iris table have plain fields, so that they are read as these fields. Each
row after the first has four numbers and a species, and the species come in blocks of fifty.

* `table_isTable`, `table_isBare`: the table is one of plain lines.
* `load_eq`: it can be read, and what labels it has.
* `dataset_wellFormed`: its data set can be split and learned from.
-/

namespace NearestNeighbors.Iris

open Table (IsTable IsBare readTexts)

theorem table_isTable : IsTable table where
  head_ne := by
    rintro text texts rows heq
    obtain ⟨⟨rfl, -⟩, -⟩ := heq
    decide
  row_ne := by decide +kernel

theorem table_isBare : ∀ row ∈ table, ∀ text ∈ row, IsBare text := by decide +kernel

/-- The labels of the flowers: fifty of each species. -/
def labels : List ℕ := List.replicate 50 0 ++ List.replicate 50 1 ++ List.replicate 50 2

theorem parse_labels :
    (Table.parse bytes).toOption.map (List.map Sample.label) = some labels := by
  -- the bytes are too many to be read one by one, so the fields stand for them
  have hread : Table.parse bytes = readTexts table :=
    Table.parse_join_line table_isTable table_isBare
  rw [hread]
  decide +kernel

/-- **The iris table is read**: `dataset` is what it gives, with fifty flowers of each
species. -/
theorem load_eq : load = .ok dataset ∧ dataset.labels = labels := by
  obtain ⟨samples, hsamples, hlabels⟩ := Table.exists_parse_of_labels bytes labels parse_labels
  have hload : load = .ok (.ofSamples samples) := by
    rw [load, Dataset.parse, hsamples]
    rfl
  have hdataset : dataset = .ofSamples samples := by
    rw [dataset, hload]
    rfl
  rw [hdataset]
  exact ⟨hload, hlabels⟩

theorem dataset_wellFormed : dataset.WellFormed := Dataset.parse_wellFormed load_eq.1

end NearestNeighbors.Iris
