import NearestNeighbors.Dataset
import NearestNeighbors.Except

/-!
# What a table gives

A table that can be read gives as many labels as rows, rows of four measurements, and
labels of species that there are.

* `Dataset.WellFormed`: what the labels have to do with the rows and the species.
* `Dataset.parse_wellFormed`: every table that is read.
-/

namespace NearestNeighbors

/-- A name that has a label is one of the species. -/
theorem label_lt {name : String} {l : Nat} (h : label name = .ok l) : l < species.length := by
  unfold label at h
  split at h
  · rename_i i hi
    cases h
    obtain ⟨hlt, -⟩ := List.idxOf?_eq_some_iff.1 hi
    exact hlt
  · cases h

/-- **What a data set holds**: a label for each row, four measurements in a row, and the
labels of species. -/
structure Dataset.WellFormed (d : Dataset) : Prop where
  size_eq : d.features.size = d.labels.length
  cols_eq : d.features.cols = dimensions
  label_lt : ∀ l ∈ d.labels, l < species.length

theorem Dataset.ofSamples_wellFormed {samples : List Sample}
    (h : ∀ s ∈ samples, s.label < species.length) : (ofSamples samples).WellFormed := by
  refine ⟨?_, rfl, fun l hl => ?_⟩
  · show (samples.map fun s => s.features.toList).length = (samples.map Sample.label).length
    rw [List.length_map, List.length_map]
  · obtain ⟨s, hs, rfl⟩ := List.mem_map.1 hl
    exact h s hs

namespace Table

theorem sampleOfTexts_label {number : Nat} {texts : List String} {s : Sample}
    (h : sampleOfTexts number texts = .ok s) : s.label < species.length := by
  unfold sampleOfTexts at h
  split at h
  · obtain ⟨a, -, h⟩ := bind_eq_ok.1 h
    obtain ⟨b, -, h⟩ := bind_eq_ok.1 h
    obtain ⟨c, -, h⟩ := bind_eq_ok.1 h
    obtain ⟨d, -, h⟩ := bind_eq_ok.1 h
    obtain ⟨l, hl, h⟩ := bind_eq_ok.1 h
    cases h
    exact label_lt hl
  · cases h

/-- Every sample of a table has the label of a species. -/
theorem parse_label {bytes : List UInt8} {samples : List Sample}
    (h : parse bytes = .ok samples) : ∀ s ∈ samples, s.label < species.length := by
  intro s hs
  have hmem : Except.ok s ∈ samples.map (Except.ok (ε := Error)) := List.mem_map_of_mem hs
  rw [← mapM_eq_ok.1 h] at hmem
  obtain ⟨⟨r, number⟩, -, hr⟩ := List.mem_map.1 hmem
  obtain ⟨texts, -, htexts⟩ := bind_eq_ok.1 hr
  exact sampleOfTexts_label htexts

end Table

/-- **A table that can be read** gives a data set with all labels below that of no species. -/
theorem Dataset.parse_wellFormed {bytes : List UInt8} {d : Dataset}
    (h : parse bytes = .ok d) : d.WellFormed := by
  unfold parse at h
  cases hs : Table.parse bytes with
  | error e =>
    rw [hs] at h
    cases h
  | ok samples =>
    rw [hs] at h
    cases h
    exact ofSamples_wellFormed (Table.parse_label hs)

end NearestNeighbors
