import Mathlib
import NearestNeighbors.Proofs.Csv.Reader
import NearestNeighbors.Proofs.Table.Record

/-!
# What a table is read as

A table is accepted when every record after the header is one of a sample, and it is then
these samples. Otherwise the first record that is not decides, whatever follows it.

* `dataRecords_fields`: the records that count are the rows of the grammar after the first.
* `parse_eq_ok`, `parse_eq_error`: tables that are read, and those that are not.
* `exists_defect`: a record has one defect, or it is that of a sample.
* `parse_accepts_or_reports` (every input): all of this together.
-/

namespace NearestNeighbors.Table

open Csv (Record dataRecords readAll Reads)

variable {bytes : List UInt8} {samples : List Sample} {number : ℕ} {r : Record} {e : Error}

/-- Only where its reading began is changed in a record. -/
theorem dataRecords_fields (bytes : List UInt8) :
    (dataRecords bytes).map Record.fields = ((readAll bytes).map Record.fields).tail := by
  unfold dataRecords
  split
  · rename_i header first rest h
    rw [h]
    rfl
  · rename_i h
    cases hall : readAll bytes with
    | nil => rfl
    | cons header rest =>
      cases rest with
      | nil => rfl
      | cons first rest => exact absurd hall (h header first rest)

/-- **Tables that are read**: each record is that of a sample. -/
theorem parse_eq_ok : parse bytes = .ok samples ↔
    List.Forall₂ Describes ((dataRecords bytes).map Record.fields) samples := by
  rw [List.forall₂_map_left_iff]
  exact mapM_zipIdx_eq_ok fun _ number _ => sampleOf_eq_ok number

/-- **Tables that are not read**: the first record that is not one of a sample decides. -/
theorem parse_eq_error : parse bytes = .error e ↔
    ∃ before r after, dataRecords bytes = before ++ r :: after ∧
      (∀ x ∈ before, ∃ s, Describes x.fields s) ∧ Defect (before.length + 1) r e := by
  unfold parse
  rw [mapM_zipIdx_eq_error fun _ number _ => sampleOf_eq_ok number]
  simp only [sampleOf_eq_error, Nat.add_comm 1]

/-- Labels that can be computed are those of samples that are read. -/
theorem exists_parse_of_labels (bytes : List UInt8) (labels : List ℕ)
    (hlabels : (parse bytes).toOption.map (List.map Sample.label) = some labels) :
    ∃ xs, parse bytes = .ok xs ∧ xs.map Sample.label = labels := by
  cases hparse : parse bytes with
  | error e =>
    rw [hparse] at hlabels
    cases hlabels
  | ok xs =>
    rw [hparse] at hlabels
    exact ⟨xs, rfl, Option.some.inj hlabels⟩

/-- A record that is not one of a sample has one defect. -/
theorem exists_defect : (∃! e, Defect number r e) ↔ ¬∃ s, Describes r.fields s := by
  simp only [← sampleOf_eq_ok number, ← sampleOf_eq_error]
  cases sampleOf number r with
  | ok s =>
    refine iff_of_false ?_ (not_not_intro ⟨s, rfl⟩)
    rintro ⟨e, h, -⟩
    cases h
  | error e =>
    refine iff_of_true ⟨e, rfl, fun e' h => ?_⟩ ?_
    · cases h
      rfl
    · rintro ⟨s, h⟩
      cases h

/-- **Every input is accepted, or its first defect is reported.** The records that count are
the rows of its one reading by the grammar, the first row left out. An input whose records
are those of samples is read as these samples; for any other one, the first record that is
not that of a sample gives its defect, with its number. -/
theorem parse_accepts_or_reports (bytes : List UInt8) :
    (∃ rows, (∀ rows', Reads bytes rows' ↔ rows' = rows) ∧
      (dataRecords bytes).map Record.fields = rows.tail ∧
      ∀ samples, parse bytes = .ok samples ↔ List.Forall₂ Describes rows.tail samples) ∧
    (∀ number r, (∃! e, Defect number r e) ↔ ¬∃ s, Describes r.fields s) ∧
    ∀ e, parse bytes = .error e ↔ ∃ before r after, dataRecords bytes = before ++ r :: after ∧
      (∀ x ∈ before, ∃ s, Describes x.fields s) ∧ Defect (before.length + 1) r e := by
  have hfields := dataRecords_fields bytes
  refine ⟨⟨(readAll bytes).map Record.fields, fun rows => ?_, hfields, fun samples => ?_⟩,
    fun _ _ => exists_defect, fun _ => parse_eq_error⟩
  · rw [Csv.reads_iff, eq_comm]
  · rw [parse_eq_ok, hfields]

end NearestNeighbors.Table
