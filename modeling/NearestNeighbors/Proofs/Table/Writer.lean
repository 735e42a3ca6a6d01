import Mathlib
import NearestNeighbors.Dataset
import NearestNeighbors.Proofs.Csv.Boundary
import NearestNeighbors.Proofs.Decimal.Notation
import NearestNeighbors.Proofs.Table.Spelling

/-!
# A table that is written can be read

Each line of a written table is a row of plain fields that need no quotes and have no
blanks around them, and what they say is the sample the line was written for.

* `fieldsOf_isNumeric`: the characters in the fields of a sample.
* `holds_fieldsOf`: the fields hold the sample.
* `parse_lines` (every header and list of samples): the samples come back, and so do the
  rows and labels of the data set.
-/

namespace NearestNeighbors.Table

open Csv (Record Row Rows dataRecords HoldsHeader)
open Decimal (IsNumeric plainText)

variable {c : Char} {text : String} {s : Sample} {samples : List Sample} {header : List UInt8}

/-! ## Fields -/

theorem toNat_lt_of_isAlphanum (h : c.isAlphanum) : c.toNat < 128 := by
  simp only [Char.isAlphanum, Char.isAlpha, Char.isUpper, Char.isLower, Char.isDigit,
    Bool.or_eq_true, Bool.and_eq_true, decide_eq_true_eq, ge_iff_le] at h
  rw [Char.toNat]
  rcases h with (⟨-, h⟩ | ⟨-, h⟩) | ⟨-, h⟩
  · exact Nat.lt_of_le_of_lt (UInt32.le_iff_toNat_le.1 h) (by decide)
  · exact Nat.lt_of_le_of_lt (UInt32.le_iff_toNat_le.1 h) (by decide)
  · exact Nat.lt_of_le_of_lt (UInt32.le_iff_toNat_le.1 h) (by decide)

/-- Digits, letters, minus and point are neither delimiters nor blanks. -/
theorem solid_of_isNumeric (h : IsNumeric c) :
    (c ≠ ',' ∧ c ≠ '"' ∧ c ≠ '\r' ∧ c ≠ '\n') ∧ Text.isBlank c = false := by
  rcases h with h | rfl | rfl
  · have hall : ∀ n < 128, (Char.ofNat n).isAlphanum → (Char.ofNat n ≠ ',' ∧ Char.ofNat n ≠ '"' ∧
        Char.ofNat n ≠ '\r' ∧ Char.ofNat n ≠ '\n') ∧ Text.isBlank (Char.ofNat n) = false := by
      decide
    have hlt := toNat_lt_of_isAlphanum h
    rw [← Char.ofNat_toNat c] at h ⊢
    exact hall _ hlt h
  · decide
  · decide

theorem isBare_of_isNumeric (h : ∀ c ∈ text.toList, IsNumeric c) : IsBare text :=
  fun c hc => (solid_of_isNumeric (h c hc)).1

theorem trim_of_isNumeric (h : ∀ c ∈ text.toList, IsNumeric c) : Text.trim text = text :=
  Text.trim_eq_self fun c hc => (solid_of_isNumeric (h c hc)).2

theorem species_isNumeric : ∀ name ∈ species, ∀ c ∈ name.toList, IsNumeric c := by
  have hall : ∀ name ∈ species, ∀ c ∈ name.toList, c.isAlphanum := by simp [species]
  exact fun name hname c hc => .inl (hall name hname c hc)

theorem fieldsOf_isNumeric (s : Sample) : ∀ text ∈ fieldsOf s, ∀ c ∈ text.toList, IsNumeric c := by
  intro text htext c hc
  rcases List.mem_append.1 htext with htext | htext
  · obtain ⟨x, -, rfl⟩ := List.mem_map.1 htext
    exact Decimal.mem_plainText hc
  · rw [List.mem_singleton] at htext
    subst htext
    rw [List.getD_eq_getElem?_getD] at hc
    cases hname : species[s.label]? with
    | none =>
      rw [hname] at hc
      cases hc
    | some name =>
      rw [hname] at hc
      exact species_isNumeric name (List.mem_of_getElem? hname) c hc

theorem fieldsOf_trim (s : Sample) : (fieldsOf s).map Text.trim = fieldsOf s := by
  have hall : ∀ text ∈ fieldsOf s, Text.trim text = id text := fun text htext =>
    trim_of_isNumeric (fieldsOf_isNumeric s text htext)
  rw [List.map_congr_left hall, List.map_id]

/-- **The fields of a sample** hold it. -/
theorem holds_fieldsOf (hlabel : s.label < species.length) : Holds (fieldsOf s) s := by
  refine ⟨s.features.toList.map plainText, species.getD s.label "", rfl, ?_, ?_⟩
  · rw [List.forall₂_map_left_iff, List.forall₂_same]
    exact fun x _ => Numeral.parse?_plainText x
  · rw [List.getD_eq_getElem?_getD, List.getElem?_eq_getElem hlabel]
    rfl

/-! ## Lines -/

/-- The bytes of the lines of some samples. -/
def linesOf (samples : List Sample) : List UInt8 :=
  (String.join (samples.map fun s => line (fieldsOf s))).toUTF8.toList

theorem render_eq (samples : List Sample) :
    render samples = (line columns).toUTF8.toList ++ linesOf samples :=
  Text.toUTF8_append _ _

theorem holdsHeader_columns : HoldsHeader (line columns).toUTF8.toList :=
  ⟨by decide +kernel, by decide +kernel⟩

theorem length_of_mem_fieldsOf {row : List String} (hrow : row ∈ samples.map fieldsOf) :
    row.length = dimensions + 1 := by
  obtain ⟨s, -, rfl⟩ := List.mem_map.1 hrow
  rw [fieldsOf, List.length_append, List.length_map, Vector.length_toList, List.length_singleton]

theorem written_fieldsOf (samples : List Sample) :
    written (samples.map fieldsOf) = samples.map fieldsOf := by
  refine List.filter_eq_self.2 fun row hrow => ?_
  have hlen := length_of_mem_fieldsOf hrow
  cases row with
  | nil => cases hlen
  | cons text texts => rfl

theorem spellsRows_linesOf (samples : List Sample) :
    SpellsRows (samples.map fieldsOf) (linesOf samples) := by
  have hlines : linesOf samples =
      (String.join ((samples.map fieldsOf).map line)).toUTF8.toList := by
    rw [List.map_map]
    rfl
  rw [hlines]
  refine spellsRows_lines fun row hrow text htext => ?_
  obtain ⟨s, -, rfl⟩ := List.mem_map.1 hrow
  exact isBare_of_isNumeric (fieldsOf_isNumeric s text htext)

theorem describes_of_holdsTexts {vs : Row} (hlabel : s.label < species.length)
    (h : HoldsTexts vs (fieldsOf s)) : Describes vs s := by
  rw [HoldsTexts, fieldsOf_trim] at h
  exact ⟨fieldsOf s, h, holds_fieldsOf hlabel⟩

/-- Lines are rows that hold the samples. -/
theorem rows_linesOf (hlabels : ∀ s ∈ samples, s.label < species.length) :
    ∃ vss, Rows (linesOf samples) vss ∧ List.Forall₂ Describes vss samples := by
  have hempty : ∀ row ∈ samples.map fieldsOf, row ≠ [""] := by
    rintro row hrow rfl
    cases length_of_mem_fieldsOf hrow
  obtain ⟨vss, hrows, hall⟩ := (spellsRows_linesOf samples).rows hempty
  rw [written_fieldsOf, List.forall₂_map_right_iff] at hall
  have hboth := (List.forall₂_and_left _ _).2 ⟨hlabels, hall.flip⟩
  exact ⟨vss, hrows, (hboth.imp fun s vs h => describes_of_holdsTexts h.1 h.2).flip⟩

/-- **What is written is read again.** Behind any header, the lines of samples with a species
are read as these samples, whatever doubles they have for measurements, and the data set has
their rows and their labels. The header that is written is one of those. -/
theorem parse_lines (hheader : HoldsHeader header)
    (hlabels : ∀ s ∈ samples, s.label < species.length) :
    parse (header ++ linesOf samples) = .ok samples ∧ parse (render samples) = .ok samples ∧
      ∃ d, Dataset.parse (header ++ linesOf samples) = .ok d ∧
        d.features.rows = samples.map (fun s => s.features.toList) ∧
        d.labels = samples.map Sample.label := by
  obtain ⟨vss, hrows, hall⟩ := rows_linesOf hlabels
  have hparse : ∀ {header}, HoldsHeader header →
      parse (header ++ linesOf samples) = .ok samples := by
    intro header hheader
    rw [parse_eq_ok, hheader.dataRecords_fields hrows]
    exact hall
  refine ⟨hparse hheader, render_eq samples ▸ hparse holdsHeader_columns, ?_⟩
  refine ⟨.ofSamples samples, ?_, rfl, rfl⟩
  rw [Dataset.parse, hparse hheader]
  rfl

/-- Samples of the smallest double, a negative zero, an infinity and a large number. -/
theorem parse_lines_extremes :
    parse (render [⟨#v[5e-324, -0, 1 / 0, 1e300], 2⟩]) = .ok [⟨#v[5e-324, -0, 1 / 0, 1e300], 2⟩] :=
  (parse_lines holdsHeader_columns (by decide)).2.1

end NearestNeighbors.Table
