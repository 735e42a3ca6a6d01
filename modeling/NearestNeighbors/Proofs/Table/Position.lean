import NearestNeighbors.Proofs.Csv.Position
import NearestNeighbors.Proofs.Table.Reader

/-!
# Where a field is not text

An error about a field that is not text names the place where the reading of its record began:
the rows in front of it, the line and the bytes. The first record after the header is read
together with the header, so its place is in front of everything.

* `IsUtf8`, `exists_isText_iff`: fields that are text, whatever blanks are around them.
* `Locates`: what such an error says.
* `parse_locates` (every input with such an error): all of it is so.
-/

namespace NearestNeighbors.Table

open Csv (Row Record Position EndsAt Reads dataRecords readAll isLineEnd)

variable {bytes field : List UInt8} {p : Position} {i valid : ℕ} {r : Record}

/-- The bytes are UTF-8. -/
def IsUtf8 (bytes : List UInt8) : Prop := ∃ s : String, bytes = s.toUTF8.toList

/-- Blank bytes around a field make no difference. -/
theorem exists_isText_iff :
    (∃ text, IsText field text) ↔ IsUtf8 (Text.trimWith Text.isAsciiBlank field) := by
  unfold IsUtf8
  simp only [← fieldText_eq_ok, ← Text.decode_eq_ok]
  unfold fieldText
  cases Text.decode (Text.trimWith Text.isAsciiBlank field) with
  | ok s => exact iff_of_true ⟨_, rfl⟩ ⟨s, rfl⟩
  | error n => exact iff_of_false nofun nofun

/-- **The first field that is not text**, and the length of the longest front of it that is. -/
structure Unreadable (fields : Row) (i valid : ℕ) : Prop where
  isLeast : IsLeast {k | ∃ f, fields[k]? = some f ∧ ¬IsUtf8 (Text.trimWith Text.isAsciiBlank f)} i
  length : ∃ f, fields[i]? = some f ∧ TextLength f valid

/-- **What an error about a field says.** The position is where the rows in front of it ended; the
record is the one that was read from there on, and the first that holds no sample. -/
structure Locates (bytes : List UInt8) (p : Position) (i valid : ℕ) : Prop where
  /-- The rows in front of the position are whole, and there are no others. -/
  rows : ∃ rows, rows <+: (readAll bytes).map Record.fields ∧ EndsAt bytes rows p ∧
    ∀ rows', Reads (bytes.take p.byte) rows' ↔ rows' = rows
  /-- The byte in front of the position ended the last of them. -/
  line_end : 0 < p.byte → ∃ b, bytes[p.byte - 1]? = some b ∧ isLineEnd b
  /-- The record that fails. -/
  record : ∃ before r after, dataRecords bytes = before ++ r :: after ∧
    before.length + 1 = max p.records 1 ∧ (∀ x ∈ before, ∃ s, Describes x.fields s) ∧
    Unreadable r.fields i valid ∧ (p = ⟨0, 1, 0⟩ ↔ before = [])

theorem unreadable_of_append {left right : Row} (hleft : ∀ f ∈ left, ∃ text, IsText f text)
    (hfield : ∀ text, ¬IsText field text) (hvalid : TextLength field valid) :
    Unreadable (left ++ field :: right) left.length valid := by
  have hget : (left ++ field :: right)[left.length]? = some field := by simp
  refine ⟨⟨⟨field, hget, fun hutf8 => ?_⟩, ?_⟩, field, hget, hvalid⟩
  · obtain ⟨text, htext⟩ := exists_isText_iff.2 hutf8
    exact hfield text htext
  · rintro k ⟨f, hf, hutf8⟩
    by_contra hlt
    rw [List.getElem?_append_left (not_le.1 hlt)] at hf
    exact hutf8 (exists_isText_iff.1 (hleft f (List.mem_of_getElem? hf)))

/-- An error about a field is that of a field. -/
theorem Defect.unreadable {number : ℕ} (h : Defect number r (.encoding p i valid)) :
    p = r.start ∧ Unreadable r.fields i valid := by
  cases h with
  | encoding hfields hbefore hfield hvalid =>
    rw [hfields]
    exact ⟨rfl, unreadable_of_append hbefore hfield hvalid⟩
  | texts _ htexts => cases htexts

theorem line_end_of_endsAt {rows : List Row} (h : EndsAt bytes rows p) (hpos : 0 < p.byte) :
    ∃ b, bytes[p.byte - 1]? = some b ∧ isLineEnd b := by
  have hlt : p.byte - 1 < bytes.length := by
    have := h.byte_le
    omega
  refine ⟨_, List.getElem?_eq_getElem hlt, h.front.getLast _ ?_⟩
  rw [Option.mem_def, List.getLast?_eq_getElem?, List.length_take_of_le h.byte_le,
    List.getElem?_take_of_lt (by omega), List.getElem?_eq_getElem hlt]

/-- **An error about a field says where it is.** -/
theorem parse_locates (h : parse bytes = .error (.encoding p i valid)) :
    Locates bytes p i valid := by
  obtain ⟨before, r, after, hrecords, hbefore, hdefect⟩ := parse_eq_error.1 h
  obtain ⟨rfl, hunreadable⟩ := hdefect.unreadable
  obtain ⟨rows, hrows, hends, hlen⟩ := Csv.dataRecords_start hrecords
  refine ⟨⟨rows, hrows, hends, fun _ => hends.front.reads_iff⟩, line_end_of_endsAt hends,
    before, r, after, hrecords, ?_, hbefore, hunreadable, ?_⟩
  · rw [hends.records_eq, hlen]
    split_ifs with hnil
    · rw [hnil]
      rfl
    · omega
  · refine hends.eq_start_iff.trans ?_
    rw [← List.length_eq_zero_iff, hlen]
    by_cases hnil : before = []
    · rw [if_pos hnil]
      exact iff_of_true rfl hnil
    · rw [if_neg hnil]
      exact iff_of_false (Nat.succ_ne_zero _) hnil

/-- An error that can be computed is the one that is reported. -/
theorem parse_eq_encoding (bytes : List UInt8) (p : Position) (i valid : ℕ)
    (h : (match parse bytes with
      | .error (.encoding p' i' valid') => decide (p' = p ∧ i' = i ∧ valid' = valid)
      | _ => false) = true) : parse bytes = .error (.encoding p i valid) := by
  split at h
  · rename_i heq
    obtain ⟨rfl, rfl, rfl⟩ := of_decide_eq_true h
    exact heq
  · cases h

/-- A mark, a line feed between quotes, a line end of two bytes and a blank one. -/
theorem parse_locates_third :
    parse ([0xEF, 0xBB, 0xBF] ++ "\"a\nb\",c\r\n1,2,3,4,setosa\r\n\n5,6,".toUTF8.toList ++
        [0x37, 0xC3, 0x2C, 0x38]) = .error (.encoding ⟨2, 3, 27⟩ 2 1) ∧
      Locates ([0xEF, 0xBB, 0xBF] ++ "\"a\nb\",c\r\n1,2,3,4,setosa\r\n\n5,6,".toUTF8.toList ++
        [0x37, 0xC3, 0x2C, 0x38]) ⟨2, 3, 27⟩ 2 1 := by
  have h := parse_eq_encoding ([0xEF, 0xBB, 0xBF] ++
    "\"a\nb\",c\r\n1,2,3,4,setosa\r\n\n5,6,".toUTF8.toList ++ [0x37, 0xC3, 0x2C, 0x38])
    ⟨2, 3, 27⟩ 2 1 (by decide +kernel)
  exact ⟨h, parse_locates h⟩

end NearestNeighbors.Table
