import Mathlib
import NearestNeighbors.Proofs.Csv.Reader

/-!
# Cutting an input between two records

A reader in front of a record holds the records it has read and nothing else. What comes
after it is read as it would be after any other such reader; only the positions that are
kept with the records differ.

* `State.records_run`: no record is taken back.
* `State.finish_run`: the rest of an input, from in front of a record.
* `readerAfter_append`: a cut behind the first record.
* `HoldsHeader`: what a header leaves behind.
* `dataRecords_append`: records before and after a cut.
-/

namespace NearestNeighbors.Csv

variable {s : State} {a b h bytes : List UInt8} {rows : List Row}

namespace State

/-- At most one record is added by a byte. -/
def Adds (s t : State) : Prop := t.records = s.records ∨ ∃ r, t.records = s.records.push r

theorem adds_outside (s : State) (b : UInt8) : s.Adds (s.outside b) := by
  unfold outside
  split_ifs
  · exact .inl rfl
  · exact .inr ⟨_, rfl⟩
  · exact .inl rfl

theorem adds_opening (s : State) (b : UInt8) : s.Adds (s.opening b) := by
  unfold opening
  split_ifs
  · exact .inl rfl
  · exact adds_outside s b

theorem adds_act (s : State) (b : UInt8) : s.Adds (s.act b) := by
  unfold act
  cases s.mode with
  | recordStart =>
    dsimp only
    split_ifs
    · exact .inl rfl
    · exact adds_opening s b
  | fieldStart => exact adds_opening s b
  | bare => exact adds_outside s b
  | quoted =>
    dsimp only
    split_ifs
    · exact .inl rfl
    · exact .inl rfl
  | quoteEnd =>
    dsimp only
    split_ifs
    · exact .inl rfl
    · exact adds_outside s b

theorem adds_step (s : State) (b : UInt8) : s.Adds (s.step b) := adds_act (s.count b) b

/-- No record is taken back. -/
theorem records_run (s : State) (bytes : List UInt8) :
    s.records.toList <+: (s.run bytes).records.toList := by
  induction bytes generalizing s with
  | nil => exact List.prefix_rfl
  | cons b bytes ih =>
    refine List.IsPrefix.trans ?_ (ih (s.step b))
    rcases adds_step s b with h | ⟨r, h⟩
    · rw [h]
    · rw [h, Array.toList_push]
      exact List.prefix_append _ _

theorem records_finish (s : State) : s.records.toList <+: s.finish := by
  unfold finish
  split_ifs
  · exact List.prefix_rfl
  · rw [endRecord, Array.toList_push]
    exact List.prefix_append _ _

/-- **From in front of a record**, an input adds the records of its rows. -/
theorem finish_run (hs : s.Clean) (hmode : s.mode = .recordStart) (hbytes : Rows bytes rows) :
    ∃ more, (s.run bytes).finish = s.records.toList ++ more ∧ more.map Record.fields = rows := by
  obtain ⟨more, hmore⟩ := (records_run s bytes).trans (records_finish (s.run bytes))
  have hfields := (hs.at hmode).rest hbytes
  rw [← hmore, List.map_append] at hfields
  exact ⟨more, hmore.symm, List.append_cancel_left hfields⟩

end State

/-- A mark is not a record, nor is a part of one. -/
theorem records_of_prefix_mark (h : bytes <+: mark) : (readerAfter bytes).records = #[] := by
  have hinits : mark.inits = [[], [0xEF], [0xEF, 0xBB], [0xEF, 0xBB, 0xBF]] := rfl
  rw [← List.mem_inits, hinits] at h
  simp only [List.mem_cons, List.not_mem_nil, or_false] at h
  rcases h with rfl | rfl | rfl | rfl <;> rfl

/-- **A cut behind a record**: the reader goes on from where it is. -/
theorem readerAfter_append (hh : (readerAfter h).records ≠ #[]) (a : List UInt8) :
    readerAfter (h ++ a) = (readerAfter h).run a := by
  unfold readerAfter
  rcases opened_cases h with ⟨rest, rfl, heq⟩ | ⟨hmark, heq⟩
  · rw [heq, ← State.run_append]
    rfl
  · rcases opened_cases (h ++ a) with ⟨rest, hrest, -⟩ | ⟨-, heq'⟩
    · rcases List.prefix_or_prefix_of_prefix (List.prefix_append mark rest)
        (hrest ▸ List.prefix_append h a) with hm | hm
      · exact absurd hm hmark
      · exact absurd (records_of_prefix_mark hm) hh
    · rw [heq, heq', ← State.run_append]

/-- **A header**: one record with its line end. -/
structure HoldsHeader (h : List UInt8) : Prop where
  mode_eq : (readerAfter h).mode = .recordStart
  size_eq : (readerAfter h).records.size = 1

theorem HoldsHeader.records_ne (hh : HoldsHeader h) : (readerAfter h).records ≠ #[] := by
  intro hnil
  have hsize := hh.size_eq
  rw [hnil] at hsize
  cases hsize

theorem HoldsHeader.exists_header (hh : HoldsHeader h) :
    ∃ header, (readerAfter h).records.toList = [header] := by
  rw [← List.length_eq_one_iff, Array.length_toList]
  exact hh.size_eq

/-- The rows after a header are the rows of what follows it. -/
theorem HoldsHeader.readAll (hh : HoldsHeader h) {header : Record}
    (hheader : (readerAfter h).records.toList = [header]) (hbytes : Rows bytes rows) :
    ∃ more, readAll (h ++ bytes) = header :: more ∧ more.map Record.fields = rows := by
  unfold Csv.readAll
  rw [readerAfter_append hh.records_ne]
  have hrun := State.finish_run (readerAfter_clean h) hh.mode_eq hbytes
  rw [hheader] at hrun
  exact hrun

/-- Records as they come behind a header: the reading of the first began where that of the
header did. -/
def behind (header : Record) : List Record → List Record
  | [] => []
  | first :: rest => { first with start := header.start } :: rest

variable {header : Record} {before more records : List Record}

theorem dataRecords_of_readAll (hall : Csv.readAll bytes = header :: records) :
    dataRecords bytes = behind header records := by
  unfold dataRecords
  rw [hall]
  cases records with
  | nil => rfl
  | cons first rest => rfl

theorem behind_fields : (behind header records).map Record.fields = records.map Record.fields := by
  cases records with
  | nil => rfl
  | cons first rest => rfl

theorem behind_append : ∃ more', behind header (before ++ more) = behind header before ++ more' ∧
    more'.map Record.fields = more.map Record.fields := by
  cases before with
  | nil => exact ⟨behind header more, rfl, behind_fields⟩
  | cons first before => exact ⟨more, rfl, rfl⟩

theorem HoldsHeader.dataRecords_fields (hh : HoldsHeader h) (hbytes : Rows bytes rows) :
    (dataRecords (h ++ bytes)).map Record.fields = rows := by
  obtain ⟨header, hheader⟩ := hh.exists_header
  obtain ⟨more, hall, hmore⟩ := hh.readAll hheader hbytes
  rw [dataRecords_of_readAll hall, behind_fields, hmore]

/-- **A cut in front of a record**: the records before it stay as they are, and those after
it have the fields that they would have right after the header. -/
theorem dataRecords_append (hh : HoldsHeader h)
    (hcut : (readerAfter (h ++ a)).mode = .recordStart) (b : List UInt8) :
    ∃ more, dataRecords (h ++ a ++ b) = dataRecords (h ++ a) ++ more ∧
      more.map Record.fields = (dataRecords (h ++ b)).map Record.fields := by
  obtain ⟨header, hheader⟩ := hh.exists_header
  obtain ⟨rows, hrows⟩ := exists_rows b
  -- the records up to the cut start with the header
  obtain ⟨before, hbefore⟩ : [header] <+: (readerAfter (h ++ a)).records.toList := by
    rw [← hheader, readerAfter_append hh.records_ne]
    exact State.records_run _ a
  have hne : (readerAfter (h ++ a)).records ≠ #[] := by
    intro hnil
    rw [hnil] at hbefore
    cases hbefore
  have hall : Csv.readAll (h ++ a) = header :: before := by
    unfold Csv.readAll State.finish
    rw [if_pos hcut, ← hbefore]
    rfl
  obtain ⟨more, hmore, hfields⟩ := State.finish_run (readerAfter_clean (h ++ a)) hcut hrows
  have hwhole : Csv.readAll (h ++ a ++ b) = header :: (before ++ more) := by
    unfold Csv.readAll
    rw [readerAfter_append hne, hmore, ← hbefore]
    rfl
  rw [hh.dataRecords_fields hrows, ← hfields, dataRecords_of_readAll hall,
    dataRecords_of_readAll hwhole]
  exact behind_append

end NearestNeighbors.Csv
