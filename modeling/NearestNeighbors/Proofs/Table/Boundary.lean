import Mathlib
import NearestNeighbors.Proofs.Csv.Boundary
import NearestNeighbors.Proofs.Table.Reader

/-!
# Reading a table in two parts

A table that is cut in front of a record is read as its two parts are, each behind the
header: the samples come one after another, and an error comes from the first part that
has one. Behind the cut only the numbers of the records go on.

* `Later`: an error as it is some records further on.
* `Defect.later`: a defect further on in a table.
* `parse_append` (every header and cut): the three cases.
-/

namespace NearestNeighbors.Table

open Csv (Record dataRecords HoldsHeader readerAfter)

/-- **An error `k` records further on.** Record numbers go up by `k`; an encoding error keeps
its field and the length of the valid part. -/
inductive Later (k : ℕ) : Error → Error → Prop where
  | encoding (p p' : Csv.Position) (field valid : ℕ) :
    Later k (.encoding p field valid) (.encoding p' field valid)
  | fieldCount (record expected found : ℕ) :
    Later k (.fieldCount record expected found) (.fieldCount (k + record) expected found)
  | invalidNumber (record : ℕ) (text : String) :
    Later k (.invalidNumber record text) (.invalidNumber (k + record) text)
  | unknownSpecies (name : String) : Later k (.unknownSpecies name) (.unknownSpecies name)

variable {k number : ℕ} {r r' : Record} {e : Error} {texts : List String}
  {h a b bytes : List UInt8} {xs ys : List Sample}

theorem TextDefect.later (k : ℕ) (hdefect : TextDefect number texts e) :
    ∃ e', TextDefect (k + number) texts e' ∧ Later k e e' := by
  cases hdefect with
  | fieldCount hlen => exact ⟨_, .fieldCount hlen, .fieldCount _ _ _⟩
  | invalidNumber htexts hlen hbefore htext =>
    exact ⟨_, .invalidNumber htexts hlen hbefore htext, .invalidNumber _ _⟩
  | unknownSpecies htexts hlen hnumbers hname =>
    exact ⟨_, .unknownSpecies htexts hlen hnumbers hname, .unknownSpecies _⟩

/-- The defect of a record, `k` records further on and read from elsewhere. -/
theorem Defect.later (k : ℕ) (hdefect : Defect number r e) (hfields : r'.fields = r.fields) :
    ∃ e', Defect (k + number) r' e' ∧ Later k e e' := by
  cases hdefect with
  | encoding h hbefore hfield hvalid =>
    exact ⟨_, .encoding (hfields.trans h) hbefore hfield hvalid, .encoding _ _ _ _⟩
  | texts h htexts =>
    obtain ⟨e', htexts', hlater⟩ := htexts.later k
    exact ⟨e', .texts (hfields.symm ▸ h) htexts', hlater⟩

/-- An error stays what it is, whatever follows. -/
theorem parse_append_error {more : List Record} (ha : parse a = .error e)
    (hrecords : dataRecords bytes = dataRecords a ++ more) : parse bytes = .error e := by
  obtain ⟨before, r, after, hsplit, hbefore, hdefect⟩ := parse_eq_error.1 ha
  refine parse_eq_error.2 ⟨before, r, after ++ more, ?_, hbefore, hdefect⟩
  rw [hrecords, hsplit, List.append_assoc]
  rfl

/-- Samples go before samples. -/
theorem parse_append_ok {more : List Record} (ha : parse a = .ok xs) (hb : parse b = .ok ys)
    (hrecords : dataRecords bytes = dataRecords a ++ more)
    (hmore : more.map Record.fields = (dataRecords b).map Record.fields) :
    parse bytes = .ok (xs ++ ys) := by
  rw [parse_eq_ok, hrecords, List.map_append, hmore]
  exact List.rel_append (parse_eq_ok.1 ha) (parse_eq_ok.1 hb)

theorem exists_of_forall₂ {α β : Type} {R : α → β → Prop} {l : List α} {l' : List β}
    (hall : List.Forall₂ R l l') {x : α} (hx : x ∈ l) : ∃ y, R x y := by
  induction hall with
  | nil => cases hx
  | @cons x' y _ _ hxy _ ih =>
    rcases List.mem_cons.1 hx with rfl | hx
    · exact ⟨y, hxy⟩
    · exact ih hx

/-- An error behind samples is further on by as many records. -/
theorem parse_append_later {more : List Record} (ha : parse a = .ok xs) (hb : parse b = .error e)
    (hrecords : dataRecords bytes = dataRecords a ++ more)
    (hmore : more.map Record.fields = (dataRecords b).map Record.fields) :
    ∃ e', parse bytes = .error e' ∧ Later xs.length e e' := by
  have hall := parse_eq_ok.1 ha
  have hlen : (dataRecords a).length = xs.length := by
    rw [← hall.length_eq, List.length_map]
  obtain ⟨before, r, after, hsplit, hbefore, hdefect⟩ := parse_eq_error.1 hb
  rw [hsplit, List.map_append, List.map_cons] at hmore
  obtain ⟨before', rest, rfl, hbefore', hrest⟩ := List.map_eq_append_iff.1 hmore
  obtain ⟨r', after', rfl, hr', -⟩ := List.map_eq_cons_iff.1 hrest
  obtain ⟨e', hdefect', hlater⟩ := hdefect.later xs.length hr'
  refine ⟨e', parse_eq_error.2 ⟨dataRecords a ++ before', r', after', ?_, ?_, ?_⟩, hlater⟩
  · rw [hrecords, List.append_assoc]
  · intro x hx
    rcases List.mem_append.1 hx with hx | hx
    · exact exists_of_forall₂ hall (List.mem_map_of_mem hx)
    · have hmem : x.fields ∈ before.map Record.fields := hbefore' ▸ List.mem_map_of_mem hx
      obtain ⟨y, hy, heq⟩ := List.mem_map.1 hmem
      rw [← heq]
      exact hbefore y hy
  · have hlen' := congrArg List.length hbefore'
    rw [List.length_map, List.length_map] at hlen'
    rw [List.length_append, hlen, hlen', Nat.add_assoc]
    exact hdefect'

/-- **Reading is compositional in front of records.** An error in front of the cut is the error
of the whole. Samples in front of it are followed by the samples behind it, or by the error
behind it, which is further on by as many records. -/
theorem parse_append (hh : HoldsHeader h) (hcut : (readerAfter (h ++ a)).mode = .recordStart)
    (b : List UInt8) :
    (∀ e, parse (h ++ a) = .error e → parse (h ++ a ++ b) = .error e) ∧
    (∀ xs ys, parse (h ++ a) = .ok xs → parse (h ++ b) = .ok ys →
      parse (h ++ a ++ b) = .ok (xs ++ ys)) ∧
    ∀ xs e, parse (h ++ a) = .ok xs → parse (h ++ b) = .error e →
      ∃ e', parse (h ++ a ++ b) = .error e' ∧ Later xs.length e e' := by
  obtain ⟨more, hrecords, hmore⟩ := Csv.dataRecords_append hh hcut b
  refine ⟨fun e ha => ?_, fun xs ys ha hb => ?_, fun xs e ha hb => ?_⟩
  · exact parse_append_error ha hrecords
  · exact parse_append_ok ha hb hrecords hmore
  · exact parse_append_later ha hb hrecords hmore

/-- A line whose end is cut in two. -/
theorem parse_append_crlf :
    HoldsHeader "a,b,c,d,e\n".toUTF8.toList ∧
      ∃ xs, Table.parse ("a,b,c,d,e\n".toUTF8.toList ++ "7,3,4.7,1.4,versicolor\r".toUTF8.toList ++
        "\n6,3,5,2,virginica".toUTF8.toList) = .ok xs ∧ xs.map Sample.label = [1, 2] := by
  have hh : HoldsHeader "a,b,c,d,e\n".toUTF8.toList := ⟨by decide +kernel, by decide +kernel⟩
  have hparts := parse_append (a := "7,3,4.7,1.4,versicolor\r".toUTF8.toList) hh
    (by decide +kernel) "\n6,3,5,2,virginica".toUTF8.toList
  obtain ⟨xs, ha, hxs⟩ := exists_parse_of_labels ("a,b,c,d,e\n".toUTF8.toList ++
    "7,3,4.7,1.4,versicolor\r".toUTF8.toList) [1] (by decide +kernel)
  obtain ⟨ys, hb, hys⟩ := exists_parse_of_labels ("a,b,c,d,e\n".toUTF8.toList ++
    "\n6,3,5,2,virginica".toUTF8.toList) [2] (by decide +kernel)
  refine ⟨hh, xs ++ ys, hparts.2.1 xs ys ha hb, ?_⟩
  rw [List.map_append, hxs, hys]
  rfl

end NearestNeighbors.Table
