import NearestNeighbors.Error
import NearestNeighbors.Proofs.Decimal.Notation

/-!
# The text of an error tells the error

A text is made of fixed words, of numbers between them, and of what it quotes: a text out
of a table between quotes, or a double behind a comma. The words in front of the first
quote or comma tell what kind of error it is, and nothing that is quoted can change them.
Within one kind the numbers are read off from left to right, since each ends where its
digits end, and a quotation is what remains between the words on both sides of it.

* `number_append_inj`: where a number ends.
* `wordsOf_message`: the words of each kind of error.
* `Error.eq_of_wording_eq`: errors of one kind.
* `Error.message_inj`: errors with one text are equal.
-/

namespace NearestNeighbors

open Numeral (isDigit)

variable {n n' : ℕ} {s s' w : String}

/-! ## Numbers -/

theorem isDigit_of_mem_repr {c : Char} (h : c ∈ n.repr.toList) : isDigit c := by
  rw [Nat.toList_repr] at h
  exact Numeral.isDigit_of_mem_toDigits h

/-- Words that can stand behind a number, because they do not go on with a digit. -/
def opensWord (w : String) : Bool := w.toList.head?.any fun c => !isDigit c

theorem takeWhile_number_append (h : opensWord w) :
    (n.repr ++ (w ++ s)).toList.takeWhile isDigit = n.repr.toList := by
  rw [String.toList_append, String.toList_append,
    List.takeWhile_append_of_pos fun _ => isDigit_of_mem_repr]
  unfold opensWord at h
  cases hw : w.toList with
  | nil => simp [hw] at h
  | cons c cs => simp_all

/-- **A number ends where its digits end**, so it can be told from the words behind it. -/
theorem number_append_inj (h : opensWord w) :
    n.repr ++ (w ++ s) = n'.repr ++ (w ++ s') ↔ n = n' ∧ s = s' := by
  constructor
  · intro heq
    have hdigits : n.repr.toList = n'.repr.toList := by
      rw [← takeWhile_number_append h, heq, takeWhile_number_append h]
    have hn : n = n' := Nat.repr_inj.1 (String.toList_inj.1 hdigits)
    rw [hn, String.append_right_inj, String.append_right_inj] at heq
    exact ⟨hn, heq⟩
  · rintro ⟨rfl, rfl⟩
    rfl

/-! ## Kinds of errors -/

/-- A mark that quotations stand behind. -/
def isMark (c : Char) : Bool := c = '\'' || c = ','

/-- The words of a text in front of its first mark. Digits are left out. -/
def wordsOf (text : String) : List Char :=
  (text.toList.takeWhile fun c => !isMark c).filter fun c => !isDigit c

theorem wordsOf_append (h : w.toList.all fun c => !isMark c) :
    wordsOf (w ++ s) = wordsOf w ++ wordsOf s := by
  have hw : ∀ c ∈ w.toList, (!isMark c) = true := List.all_eq_true.1 h
  unfold wordsOf
  rw [String.toList_append, List.takeWhile_append_of_pos hw, List.filter_append,
    List.takeWhile_eq_self_iff.2 hw]

/-- What stands behind a mark does not matter. -/
theorem wordsOf_append_of_mark (h : w.toList.any isMark) : wordsOf (w ++ s) = wordsOf w := by
  unfold wordsOf
  rw [String.toList_append, List.takeWhile_append, if_neg]
  intro hlen
  have hall := List.takeWhile_eq_self_iff.1 ((List.takeWhile_prefix _).eq_of_length hlen)
  obtain ⟨c, hc, hmark⟩ := List.any_eq_true.1 h
  have hplain := hall c hc
  simp [hmark] at hplain

theorem isMark_of_isDigit {c : Char} (h : isDigit c) : isMark c = false := by
  unfold isMark
  rw [Bool.or_eq_false_iff, decide_eq_false_iff_not, decide_eq_false_iff_not]
  constructor
  · rintro rfl
    cases h
  · rintro rfl
    cases h

/-- Numbers do not matter either. -/
theorem wordsOf_number_append : wordsOf (n.repr ++ s) = wordsOf s := by
  have hplain : n.repr.toList.all fun c => !isMark c := by
    simpa using fun c hc => isMark_of_isDigit (isDigit_of_mem_repr hc)
  have hnone : wordsOf n.repr = [] := by
    unfold wordsOf
    rw [List.filter_eq_nil_iff]
    intro c hc
    have hdigit := isDigit_of_mem_repr ((List.takeWhile_sublist _).mem hc)
    simp [hdigit]
  rw [wordsOf_append hplain, hnone, List.nil_append]

namespace Error

/-- The words of each kind of error in front of the first mark. -/
def wording : Error → String
  | .encoding .. => "CSV parse error: record  (line "
  | .unknownSpecies _ => "unexpected species "
  | .fieldCount .. => "record : expected  fields"
  | .invalidNumber .. => "record : "
  | .invalidTestFraction _ => "test fraction must be in ("
  | .degenerateSplit .. => "split of  samples leaves  train and  test samples"
  | .lengthMismatch .. => " feature rows but  labels"
  | .dimensionMismatch .. => "expected  features"
  | .invalidNeighbors .. => "cannot use  neighbors with  training samples"
  | .empty => "empty sample set"
  | .notFitted => "model is not fitted"

/-- **The words of a text tell the kind of the error**, whatever the text quotes. -/
theorem wordsOf_message (e : Error) : wordsOf e.message = e.wording.toList := by
  unfold message
  cases e with
  | empty => rfl
  | notFitted => rfl
  | _ =>
    -- piece by piece from the left, up to the first words that hold a mark
    simp (disch := decide) only [toString, String.append_assoc, wordsOf_append,
      wordsOf_append_of_mark, wordsOf_number_append, wording]
    decide

example : wordsOf (Error.invalidNumber 12 "0' is not a number\nrecord 3").message =
    "record : ".toList := by
  decide

/-! ## Errors of one kind -/

variable {e e' : Error}

/-- **Errors of one kind** with one text are equal. -/
theorem eq_of_wording_eq (hkind : e.wording = e'.wording) (h : e.message = e'.message) :
    e = e' := by
  unfold message at h
  -- kinds with different words are not equal
  cases e <;> cases e' <;> simp [wording] at hkind
  case encoding.encoding p field valid p' field' valid' =>
    obtain ⟨records, line, byte⟩ := p
    obtain ⟨records', line', byte'⟩ := p'
    simp (disch := decide) only [toString, String.append_assoc, String.append_right_inj,
      number_append_inj, Nat.repr_inj] at h
    -- the field is given twice
    obtain ⟨rfl, rfl, rfl, rfl, -, rfl⟩ := h
    rfl
  case unknownSpecies.unknownSpecies name name' =>
    simpa [toString] using h
  case invalidTestFraction.invalidTestFraction fraction fraction' =>
    simpa [toString, Decimal.plainText_inj] using h
  case empty.empty => rfl
  case notFitted.notFitted => rfl
  -- numbers between words go from the left, and words behind a quotation from the right
  all_goals simpa (disch := decide) [toString, String.append_assoc, number_append_inj] using h

/-- **An error is told by its text**: errors with one text are of one kind and hold the same
numbers, positions and texts, and the same double, zeros told apart by their sign. -/
theorem message_inj : e.message = e'.message ↔ e = e' := by
  refine ⟨fun h => eq_of_wording_eq ?_ h, congrArg message⟩
  have hwords : e.wording.toList = e'.wording.toList := by
    rw [← wordsOf_message, h, wordsOf_message]
  exact String.toList_inj.1 hwords

end Error

end NearestNeighbors
