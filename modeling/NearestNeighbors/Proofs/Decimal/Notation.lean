import NearestNeighbors.Decimal.Notation
import NearestNeighbors.Decimal.Numeral
import NearestNeighbors.Proofs.Decimal.Shortest

/-!
# A double is read back from its text

The text of a double is a sign, digits and a point, or a word. Taken as a numeral it
denotes the shortest decimal, digit by digit, and that one reads back.

* `parseDecimal?_withPoint`, `parseDecimal?_positional`: positional digits denote their
  decimal.
* `parse?_signed`: the sign in front.
* `parse?_plainText`: every double comes back, zeros and infinities with their sign.
* `plainText_inj`: so no two doubles have one text.
* `mem_plainText`: the characters that a text is made of.
-/

namespace NearestNeighbors

open Float.Model.UnpackedFloat
open Binary64

/-! ## Digits -/

namespace Numeral

theorem isDigit_eq (c : Char) : isDigit c = c.isDigit := rfl

theorem isDigit_of_mem_toDigits {n : ℕ} {c : Char} (h : c ∈ Nat.toDigits 10 n) : isDigit c := by
  rw [isDigit_eq]
  exact Nat.isDigit_of_mem_toDigits (by norm_num) le_rfl h

theorem ofDigits_eq (cs : List Char) : ofDigits cs = Nat.ofDigitChars 10 cs 0 := by
  rw [Nat.ofDigitChars_eq_foldl]
  rfl

theorem ofDigits_toDigits (n : ℕ) : ofDigits (Nat.toDigits 10 n) = n := by
  rw [ofDigits_eq]
  exact Nat.ofDigitChars_ten_toDigits

/-- Zeros in front do not count. -/
theorem ofDigits_replicate_append (k : ℕ) (cs : List Char) :
    ofDigits (List.replicate k '0' ++ cs) = ofDigits cs := by
  rw [ofDigits_eq, Nat.ofDigitChars_append, Nat.ofDigitChars_replicate_zero, Nat.mul_zero,
    ofDigits_eq]

/-- Zeros behind are factors of ten. -/
theorem ofDigits_append_replicate (cs : List Char) (k : ℕ) :
    ofDigits (cs ++ List.replicate k '0') = ofDigits cs * 10 ^ k := by
  rw [ofDigits_eq, Nat.ofDigitChars_append, Nat.ofDigitChars_replicate_zero, ofDigits_eq,
    Nat.mul_comm]

/-! ## Decimals -/

variable {cs whole fraction : List Char}

theorem takeWhile_isDigit (h : ∀ c ∈ cs, isDigit c) : cs.takeWhile isDigit = cs := by
  rw [List.takeWhile_eq_self_iff]
  exact h

theorem dropWhile_isDigit (h : ∀ c ∈ cs, isDigit c) : cs.dropWhile isDigit = [] := by
  rw [List.dropWhile_eq_nil_iff]
  exact h

/-- Digits alone are a whole number. -/
theorem parseDecimal?_digits (h : ∀ c ∈ cs, isDigit c) (hne : cs ≠ []) :
    parseDecimal? cs = some ⟨ofDigits cs, 0⟩ := by
  unfold parseDecimal?
  rw [takeWhile_isDigit h, dropWhile_isDigit h]
  simp [splitFraction, parseExponent?, hne]

/-- Digits with a point between them. -/
theorem parseDecimal?_point (hwhole : ∀ c ∈ whole, isDigit c) (hne : whole ≠ [])
    (hfraction : ∀ c ∈ fraction, isDigit c) :
    parseDecimal? (whole ++ '.' :: fraction) =
      some ⟨ofDigits (whole ++ fraction), -fraction.length⟩ := by
  have hpoint : isDigit '.' = false := rfl
  have htake : (whole ++ '.' :: fraction).takeWhile isDigit = whole := by
    rw [List.takeWhile_append_of_pos hwhole]
    simp [hpoint]
  have hdrop : (whole ++ '.' :: fraction).dropWhile isDigit = '.' :: fraction := by
    rw [List.dropWhile_append_of_pos hwhole]
    simp [hpoint]
  unfold parseDecimal?
  rw [htake, hdrop]
  simp only [splitFraction]
  rw [takeWhile_isDigit hfraction, dropWhile_isDigit hfraction]
  simp [parseExponent?, hne]

end Numeral

namespace Decimal

open Numeral

variable {cs : List Char} {places : ℕ} {d : Decimal}

/-- A point leaves the digits as they are, zeros in front apart. -/
theorem withPoint_cases (cs : List Char) (hne : cs ≠ []) (places : ℕ) :
    (places = 0 ∧ withPoint cs places = cs) ∨
      ∃ whole fraction k, withPoint cs places = whole ++ '.' :: fraction ∧
        whole ++ fraction = List.replicate k '0' ++ cs ∧ whole ≠ [] ∧
        fraction.length = places := by
  unfold withPoint
  split_ifs with h
  · exact .inl ⟨h, rfl⟩
  · refine .inr ⟨_, _, places + 1 - cs.length, rfl, List.take_append_drop _ _, ?_, ?_⟩
    · have hpos : 0 < cs.length := List.length_pos_iff.2 hne
      rw [← List.length_pos_iff, List.length_take, List.length_append, List.length_replicate]
      omega
    · rw [List.length_drop, List.length_append, List.length_replicate]
      omega

theorem parseDecimal?_withPoint (h : ∀ c ∈ cs, isDigit c) (hne : cs ≠ []) :
    parseDecimal? (withPoint cs places) = some ⟨ofDigits cs, -places⟩ := by
  rcases withPoint_cases cs hne places with
    ⟨hzero, heq⟩ | ⟨whole, fraction, k, heq, happend, hwhole, hlen⟩
  · rw [heq, parseDecimal?_digits h hne, hzero]
    rfl
  · have hall : ∀ c ∈ whole ++ fraction, isDigit c := by
      intro c hc
      rw [happend, List.mem_append, List.mem_replicate] at hc
      rcases hc with ⟨-, rfl⟩ | hc
      · rfl
      · exact h c hc
    have hleft : ∀ c ∈ whole, isDigit c := fun c hc => hall c (List.mem_append_left _ hc)
    have hright : ∀ c ∈ fraction, isDigit c := fun c hc => hall c (List.mem_append_right _ hc)
    rw [heq, parseDecimal?_point hleft hwhole hright, happend, ofDigits_replicate_append, hlen]

theorem isDigit_of_mem_digits (d : Decimal) :
    ∀ c ∈ Nat.toDigits 10 d.digits ++ List.replicate d.exponent.toNat '0', isDigit c := by
  intro c hc
  rw [List.mem_append, List.mem_replicate] at hc
  rcases hc with hc | ⟨-, rfl⟩
  · exact isDigit_of_mem_toDigits hc
  · rfl

theorem digits_ne_nil (d : Decimal) :
    Nat.toDigits 10 d.digits ++ List.replicate d.exponent.toNat '0' ≠ [] :=
  List.append_ne_nil_of_left_ne_nil Nat.toDigits_ne_nil _

/-- **Positional digits denote their decimal.** -/
theorem parseDecimal?_positional (d : Decimal) :
    ∃ d', parseDecimal? d.positional = some d' ∧ d'.value = d.value := by
  refine ⟨_, parseDecimal?_withPoint (isDigit_of_mem_digits d) (digits_ne_nil d), ?_⟩
  unfold value
  dsimp only
  rw [ofDigits_append_replicate, ofDigits_toDigits]
  push_cast
  rw [mul_assoc, ← zpow_natCast, ← zpow_add₀ (by norm_num)]
  congr 2
  omega

/-- The digits of a decimal start with one. -/
theorem positional_eq_cons (d : Decimal) : ∃ c cs, d.positional = c :: cs ∧ isDigit c := by
  have hdigits : ∀ c ∈ Nat.toDigits 10 d.digits ++ List.replicate d.exponent.toNat '0',
      isDigit c := isDigit_of_mem_digits d
  have hne := digits_ne_nil d
  unfold positional
  rcases withPoint_cases _ hne (-d.exponent).toNat with
    ⟨-, heq⟩ | ⟨whole, fraction, k, heq, happend, hwhole, -⟩
  · rw [heq]
    obtain ⟨c, cs, hcs⟩ := List.exists_cons_of_ne_nil hne
    rw [hcs] at hdigits ⊢
    exact ⟨c, cs, rfl, hdigits c List.mem_cons_self⟩
  · rw [heq]
    obtain ⟨c, cs, rfl⟩ := List.exists_cons_of_ne_nil hwhole
    refine ⟨c, cs ++ '.' :: fraction, rfl, ?_⟩
    have hmem : c ∈ List.replicate k '0' ++
        (Nat.toDigits 10 d.digits ++ List.replicate d.exponent.toNat '0') := by
      rw [← happend]
      exact List.mem_append_left _ List.mem_cons_self
    rw [List.mem_append, List.mem_replicate] at hmem
    rcases hmem with ⟨-, rfl⟩ | hmem
    · rfl
    · exact hdigits c hmem

end Decimal

/-! ## Signs and words -/

namespace Numeral

open Decimal (signed plainText plain textWith shortest)

variable {c : Char} {cs : List Char} {q : Quantity} {s : Sign} {x : Float}

/-- Whether a sign is a minus. -/
def isMinus : Sign → Bool
  | .negative => true
  | .positive => false

/-- A double with the given sign for its own. -/
def withSign : Sign → Float.Model.UnpackedFloat → Float.Model.UnpackedFloat
  | .negative, x => x.neg
  | .positive, x => x

/-- A sign in front is taken off. -/
theorem parse?_signed (s : Sign) (h : splitSign cs = (false, cs)) (hword : parseWord? cs = none) :
    parse? (signed s cs) =
      (parseDecimal? cs).map fun value => ⟨isMinus s, .decimal value⟩ := by
  have hsplit : splitSign (signed s cs).toList = (isMinus s, cs) := by
    cases s with
    | negative =>
      show splitSign (String.ofList ('-' :: cs)).toList = _
      rw [String.toList_ofList]
      rfl
    | positive =>
      show splitSign (String.ofList cs).toList = _
      rw [String.toList_ofList]
      exact h
  simp only [parse?, hsplit, hword]

theorem splitSign_digit (h : isDigit c) : splitSign (c :: cs) = (false, c :: cs) := by
  unfold splitSign
  split
  · rename_i heq
    cases heq
    cases h
  · rename_i heq
    cases heq
    cases h
  · rfl

theorem toLower_digit (h : isDigit c) : c.toLower = c := by
  unfold isDigit at h
  rw [Bool.and_eq_true, decide_eq_true_eq, decide_eq_true_eq] at h
  have hle : c.val ≤ '9'.val := h.2
  unfold Char.toLower
  rw [dif_neg]
  intro hge
  have hlt : 'A'.val ≤ '9'.val := UInt32.le_trans hge.1 hle
  exact absurd hlt (by decide)

/-- No word starts with a digit. -/
theorem parseWord?_digit (h : isDigit c) : parseWord? (c :: cs) = none := by
  have hinf : "inf".toList = ['i', 'n', 'f'] := rfl
  have hinfinity : "infinity".toList = ['i', 'n', 'f', 'i', 'n', 'i', 't', 'y'] := rfl
  have hnan : "nan".toList = ['n', 'a', 'n'] := rfl
  have hi : c ≠ 'i' := by
    rintro rfl
    cases h
  have hn : c ≠ 'n' := by
    rintro rfl
    cases h
  unfold parseWord?
  simp only [List.map_cons, toLower_digit h, hinf, hinfinity, hnan, List.cons.injEq, hi, hn,
    false_and, or_self, if_false]

theorem unpack_toFloat_signed (s : Sign) (q : Quantity) :
    (toFloat ⟨isMinus s, q⟩).toModel.unpack = withSign s q.toFloat.toModel.unpack := by
  cases s with
  | negative => exact unpack_neg q.toFloat
  | positive => rfl

/-- The word for an infinity. -/
theorem parse?_inf (s : Sign) : parse? (signed s "inf".toList) = some ⟨isMinus s, .infinity⟩ := by
  cases s <;> rfl

/-- **A double is read back from its text.** -/
theorem parse?_plainText (x : Float) : ∃ n, parse? (plainText x) = some n ∧ n.toFloat = x := by
  unfold plainText textWith
  cases hx : x.toModel.unpack with
  | notANumber => exact ⟨⟨false, .notANumber⟩, rfl, eq_of_unpack_eq (hx ▸ rfl)⟩
  | infinity s =>
    refine ⟨_, parse?_inf s, eq_of_unpack_eq ?_⟩
    rw [unpack_toFloat_signed, hx]
    cases s <;> rfl
  | zero s =>
    refine ⟨⟨isMinus s, .decimal ⟨0, 0⟩⟩, ?_, eq_of_unpack_eq ?_⟩
    · cases s <;> rfl
    · rw [unpack_toFloat_signed, hx]
      cases s <;> rfl
  | finite s m e h =>
    obtain ⟨d, hd, hvalue⟩ := Decimal.parseDecimal?_positional (shortest ⟨m, e⟩)
    obtain ⟨c, cs, hcs, hc⟩ := Decimal.positional_eq_cons (shortest ⟨m, e⟩)
    have hplain : plain ⟨m, e⟩ = (shortest ⟨m, e⟩).positional := if_neg h.ne'
    refine ⟨⟨isMinus s, .decimal d⟩, ?_, eq_of_unpack_eq ?_⟩
    · dsimp only
      rw [hplain, parse?_signed s (hcs ▸ splitSign_digit hc) (hcs ▸ parseWord?_digit hc), hd]
      rfl
    · have hread : (Quantity.decimal d).toFloat = (shortest ⟨m, e⟩).toFloat :=
        Decimal.toFloat_congr hvalue
      rw [unpack_toFloat_signed, hread, Decimal.toFloat_shortest hx, hx]
      cases s <;> rfl

end Numeral

namespace Decimal

open Numeral (isDigit)

variable {c : Char} {cs : List Char} {x : Float}

/-- Doubles with one text are equal: there is one NaN, and a zero shows its sign. -/
theorem plainText_inj {y : Float} : plainText x = plainText y ↔ x = y := by
  refine ⟨fun h => ?_, congrArg plainText⟩
  obtain ⟨n, hn, rfl⟩ := Numeral.parse?_plainText x
  obtain ⟨n', hn', rfl⟩ := Numeral.parse?_plainText y
  rw [h, hn', Option.some.injEq] at hn
  rw [hn]

/-- The characters of numbers and words, without a plus. -/
def IsNumeric (c : Char) : Prop := c.isAlphanum ∨ c = '-' ∨ c = '.'

theorem isNumeric_of_isDigit (h : isDigit c) : IsNumeric c := by
  refine .inl ?_
  unfold Char.isAlphanum
  rw [Bool.or_eq_true]
  exact .inr h

theorem mem_withPoint {places : ℕ} (hcs : ∀ c ∈ cs, isDigit c) (hne : cs ≠ [])
    (h : c ∈ withPoint cs places) : IsNumeric c := by
  rcases withPoint_cases cs hne places with ⟨-, heq⟩ | ⟨whole, fraction, k, heq, happend, -⟩
  · rw [heq] at h
    exact isNumeric_of_isDigit (hcs c h)
  · have hdigits : ∀ c ∈ whole ++ fraction, IsNumeric c := by
      intro c hc
      rw [happend, List.mem_append, List.mem_replicate] at hc
      rcases hc with ⟨-, rfl⟩ | hc
      · exact isNumeric_of_isDigit rfl
      · exact isNumeric_of_isDigit (hcs c hc)
    rw [heq, List.mem_append, List.mem_cons] at h
    rcases h with h | rfl | h
    · exact hdigits c (List.mem_append_left _ h)
    · exact .inr (.inr rfl)
    · exact hdigits c (List.mem_append_right _ h)

theorem mem_plain {a : Magnitude} (h : c ∈ plain a) : IsNumeric c := by
  unfold plain at h
  split_ifs at h
  · rw [List.mem_singleton] at h
    exact h ▸ isNumeric_of_isDigit rfl
  · exact mem_withPoint (isDigit_of_mem_digits _) (digits_ne_nil _) h

theorem mem_signed {s : Sign} (hcs : ∀ c ∈ cs, IsNumeric c) (h : c ∈ (signed s cs).toList) :
    IsNumeric c := by
  cases s with
  | negative =>
    simp only [signed, String.toList_ofList, List.mem_cons] at h
    rcases h with rfl | h
    · exact .inr (.inl rfl)
    · exact hcs c h
  | positive =>
    simp only [signed, String.toList_ofList] at h
    exact hcs c h

/-- The text of a double has no character that a table could take for something else. -/
theorem mem_plainText (h : c ∈ (plainText x).toList) : IsNumeric c := by
  have hinf : ∀ c ∈ "inf".toList, IsNumeric c := by
    intro c hc
    exact .inl (List.all_eq_true.1 (by decide : "inf".toList.all Char.isAlphanum) c hc)
  have hnan : ∀ c ∈ "NaN".toList, IsNumeric c := by
    intro c hc
    exact .inl (List.all_eq_true.1 (by decide : "NaN".toList.all Char.isAlphanum) c hc)
  unfold plainText textWith at h
  cases hx : x.toModel.unpack with
  | notANumber =>
    rw [hx] at h
    exact hnan c h
  | infinity s =>
    rw [hx] at h
    exact mem_signed hinf h
  | zero s =>
    rw [hx] at h
    exact mem_signed (fun _ => mem_plain) h
  | finite s m e hm =>
    rw [hx] at h
    exact mem_signed (fun _ => mem_plain) h

end Decimal

end NearestNeighbors
