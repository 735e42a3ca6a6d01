import Mathlib

/-!
# Rounding to the last place

A double keeps the first 53 places of a number, and none after `2 ^ -1074`. Rounding
divides the mantissa by a power of two, to the nearest natural number and a half to the
even one; when this makes one place too many, that place is a zero and is dropped too.

* `roundShift`: the rounded quotient; `roundedMantissa_shiftRight` reads it off the bits
  that are shifted out.
* `lastPlace`, `droppedPlaces`: the exponent of the last place, and how many come after it.
* `roundWithAccuracy_exact`: what an exact number rounds to.
-/

namespace NearestNeighbors.Binary64

open Float.Model Float.Model.UnpackedFloat

/-! ## Rounding a quotient -/

/-- The quotient of `m` and `2 ^ k`, rounded to the nearest natural number, a half to the
even one. -/
def roundShift (m k : Nat) : Nat :=
  if 2 * (m % 2 ^ k) < 2 ^ k then m / 2 ^ k
  else if 2 * (m % 2 ^ k) = 2 ^ k then m / 2 ^ k + m / 2 ^ k % 2
  else m / 2 ^ k + 1

theorem le_roundShift (m k : Nat) : m / 2 ^ k ≤ roundShift m k := by
  unfold roundShift
  split
  · omega
  · split <;> omega

theorem roundShift_le (m k : Nat) : roundShift m k ≤ m / 2 ^ k + 1 := by
  unfold roundShift
  split
  · omega
  · split <;> omega

theorem shiftRight_succ (em : ExtendedMantissa) (k : Nat) :
    em >>> (k + 1) = (em >>> k).shiftRightOne := rfl

/-- What is left of a mantissa after `k` shifts: the quotient, whether the rest is at least
a half, and whether it is anything but nothing or a half. -/
theorem shiftRight_exact (m k : Nat) :
    ExtendedMantissa.ofMantissaAndAccuracy m .exact >>> k =
      ⟨m / 2 ^ k, decide (2 ^ k ≤ 2 * (m % 2 ^ k)),
        decide (m % 2 ^ k ≠ 0 ∧ 2 * (m % 2 ^ k) ≠ 2 ^ k)⟩ := by
  -- one more shift moves the round bit into the sticky bit and the last place of the
  -- quotient into the round bit
  induction k with
  | zero =>
    show ExtendedMantissa.mk m false false = _
    simp [Nat.mod_one]
  | succ k ih =>
    rw [shiftRight_succ, ih]
    have hpos : 0 < 2 ^ k := Nat.two_pow_pos k
    have hlt : m % 2 ^ k < 2 ^ k := Nat.mod_lt _ hpos
    have hmod : m % (2 ^ k * 2) = m % 2 ^ k + 2 ^ k * (m / 2 ^ k % 2) := Nat.mod_mul
    have hdiv : m / 2 ^ k / 2 = m / (2 ^ k * 2) := Nat.div_div_eq_div_mul ..
    unfold ExtendedMantissa.shiftRightOne
    rw [Nat.pow_succ, hdiv, ← Bool.decide_or]
    rcases Nat.mod_two_eq_zero_or_one (m / 2 ^ k) with h | h
    · have hrest : m % (2 ^ k * 2) = m % 2 ^ k := by rw [hmod, h, Nat.mul_zero, Nat.add_zero]
      rw [hrest, h]
      congr 1
      · exact (decide_eq_false (by omega)).symm
      · exact decide_eq_decide.2 (by omega)
    · have hrest : m % (2 ^ k * 2) = m % 2 ^ k + 2 ^ k := by rw [hmod, h, Nat.mul_one]
      rw [hrest, h]
      congr 1
      · exact (decide_eq_true (by omega)).symm
      · exact decide_eq_decide.2 (by omega)

theorem roundedMantissa_shiftRight (m k : Nat) :
    (ExtendedMantissa.ofMantissaAndAccuracy m .exact >>> k).roundedMantissa =
      roundShift m k := by
  rw [shiftRight_exact]
  have hpos : 0 < 2 ^ k := Nat.two_pow_pos k
  unfold roundShift ExtendedMantissa.roundedMantissa
  by_cases hlt : 2 * (m % 2 ^ k) < 2 ^ k
  · rw [if_pos hlt]
    have hround : decide (2 ^ k ≤ 2 * (m % 2 ^ k)) = false := decide_eq_false (by omega)
    rw [hround]
    cases decide (m % 2 ^ k ≠ 0 ∧ 2 * (m % 2 ^ k) ≠ 2 ^ k) <;> rfl
  · rw [if_neg hlt]
    have hround : decide (2 ^ k ≤ 2 * (m % 2 ^ k)) = true := decide_eq_true (by omega)
    rw [hround]
    split
    · rename_i heq
      have hsticky : decide (m % 2 ^ k ≠ 0 ∧ 2 * (m % 2 ^ k) ≠ 2 ^ k) = false :=
        decide_eq_false fun h => h.2 heq
      rw [hsticky]
      rfl
    · rename_i hne
      have hsticky : decide (m % 2 ^ k ≠ 0 ∧ 2 * (m % 2 ^ k) ≠ 2 ^ k) = true :=
        decide_eq_true ⟨by omega, hne⟩
      rw [hsticky]
      rfl

/-! ## The last place -/

/-- The exponent of the last place that a double keeps of `m * 2 ^ e`. -/
def lastPlace (m : Nat) (e : Int) : Int := max (m.log2 + e - 52) (-1074)

theorem targetExponent_eq (m : Nat) (e : Int) :
    Format.binary64.targetExponent (totalExponent m e) = lastPlace m e := by
  show max ((m.log2 : Int) + 1 + e - ((1 + 52 : Nat) : Int)) (3 - 1024 - ((1 + 52 : Nat) : Int)) = _
  unfold lastPlace
  omega

theorem le_lastPlace (m : Nat) (e : Int) : -1074 ≤ lastPlace m e := by
  unfold lastPlace
  omega

/-- The number of places after the last one. -/
def droppedPlaces (m : Nat) (e : Int) : Nat := (lastPlace m e - e).toNat

theorem div_lt_of_lastPlace (m : Nat) (e : Int) : m / 2 ^ droppedPlaces m e < 2 ^ 53 := by
  have hlog : m.log2 + 1 ≤ 53 + droppedPlaces m e := by
    unfold droppedPlaces lastPlace
    omega
  apply Nat.div_lt_of_lt_mul
  rw [← Nat.pow_add, Nat.add_comm]
  exact Nat.lt_of_lt_of_le Nat.lt_log2_self (Nat.pow_le_pow_right Nat.two_pos hlog)

/-- A mantissa that is rounded has one place too many at most, and that one is a zero. -/
theorem roundShift_le_of_lastPlace (m : Nat) (e : Int) :
    roundShift m (droppedPlaces m e) ≤ 2 ^ 53 :=
  Nat.le_trans (roundShift_le m (droppedPlaces m e)) (div_lt_of_lastPlace m e)

/-- Above the lowest exponent all places of a double are in use. -/
theorem le_div_of_lastPlace {m : Nat} {e : Int} (hm : m ≠ 0) (he : e ≤ lastPlace m e)
    (hlow : -1074 < lastPlace m e) : 2 ^ 52 ≤ m / 2 ^ droppedPlaces m e := by
  have hlog : 52 + droppedPlaces m e = m.log2 := by
    unfold droppedPlaces
    unfold lastPlace at he hlow ⊢
    omega
  rw [Nat.le_div_iff_mul_le (Nat.two_pow_pos _), ← Nat.pow_add, hlog]
  exact Nat.log2_self_le hm

theorem shiftToTargetExponent_exact {m : Nat} {e : Int} :
    shiftToTargetExponent Format.binary64 m e .exact =
      (ExtendedMantissa.ofMantissaAndAccuracy m .exact >>> droppedPlaces m e,
        e + droppedPlaces m e) := by
  unfold shiftToTargetExponent shiftToExponent
  rw [targetExponent_eq]
  rfl

/-- The double with `q` units of `2 ^ t`. -/
def ofUnits (s : Sign) (q : Nat) (t : Int) : UnpackedFloat :=
  if h : q = 0 then .zero s
  else if q = 2 ^ 53 then .finite s (2 ^ 52) (t + 1) (Nat.two_pow_pos 52)
  else .finite s q t (Nat.pos_of_ne_zero h)

/-- A mantissa that is rounded already is shifted once more when it has one place too many. -/
theorem shifted_eq_ofUnits (s : Sign) {q : Nat} {t : Int} (hq : q ≤ 2 ^ 53) (ht : -1074 ≤ t) :
    (if h : (shiftToTargetExponent Format.binary64 q t .exact).1.mantissa = 0 then .zero s
      else .finite s (shiftToTargetExponent Format.binary64 q t .exact).1.mantissa
        (shiftToTargetExponent Format.binary64 q t .exact).2 (Nat.pos_of_ne_zero h)) =
      ofUnits s q t := by
  rw [shiftToTargetExponent_exact, shiftRight_exact]
  dsimp only
  unfold ofUnits
  by_cases hfull : q = 2 ^ 53
  · have hdrop : droppedPlaces q t = 1 := by
      rw [hfull]
      unfold droppedPlaces lastPlace
      rw [Nat.log2_two_pow]
      omega
    subst hfull
    rw [hdrop]
    rfl
  · have hlog : q.log2 ≤ 52 := by
      by_cases hq0 : q = 0
      · rw [hq0]
        exact Nat.zero_le 52
      · exact Nat.le_of_lt_succ ((Nat.log2_lt hq0).2 (Nat.lt_of_le_of_ne hq hfull))
    have hdrop : droppedPlaces q t = 0 := by
      unfold droppedPlaces lastPlace
      omega
    simp only [hdrop, hfull, Nat.pow_zero, Nat.div_one, Int.natCast_zero, Int.add_zero, if_false]

/-- **Rounding**: a number becomes that of its units in the last place, rounded to the
nearest. -/
theorem roundWithAccuracy_exact {s : Sign} {m : Nat} {e : Int} (he : e ≤ lastPlace m e) :
    roundWithAccuracy Format.binary64 s m e .exact =
      ofUnits s (roundShift m (droppedPlaces m e)) (lastPlace m e) := by
  have hq := roundShift_le_of_lastPlace m e
  have hlow := le_lastPlace m e
  have ht : e + droppedPlaces m e = lastPlace m e := by
    unfold droppedPlaces
    omega
  rw [← shifted_eq_ofUnits s hq hlow]
  unfold roundWithAccuracy
  rw [shiftToTargetExponent_exact (m := m)]
  dsimp only
  rw [roundedMantissa_shiftRight, ht]

end NearestNeighbors.Binary64
