import NearestNeighbors.Proofs.Binary64.Exact
import NearestNeighbors.Proofs.Split.Balance

/-!
# The test side is rounded up

The test side is the part of the rows that the fraction says, rounded up, but for one rounding
before: where the exact part is just above a whole number, the product of doubles may be that
number, which is then not rounded up any more. So the fraction 0.2, which is a little more than a
fifth as a double, gives 30 of 150 rows and not 31.

* `testSize?`: the size that an outcome tells.
* `testSize_cases`: how far the size is from the exact one.
* `testSize_roundedUp` (every fraction): this, and that more rows and larger fractions give no
  smaller test side.
-/

namespace NearestNeighbors

open Binary64

variable {samples : ℕ} {fraction : Float} {q w : ℚ} {c : ℕ}

/-- The size of the test side that an outcome tells, whether the sizes are accepted or not. -/
def testSize? : Except Error SplitSizes → Option ℕ
  | .ok sizes => some sizes.test
  | .error (.degenerateSplit _ _ test) => some test
  | .error _ => none

theorem testSize?_splitSizes (samples : ℕ) (h₀ : 0 < fraction) (h₁ : fraction < 1) :
    testSize? (splitSizes samples fraction) = some (testSize samples fraction) := by
  have hf : ¬ InvalidFraction fraction := not_invalidFraction_iff.2 ⟨h₀, h₁⟩
  rcases splitSizes_cases samples fraction with ⟨hf', -⟩ | ⟨-, -, h⟩ | ⟨-, -, h⟩
  · exact absurd hf' hf
  · rw [h]
    rfl
  · rw [h]
    rfl

/-- Rounding up a number between a natural number and the one before gives the natural number,
except for the one before itself. -/
theorem ceil_cases (hlow : (c : ℚ) ≤ w + 1) (hhigh : w ≤ c) :
    ⌈w⌉₊ = c ∨ ⌈w⌉₊ + 1 = c ∧ w = ⌈w⌉₊ := by
  have hceil : w ≤ ⌈w⌉₊ := Nat.le_ceil w
  have hle : ⌈w⌉₊ ≤ c := Nat.ceil_le.2 hhigh
  have hge : c ≤ ⌈w⌉₊ + 1 := by
    have : (c : ℚ) ≤ ⌈w⌉₊ + 1 := by linarith
    exact_mod_cast this
  rcases hle.lt_or_eq with hlt | heq
  · have hsucc : ⌈w⌉₊ + 1 = c := by omega
    have hcast : (⌈w⌉₊ : ℚ) + 1 = c := by exact_mod_cast hsucc
    exact .inr ⟨hsucc, le_antisymm hceil (by linarith)⟩
  · exact .inl heq

/-- **The test side is rounded up**, unless the product of doubles has lost what there is to round
up. -/
theorem testSize_cases (hs : samples ≤ 2 ^ 53) (hq : Equals fraction q) (h₁ : fraction < 1) :
    testSize samples fraction = ⌈samples * q⌉₊ ∨
      testSize samples fraction + 1 = ⌈samples * q⌉₊ ∧
        Exactly (Float.ofNat samples * fraction) (testSize samples fraction) := by
  rcases Nat.eq_zero_or_pos samples with rfl | hpos
  · have hzero : testSize 0 fraction = 0 := ceilingSize_of_zero (hq.unpack_zero_mul rfl)
    rw [hzero, Nat.cast_zero, zero_mul, Nat.ceil_zero]
    exact .inl rfl
  · obtain ⟨w, hw, hle⟩ := hq.exists_mul h₁ hpos (hs.trans (by norm_num))
    have hround := (equals_ofNat hpos hs).unpack_mul hq
    have hpart : (0 : ℚ) ≤ samples * q := mul_nonneg samples.cast_nonneg hq.pos.le
    -- the exact part and its rounding lie between the same two natural numbers
    have hc : ⌈samples * q⌉₊ ≤ 2 ^ 53 := by
      have hpart_le : samples * q ≤ samples :=
        mul_le_of_le_one_right samples.cast_nonneg (hq.lt_one h₁).le
      exact (Nat.ceil_le.2 hpart_le).trans hs
    have hhigh : w ≤ ⌈samples * q⌉₊ := hw.le_natCast hpart hround hc (Nat.le_ceil _)
    have hlow : (⌈samples * q⌉₊ : ℚ) ≤ w + 1 := by
      rcases Nat.eq_zero_or_pos ⌈samples * q⌉₊ with h0 | hc0
      · rw [h0, Nat.cast_zero]
        linarith [hw.pos]
      · obtain ⟨k, hk⟩ : ∃ k, ⌈samples * q⌉₊ = k + 1 := ⟨_, (Nat.sub_add_cancel hc0).symm⟩
        have hbelow : (k : ℚ) < samples * q := Nat.lt_ceil.1 (by omega)
        have hkw : (k : ℚ) ≤ w := hw.natCast_le hround (by omega) hbelow.le
        rw [hk, Nat.cast_add, Nat.cast_one]
        linarith
    have htest : testSize samples fraction = ⌈w⌉₊ := by
      have hmax : ⌈w⌉₊ ≤ maxSize := (Nat.ceil_le.2 hle).trans (hs.trans (by decide))
      exact hw.ceilingSize_eq.trans (min_eq_left hmax)
    rw [htest]
    rcases ceil_cases hlow hhigh with h | ⟨h, hexact⟩
    · exact .inl h
    · refine .inr ⟨h, ?_⟩
      rw [← hexact]
      exact hw.exactly

/-- **The test side is rounded up, up to one rounding step.** For rows that are doubles it is the
exact part rounded up, or one less; then the product of doubles is the smaller number exactly.
More rows and a larger fraction give no smaller test side, for any number of rows, and whether the
sizes are accepted or not. -/
theorem testSize_roundedUp (fraction : Float) (h₀ : 0 < fraction) (h₁ : fraction < 1) :
    (∃ q : ℚ, Equals fraction q ∧ ∀ samples ≤ 2 ^ 53,
      ∃ test, testSize? (splitSizes samples fraction) = some test ∧
        (test = ⌈samples * q⌉₊ ∨ test + 1 = ⌈samples * q⌉₊ ∧
          Exactly (Float.ofNat samples * fraction) test)) ∧
    ∀ samples samples' fraction', samples ≤ samples' → fraction ≤ fraction' → fraction' < 1 →
      ∃ test test', testSize? (splitSizes samples fraction) = some test ∧
        testSize? (splitSizes samples' fraction') = some test' ∧ test ≤ test' := by
  constructor
  · obtain ⟨q, hq⟩ := exists_equals_of_fraction h₀ h₁
    refine ⟨q, hq, fun samples hs => ?_⟩
    exact ⟨_, testSize?_splitSizes samples h₀ h₁, testSize_cases hs hq h₁⟩
  · intro samples samples' fraction' hs hle h₁'
    have h₀' : 0 < fraction' := pos_of_pos_of_le h₀ hle
    exact ⟨_, _, testSize?_splitSizes samples h₀ h₁, testSize?_splitSizes samples' h₀' h₁',
      testSize_mono hs h₀ hle h₁'⟩

/-- A fifth of 150 rows: the double is a little more than a fifth, so that the exact part is
rounded up to 31, but the product of doubles is 30. -/
theorem testSize_roundedUp_fifth : (0 : Float) < 0.2 ∧ (0.2 : Float) < 1 ∧
    ∃ q : ℚ, Equals 0.2 q ∧ ⌈(150 : ℕ) * q⌉₊ = 31 ∧
      testSize? (splitSizes 150 0.2) = some 30 ∧ Exactly (Float.ofNat 150 * 0.2) (30 : ℕ) := by
  have h₀ : (0 : Float) < 0.2 := by decide
  have h₁ : (0.2 : Float) < 1 := by decide
  have hvalue : Equals 0.2 (7205759403792794 * 2 ^ (-55 : ℤ)) :=
    ⟨7205759403792794, -55, by norm_num, rfl, by norm_num⟩
  obtain ⟨⟨q, hq, hsmall⟩, -⟩ := testSize_roundedUp 0.2 h₀ h₁
  obtain ⟨test, htest, hcases⟩ := hsmall 150 (by norm_num)
  have hceil : ⌈(150 : ℕ) * q⌉₊ = 31 := by
    rw [hq.unique hvalue, Nat.ceil_eq_iff (by norm_num)]
    norm_num
  have h30 : testSize 150 0.2 = 30 := by decide +kernel
  rw [testSize?_splitSizes 150 h₀ h₁, h30] at htest
  obtain rfl : 30 = test := Option.some.inj htest
  refine ⟨h₀, h₁, q, hq, hceil, ?_, ?_⟩
  · rw [testSize?_splitSizes 150 h₀ h₁, h30]
  · rcases hcases with h | ⟨-, hexact⟩
    · rw [hceil] at h
      omega
    · exact hexact

end NearestNeighbors
