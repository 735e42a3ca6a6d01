import NearestNeighbors.Proofs.Binary64.Fraction
import NearestNeighbors.Proofs.Split.Sizes

/-!
# The sizes of a split account for every row

The number of rows is rounded, perhaps upwards, before the fraction is taken of it, and the
product is rounded again; the test side is no larger than the data set all the same. So nothing
is cut off where the train side is what is left, and the sizes add up whether they are accepted
or not.

* `testSize_le`, `testSize_eq_zero_iff`: the test side is within the data set, and only that of
  no rows is empty.
* `splitSizes_balanced` (every number of rows and every fraction): what comes out, and when.
-/

namespace NearestNeighbors

open Binary64

variable {samples : ℕ} {fraction : Float}

theorem testSize_zero (h₀ : 0 < fraction) (h₁ : fraction < 1) : testSize 0 fraction = 0 := by
  obtain ⟨v, hv⟩ := exists_equals_of_fraction h₀ h₁
  exact ceilingSize_of_zero (hv.unpack_zero_mul rfl)

/-- Only the test side of no rows is empty. -/
theorem testSize_eq_zero_iff (h₀ : 0 < fraction) (h₁ : fraction < 1) :
    testSize samples fraction = 0 ↔ samples = 0 := by
  constructor
  · intro h
    by_contra hne
    exact (testSize_pos (Nat.pos_of_ne_zero hne) h₀ h₁).ne' h
  · rintro rfl
    exact testSize_zero h₀ h₁

/-- **The test side is within the data set.** -/
theorem testSize_le (hs : samples ≤ maxSize) (h₀ : 0 < fraction) (h₁ : fraction < 1) :
    testSize samples fraction ≤ samples := by
  rcases Nat.eq_zero_or_pos samples with rfl | hpos
  · exact (testSize_zero h₀ h₁).le
  · obtain ⟨v, hv⟩ := exists_equals_of_fraction h₀ h₁
    have hword : samples ≤ 2 ^ 64 := hs.trans (by decide)
    obtain ⟨w, hw, hle⟩ := hv.exists_mul h₁ hpos hword
    calc testSize samples fraction = min ⌈w⌉₊ maxSize := hw.ceilingSize_eq
      _ ≤ ⌈w⌉₊ := min_le_left _ _
      _ ≤ samples := Nat.ceil_le.2 hle

/-- Only a fraction that is none is refused as such. -/
theorem splitSizes_eq_invalid_iff {x : Float} :
    splitSizes samples fraction = .error (.invalidTestFraction x) ↔
      InvalidFraction fraction ∧ x = fraction := by
  rcases splitSizes_cases samples fraction with ⟨hf, h⟩ | ⟨hf, -, h⟩ | ⟨hf, -, h⟩
  · rw [h]
    constructor
    · intro heq
      cases heq
      exact ⟨hf, rfl⟩
    · rintro ⟨-, rfl⟩
      rfl
  · rw [h]
    exact iff_of_false nofun fun h => hf h.1
  · rw [h]
    exact iff_of_false nofun fun h => hf h.1

/-- The sizes for a fraction are refused when all rows are on the test side. -/
theorem splitSizes_eq_error_iff {e : Error} (hs : samples ≤ maxSize)
    (hf : ¬ InvalidFraction fraction) : splitSizes samples fraction = .error e ↔
      testSize samples fraction = samples ∧ e = .degenerateSplit samples 0 samples := by
  obtain ⟨h₀, h₁⟩ := not_invalidFraction_iff.1 hf
  have hle : testSize samples fraction ≤ samples := testSize_le hs h₀ h₁
  rcases splitSizes_cases samples fraction with ⟨hf', -⟩ | ⟨-, htrain, h⟩ | ⟨-, htrain, h⟩
  · exact absurd hf' hf
  · have htest : testSize samples fraction = samples := by omega
    rw [h, htest, Except.error.injEq, eq_comm]
    exact (and_iff_right rfl).symm
  · rw [h]
    exact iff_of_false nofun fun h => by omega

/-- **The sizes account for every row.** A fraction that is none is refused, and no other one is.
Otherwise the test side is within the data set, and empty only where there are no rows; the sizes
are refused exactly when it is the whole data set, as zero and all rows, and else both are
positive. Accepted or not, they add up to the number of rows. -/
theorem splitSizes_balanced (samples : ℕ) (fraction : Float) (hs : samples ≤ maxSize) :
    (∀ x, splitSizes samples fraction = .error (.invalidTestFraction x) ↔
      InvalidFraction fraction ∧ x = fraction) ∧
    (¬ InvalidFraction fraction →
      testSize samples fraction ≤ samples ∧
      (testSize samples fraction = 0 ↔ samples = 0) ∧
      (∀ e, splitSizes samples fraction = .error e ↔ testSize samples fraction = samples ∧
        ∃ train test, e = .degenerateSplit samples train test ∧
          train = 0 ∧ test = samples ∧ train + test = samples) ∧
      ∀ sizes, splitSizes samples fraction = .ok sizes ↔ testSize samples fraction < samples ∧
        sizes.test = testSize samples fraction ∧
          1 ≤ sizes.train ∧ 1 ≤ sizes.test ∧ sizes.train + sizes.test = samples) := by
  refine ⟨fun x => splitSizes_eq_invalid_iff, fun hf => ?_⟩
  obtain ⟨h₀, h₁⟩ := not_invalidFraction_iff.1 hf
  refine ⟨testSize_le hs h₀ h₁, testSize_eq_zero_iff h₀ h₁, fun e => ?_, fun sizes => ?_⟩
  · rw [splitSizes_eq_error_iff hs hf]
    constructor
    · rintro ⟨htest, rfl⟩
      exact ⟨htest, 0, samples, rfl, rfl, rfl, Nat.zero_add samples⟩
    · rintro ⟨htest, _, _, rfl, rfl, rfl, -⟩
      exact ⟨htest, rfl⟩
  · constructor
    · intro hok
      obtain ⟨htrain, htest, hadd⟩ := splitSizes_ok hok
      obtain ⟨-, hlt, rfl⟩ := splitSizes_eq_ok_iff.1 hok
      exact ⟨hlt, rfl, htrain, htest, hadd⟩
    · rintro ⟨hlt, htest, -, -, hadd⟩
      obtain ⟨train, test⟩ := sizes
      dsimp only at htest hadd
      refine splitSizes_eq_ok_iff.2 ⟨⟨h₀, h₁⟩, hlt, ?_⟩
      rw [SplitSizes.mk.injEq]
      omega

/-- As many rows as there are sizes, which are rounded up by one, and the largest fraction. -/
theorem splitSizes_balanced_largest : maxSize ≤ maxSize ∧
    splitSizes maxSize 0.9999999999999999 = .ok ⟨2047, 18446744073709549568⟩ := by
  have htest : testSize maxSize 0.9999999999999999 = 18446744073709549568 := by decide +kernel
  have hf : ¬ InvalidFraction 0.9999999999999999 :=
    not_invalidFraction_iff.2 ⟨by decide, by decide⟩
  obtain ⟨-, hvalid⟩ := splitSizes_balanced maxSize 0.9999999999999999 le_rfl
  obtain ⟨-, -, -, hok⟩ := hvalid hf
  exact ⟨le_rfl, (hok _).2 ⟨by rw [htest]; decide, htest.symm, by decide⟩⟩

end NearestNeighbors
