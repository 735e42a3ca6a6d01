import NearestNeighbors.Proofs.Binary64.Natural
import NearestNeighbors.Split

/-!
# The sizes of a split

A part of a positive number of rows that is itself positive is never rounded down to
nothing, so that only the train side can be empty. A larger part of no fewer rows is no smaller,
whatever is rounded on the way.

* `testSize_pos`, `testSize_mono`: the test side is not empty, and does not shrink.
* `InvalidFraction`: the fractions that are refused.
* `splitSizes_cases`: the three ways sizes come out.
* `splitSizes_eq_ok_iff`, `splitSizes_ok`: the sizes of both sides are positive and add up.
-/

namespace NearestNeighbors

open Binary64

variable {samples samples' : Nat} {fraction fraction' : Float}

theorem testSize_pos (hn : 0 < samples) (h₀ : 0 < fraction) (h₁ : fraction < 1) :
    0 < testSize samples fraction :=
  ceilingSize_mul_pos hn h₀ h₁

/-- **The size of the test side** does not fall when the fraction grows, or the rows do. -/
theorem testSize_mono (hs : samples ≤ samples') (h₀ : 0 < fraction)
    (hle : fraction ≤ fraction') (h₁ : fraction' < 1) :
    testSize samples fraction ≤ testSize samples' fraction' := by
  -- the rows are rounded, then the product, then its ceiling is cut to a size
  obtain ⟨v, w, hv, hw, hvw⟩ := equals_of_fractions h₀ hle h₁
  have hn₁ := unsigned_ofNat samples
  have hn₂ := unsigned_ofNat samples'
  apply ceilingSize_le (hn₁.mul hv.unsigned) (hn₂.mul hw.unsigned)
  · exact orderKey_mul_le hv hw hvw hn₁ hn₂ (orderKey_ofNat_le hs)
      (orderKey_ofNat_le_infinity samples')
  · exact hw.orderKey_mul_le_infinity hn₂ (orderKey_ofNat_le_infinity samples')

/-- A number that does not lie strictly between zero and one, or no number. -/
def InvalidFraction (x : Float) : Prop := x.isNaN ∨ x ≤ 0 ∨ 1 ≤ x

theorem not_invalidFraction_iff : ¬ InvalidFraction fraction ↔ 0 < fraction ∧ fraction < 1 := by
  unfold InvalidFraction
  rw [← not_between_iff, Classical.not_not]

/-- **The three ways sizes come out**: the fraction is no fraction, there is nothing left
to train with, or both sides have rows. -/
theorem splitSizes_cases (samples : Nat) (fraction : Float) :
    (InvalidFraction fraction ∧
        splitSizes samples fraction = .error (.invalidTestFraction fraction)) ∨
      (¬ InvalidFraction fraction ∧ samples - testSize samples fraction = 0 ∧
        splitSizes samples fraction =
          .error (.degenerateSplit samples 0 (testSize samples fraction))) ∨
      ¬ InvalidFraction fraction ∧ 0 < samples - testSize samples fraction ∧
        splitSizes samples fraction =
          .ok ⟨samples - testSize samples fraction, testSize samples fraction⟩ := by
  rw [not_invalidFraction_iff]
  unfold splitSizes
  by_cases hf : 0 < fraction ∧ fraction < 1
  · rw [if_pos hf]
    dsimp only
    by_cases htrain : samples - testSize samples fraction = 0
    · refine .inr (.inl ⟨hf, htrain, ?_⟩)
      rw [if_pos (.inl htrain), htrain]
    · have htest : 0 < testSize samples fraction := testSize_pos (by omega) hf.1 hf.2
      refine .inr (.inr ⟨hf, by omega, ?_⟩)
      rw [if_neg (by omega)]
  · rw [if_neg hf]
    exact .inl ⟨(not_between_iff fraction).1 hf, rfl⟩

/-- **When there are sizes**, and which. -/
theorem splitSizes_eq_ok_iff {sizes : SplitSizes} :
    splitSizes samples fraction = .ok sizes ↔ (0 < fraction ∧ fraction < 1) ∧
      testSize samples fraction < samples ∧
        sizes = ⟨samples - testSize samples fraction, testSize samples fraction⟩ := by
  rw [← not_invalidFraction_iff]
  rcases splitSizes_cases samples fraction with
    ⟨hf, hs⟩ | ⟨-, htrain, hs⟩ | ⟨hf, htrain, hs⟩
  · rw [hs]
    exact iff_of_false nofun fun h => h.1 hf
  · rw [hs]
    exact iff_of_false nofun fun h => by omega
  · rw [hs, Except.ok.injEq, eq_comm]
    exact ⟨fun h => ⟨hf, by omega, h⟩, fun h => h.2.2⟩

/-- **The sizes of both sides** are positive and add up. -/
theorem splitSizes_ok {sizes : SplitSizes} (h : splitSizes samples fraction = .ok sizes) :
    0 < sizes.train ∧ 0 < sizes.test ∧ sizes.train + sizes.test = samples := by
  obtain ⟨⟨h₀, h₁⟩, hlt, rfl⟩ := splitSizes_eq_ok_iff.1 h
  have htest : 0 < testSize samples fraction := testSize_pos (by omega) h₀ h₁
  dsimp only
  omega

end NearestNeighbors
