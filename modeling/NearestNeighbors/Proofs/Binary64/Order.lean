import Mathlib
import NearestNeighbors.Binary64.Magnitude

/-!
# Comparing doubles

A comparison of doubles is that of their unpacked forms. It gives nothing beside a NaN,
and otherwise exactly one of less, equal and greater.

* `compare_swap`, `compare_eq_none`: turning a comparison round, and when it gives nothing.
* `not_lt_iff`: what is not less.
* `not_between_iff`, `unpack_of_between`: what does not lie strictly between zero and one,
  and what does.
-/

namespace NearestNeighbors.Binary64

open Float.Model (UnpackedFloat)

/-- Turning a comparison round turns its result round. -/
theorem compare_swap (x y : UnpackedFloat) :
    y.compare x = (x.compare y).map Ordering.swap := by
  cases x with
  | notANumber => cases y <;> rfl
  | infinity s =>
    cases y with
    | infinity s' => cases s <;> cases s' <;> rfl
    | notANumber => cases s <;> rfl
    | zero s' => cases s <;> rfl
    | finite s' m e h => cases s <;> cases s' <;> rfl
  | zero s =>
    cases y with
    | infinity s' => cases s' <;> rfl
    | notANumber => rfl
    | zero s' => rfl
    | finite s' m e h => cases s' <;> rfl
  | finite s m e h =>
    cases y with
    | infinity s' => cases s <;> cases s' <;> rfl
    | notANumber => cases s <;> rfl
    | zero s' => cases s <;> rfl
    | finite s' m' e' h' =>
      have hswap : (compare e' e).then (compare m' m) =
          ((compare e e').then (compare m m')).swap := by
        rw [Ordering.swap_then, ← Int.compare_swap, ← Nat.compare_swap]
      cases s <;> cases s'
      · exact congrArg some (congrArg Ordering.swap hswap)
      · rfl
      · rfl
      · exact congrArg some hswap

/-- Only a NaN compares with nothing. -/
theorem compare_eq_none {x y : UnpackedFloat} :
    x.compare y = none ↔ x.isNaN ∨ y.isNaN := by
  unfold UnpackedFloat.isNaN
  fun_cases UnpackedFloat.compare x y <;> simp_all

theorem lt_iff_compare {x y : Float} :
    x < y ↔ x.toModel.unpack.compare y.toModel.unpack = some .lt := by
  show decide (x.toModel < y.toModel) = true ↔ _
  rw [decide_eq_true_iff]
  exact beq_iff_eq

theorem le_iff_compare {x y : Float} :
    x ≤ y ↔ (x.toModel.unpack.compare y.toModel.unpack).any (·.isLE) := by
  show decide (x.toModel ≤ y.toModel) = true ↔ _
  rw [decide_eq_true_iff]
  exact Iff.rfl

/-- **What is not less** is a NaN, beside one, or at least as large. -/
theorem not_lt_iff (x y : Float) : ¬ x < y ↔ x.isNaN ∨ y.isNaN ∨ y ≤ x := by
  rw [lt_iff_compare, le_iff_compare, compare_swap x.toModel.unpack, ← or_assoc]
  show _ ↔ (x.toModel.unpack.isNaN ∨ y.toModel.unpack.isNaN) ∨ _
  rw [← compare_eq_none]
  cases x.toModel.unpack.compare y.toModel.unpack with
  | none => simp
  | some o => cases o <;> simp

/-- What does not lie strictly between zero and one. -/
theorem not_between_iff (x : Float) : ¬ (0 < x ∧ x < 1) ↔ x.isNaN ∨ x ≤ 0 ∨ 1 ≤ x := by
  have hzero : (0 : Float).isNaN = false := by decide
  have hone : (1 : Float).isNaN = false := by decide
  rw [Classical.not_and_iff_not_or_not, not_lt_iff, not_lt_iff, hzero, hone]
  constructor
  · rintro ((h | h | h) | h | h | h)
    · cases h
    · exact .inl h
    · exact .inr (.inl h)
    · exact .inl h
    · cases h
    · exact .inr (.inr h)
  · rintro (h | h | h)
    · exact .inl (.inr (.inl h))
    · exact .inl (.inr (.inr h))
    · exact .inr (.inr (.inr h))

theorem unpack_zero : (0 : Float).toModel.unpack = .zero .positive := rfl

theorem unpack_one : (1 : Float).toModel.unpack = .finite .positive (2 ^ 52) (-52) (by decide) :=
  rfl

/-- Between zero and one there are positive finite doubles only. -/
theorem unpack_of_between {x : Float} (h₀ : 0 < x) (h₁ : x < 1) :
    ∃ m e h, x.toModel.unpack = .finite .positive m e h := by
  rw [lt_iff_compare, unpack_zero] at h₀
  rw [lt_iff_compare, unpack_one] at h₁
  cases hx : x.toModel.unpack with
  | notANumber =>
    rw [hx] at h₀
    cases h₀
  | zero s =>
    rw [hx] at h₀
    cases h₀
  | infinity s =>
    rw [hx] at h₀ h₁
    cases s
    · cases h₀
    · cases h₁
  | finite s m e h =>
    rw [hx] at h₀
    cases s
    · cases h₀
    · exact ⟨m, e, h, rfl⟩

/-- What is at least a number above zero is above zero. -/
theorem pos_of_pos_of_le {x y : Float} (h₀ : 0 < x) (hle : x ≤ y) : 0 < y := by
  rw [lt_iff_compare, unpack_zero] at h₀ ⊢
  rw [le_iff_compare] at hle
  generalize x.toModel.unpack = u at h₀ hle
  generalize y.toModel.unpack = u' at hle ⊢
  cases u with
  | notANumber => cases h₀
  | zero s => cases h₀
  | infinity s =>
    cases s
    · cases h₀
    · cases u' with
      | infinity s' => cases s' <;> trivial
      | _ => cases hle
  | finite s m e h =>
    cases s
    · cases h₀
    · cases u' with
      | infinity s' => cases s' <;> trivial
      | finite s' m' e' h' => cases s' <;> trivial
      | _ => cases hle

end NearestNeighbors.Binary64
