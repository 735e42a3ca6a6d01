import NearestNeighbors.Proofs.Binary64.Closest
import NearestNeighbors.Proofs.Decimal.Grammar

/-!
# Numbers are rounded once

The double that a decimal is read as is the closest one there is, however many digits it has and
however long its exponent is. It is infinite from half a unit above the largest double on, and
zero up to half of the least one; the sign of the text stays on both.

* `Rounded`: the double that a number without its sign is rounded to, and the sign.
* `Reads`: the double that an amount is read as.
* `rounded_toFloat`, `toFloat_reads`: numerals.
-/

namespace NearestNeighbors.Numeral

open Float.Model.UnpackedFloat
open Binary64

variable {s : Sign} {v : ℚ} {x : Float}

/-- **The double that a number is rounded to**: `v` without its sign, which is a minus where
`negative` says so. -/
structure Rounded (negative : Bool) (v : ℚ) (x : Float) : Prop where
  sign : signWeight ≤ x.toBits.toNat ↔ negative
  infinite : x.isInf ↔ 2 ^ (1024 : ℤ) - 2 ^ (970 : ℤ) ≤ v
  zero : Exactly x 0 ↔ v ≤ 2 ^ (-1075 : ℤ)
  closest : v < 2 ^ (1024 : ℤ) - 2 ^ (970 : ℤ) → Closest (if negative then -v else v : ℚ) x

/-- **The double that an amount is read as.** -/
inductive Reads (negative : Bool) : Amount → Float → Prop where
  | finite {v : ℚ} {x : Float} (h : Rounded negative v x) : Reads negative (.finite v) x
  | infinity {x : Float} (h : x.isInf) (hs : signWeight ≤ x.toBits.toNat ↔ negative) :
    Reads negative .infinity x
  | notANumber {x : Float} (h : x.isNaN) : Reads negative .notANumber x

theorem isInf_iff_of_nearest (hx : x.toModel.unpack = nearest s v) :
    x.isInf ↔ nearest s v = .infinity s := by
  show x.toModel.unpack.isInf = true ↔ _
  rw [hx]
  rcases nearest_cases s v with h | h | ⟨m, e, hm, h⟩
  · rw [h]
    exact iff_of_false nofun nofun
  · rw [h]
    exact iff_of_true rfl rfl
  · rw [h]
    exact iff_of_false nofun nofun

theorem exactly_zero_iff_of_nearest (hx : x.toModel.unpack = nearest s v) :
    Exactly x 0 ↔ nearest s v = .zero s := by
  unfold Exactly
  rw [hx]
  rcases nearest_cases s v with h | h | ⟨m, e, hm, h⟩
  · rw [h]
    exact iff_of_true (.zero s) rfl
  · rw [h]
    exact iff_of_false nofun nofun
  · rw [h]
    refine iff_of_false (fun hzero => ?_) nofun
    have hm' : (m : ℚ) ≠ 0 := by exact_mod_cast hm.ne'
    generalize hw : (0 : ℚ) = w at hzero
    cases hzero
    rw [eq_comm, mul_eq_zero] at hw
    refine hw.elim (fun hs => ?_) (zpow_ne_zero _ two_ne_zero)
    cases s with
    | negative => exact hm' (by simpa using hs)
    | positive => exact hm' (by simpa using hs)

/-- A minus in front of a nearest double. -/
theorem withSign_nearest (s : Sign) (v : ℚ) : withSign s (nearest .positive v) = nearest s v := by
  cases s with
  | negative => exact (nearest_neg .positive v).symm
  | positive => rfl

/-- **Decimals are rounded once**, with the sign in front. -/
theorem rounded_toFloat (s : Sign) (d : Decimal) :
    Rounded (isMinus s) d.value (toFloat ⟨isMinus s, .decimal d⟩) := by
  have hv : 0 ≤ d.value := by
    unfold Decimal.value
    positivity
  have hx : (toFloat ⟨isMinus s, .decimal d⟩).toModel.unpack = nearest s d.value := by
    rw [unpack_toFloat_signed, ← withSign_nearest]
    exact congrArg (withSign s) d.unpack_toFloat
  refine ⟨?_, ?_, ?_, fun hlt => ?_⟩
  · rw [signWeight_le_of_nearest hx]
    cases s with
    | negative => exact iff_of_true rfl rfl
    | positive => exact iff_of_false nofun nofun
  · rw [isInf_iff_of_nearest hx, nearest_eq_infinity_iff hv]
  · rw [exactly_zero_iff_of_nearest hx, nearest_eq_zero_iff hv]
  · have hclosest : Closest d.value d.toFloat := closest_of_nearest hv hlt d.unpack_toFloat
    cases s with
    | negative =>
      have hneg := hclosest.neg
      rw [← Rat.cast_neg] at hneg
      exact hneg
    | positive => exact hclosest

/-- **Numerals are read as what they amount to.** -/
theorem toFloat_reads (n : Numeral) : Reads n.negative (amount n.quantity) n.toFloat := by
  obtain ⟨negative, q⟩ := n
  obtain ⟨s, rfl⟩ : ∃ s, isMinus s = negative := by
    cases negative with
    | false => exact ⟨.positive, rfl⟩
    | true => exact ⟨.negative, rfl⟩
  cases q with
  | decimal d => exact .finite (rounded_toFloat s d)
  | infinity =>
    cases s with
    | negative => exact .infinity rfl (by decide)
    | positive => exact .infinity rfl (by decide)
  | notANumber =>
    cases s with
    | negative => exact .notANumber rfl
    | positive => exact .notANumber rfl

end NearestNeighbors.Numeral
