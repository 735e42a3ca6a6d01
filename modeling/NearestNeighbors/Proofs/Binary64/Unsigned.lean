import NearestNeighbors.Proofs.Binary64.TotalOrder

/-!
# Arithmetic without signs

Sums, products and square roots of doubles without a sign have no sign, and neither has a
square. None of them is smaller than zero in the total order, whatever is lost, too large or
no number at all.

* `Unsigned.unpack_pack`: packing keeps the sign off.
* `unsigned_mul_self`, `Unsigned.mul`, `Unsigned.add`, `Unsigned.sqrt`: the operations.
-/

namespace NearestNeighbors.Binary64

open Float.Model Float.Model.UnpackedFloat

variable {x y : Float} {u v : UnpackedFloat}

theorem unsigned_unpack_packComponents (E : BitVec 11) (M : BitVec 52) :
    Unsigned (UnpackedFloat.unpack Format.binary64
      (packComponents Format.binary64 .positive E M)) := by
  have hsign : Sign.ofBitVec (unpackSign (packComponents Format.binary64 .positive E M)) =
      .positive := by
    rw [unpackSign_packComponents, Sign.ofBitVec_toBitVec]
  unfold UnpackedFloat.unpack
  dsimp only
  rw [hsign]
  split_ifs
  · exact .infinity
  · exact .notANumber
  · exact .zero
  · exact .finite _ _ _
  · exact .finite _ _ _

/-- Packing keeps the sign off, whatever it does to the rest. -/
theorem Unsigned.unpack_pack (hu : Unsigned u) : Unsigned (Float.Model.pack u).unpack := by
  cases hu with
  | notANumber => exact unsigned_unpack_packComponents _ _
  | zero => exact unsigned_unpack_packComponents _ _
  | infinity => exact unsigned_unpack_packComponents _ _
  | finite m e h =>
    show Unsigned (UnpackedFloat.unpack Format.binary64 (UnpackedFloat.pack Format.binary64 _))
    unfold UnpackedFloat.pack
    dsimp only
    split_ifs <;> exact unsigned_unpack_packComponents _ _

/-! ## Rounding -/

theorem unsigned_roundWithAccuracy (m : ℕ) (e : ℤ) (acc : Accuracy) :
    Unsigned (roundWithAccuracy Format.binary64 .positive m e acc) := by
  unfold roundWithAccuracy
  dsimp only
  split_ifs
  · exact .zero
  · exact .finite _ _ _

/-- A whole number from zero on is rounded to a double without a sign. -/
theorem unsigned_normalize {m : ℤ} (hm : 0 ≤ m) (e : ℤ) :
    Unsigned (UnpackedFloat.normalize Format.binary64 m e .positive) := by
  unfold UnpackedFloat.normalize
  split
  · rename_i hlt
    have := Int.compare_eq_lt.1 hlt
    omega
  · exact .zero
  · exact unsigned_roundWithAccuracy _ _ _

/-! ## Operations -/

/-- **A square has no sign.** -/
theorem unsigned_mul_self (x : Float) : Unsigned (x * x).toModel.unpack := by
  apply Unsigned.unpack_pack
  cases x.toModel.unpack with
  | notANumber => exact .notANumber
  | infinity s => cases s <;> exact .infinity
  | zero s => cases s <;> exact .zero
  | finite s m e h => cases s <;> exact unsigned_roundWithAccuracy _ _ _

theorem Unsigned.mul (hx : Unsigned x.toModel.unpack) (hy : Unsigned y.toModel.unpack) :
    Unsigned (x * y).toModel.unpack := by
  apply Unsigned.unpack_pack
  generalize x.toModel.unpack = u at hx
  generalize y.toModel.unpack = v at hy
  cases hx <;> cases hy <;>
    first
    | exact .notANumber
    | exact .infinity
    | exact .zero
    | exact unsigned_roundWithAccuracy _ _ _

theorem Unsigned.add (hx : Unsigned x.toModel.unpack) (hy : Unsigned y.toModel.unpack) :
    Unsigned (x + y).toModel.unpack := by
  apply Unsigned.unpack_pack
  generalize x.toModel.unpack = u at hx
  generalize y.toModel.unpack = v at hy
  cases hx <;> cases hy <;>
    first
    | exact .notANumber
    | exact .infinity
    | exact .zero
    | exact .finite _ _ _
    | exact unsigned_normalize (Int.add_nonneg (Int.natCast_nonneg _) (Int.natCast_nonneg _)) _

theorem Unsigned.sqrt (hx : Unsigned x.toModel.unpack) : Unsigned x.sqrt.toModel.unpack := by
  apply Unsigned.unpack_pack
  generalize x.toModel.unpack = u at hx
  cases hx with
  | notANumber => exact .notANumber
  | zero => exact .zero
  | infinity => exact .infinity
  | finite m e h => exact unsigned_roundWithAccuracy _ _ _

end NearestNeighbors.Binary64
