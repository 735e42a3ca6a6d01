import NearestNeighbors.Binary64.Order
import NearestNeighbors.Proofs.Binary64.Order
import NearestNeighbors.Proofs.Binary64.Unpacking

/-!
# The total order of doubles

The total order goes by the sign and then by the bits. Its keys are different for different
doubles, and the key of a double without a sign is its bits read as a number: the exponent
counts from the lowest one, and the mantissa follows it.

* `TotalLt`, `totalLt_iff`: the order, and that the keys have it.
* `orderKey_injective`: equal keys are those of one double.
* `orderKey_of_finite` and its like: the keys of the doubles without a sign.
* `Unsigned`, `orderKey_nonneg`, `orderKey_eq_zero_iff`: the doubles without a sign, and the
  least of them.
-/

namespace NearestNeighbors.Binary64

open Float.Model Float.Model.UnpackedFloat

variable {x y : Float} {s : Sign} {m : ℕ} {e : ℤ} {h : 0 < m}

/-- **The IEEE total order.** Doubles with a sign bit come first. Of two doubles without one,
the one with the smaller bits comes first, and of two doubles with one, the other. -/
inductive TotalLt (x y : Float) : Prop where
  | signs (hx : signWeight ≤ x.toBits.toNat) (hy : y.toBits.toNat < signWeight)
  | positive (hy : y.toBits.toNat < signWeight) (h : x.toBits.toNat < y.toBits.toNat)
  | negative (hy : signWeight ≤ y.toBits.toNat) (h : y.toBits.toNat < x.toBits.toNat)

/-- The keys of the total order have its order. -/
theorem totalLt_iff : TotalLt x y ↔ orderKey x < orderKey y := by
  unfold orderKey
  dsimp only
  constructor
  · intro h
    cases h with
    | signs hx hy => rw [if_neg (Nat.not_lt.2 hx), if_pos hy]; omega
    | positive hy h => rw [if_pos (h.trans hy), if_pos hy]; omega
    | negative hy h => rw [if_neg (by omega), if_neg (by omega)]; omega
  · intro h
    by_cases hx : x.toBits.toNat < signWeight
    · rw [if_pos hx] at h
      have hy : y.toBits.toNat < signWeight := by
        by_contra hy
        rw [if_neg hy] at h
        omega
      rw [if_pos hy] at h
      exact .positive hy (by omega)
    · rw [if_neg hx] at h
      by_cases hy : y.toBits.toNat < signWeight
      · exact .signs (by omega) hy
      · rw [if_neg hy] at h
        exact .negative (by omega) (by omega)

theorem toBits_injective (h : x.toBits = y.toBits) : x = y := by
  apply eq_of_unpack_eq
  exact congrArg (fun b : UInt64 => UnpackedFloat.unpack Format.binary64 b.toBitVec) h

/-- **Equal keys** are those of one double. -/
theorem orderKey_injective (h : orderKey x = orderKey y) : x = y := by
  apply toBits_injective
  apply UInt64.toNat_inj.1
  unfold orderKey at h
  dsimp only at h
  split at h <;> split at h <;> omega

/-! ## The keys of the doubles without a sign -/

/-- The three parts of the bits, as numbers. -/
theorem toNat_packComponents (s : Sign) (E : BitVec 11) (M : BitVec 52) :
    (packComponents Format.binary64 s E M).toNat =
      s.toBitVec.toNat * 2 ^ 63 + E.toNat * 2 ^ 52 + M.toNat := by
  have hM : M.toNat < 2 ^ 52 := M.isLt
  have hE : E.toNat < 2 ^ 11 := E.isLt
  show (s.toBitVec ++ E ++ M).toNat = _
  rw [BitVec.toNat_append, ← Nat.shiftLeft_add_eq_or_of_lt hM, BitVec.toNat_append,
    ← Nat.shiftLeft_add_eq_or_of_lt hE, Nat.shiftLeft_eq, Nat.shiftLeft_eq]
  ring

/-- The bits of a double are those of its unpacked form. -/
theorem toNat_toBits (x : Float) :
    x.toBits.toNat = (UnpackedFloat.pack Format.binary64 x.toModel.unpack).toNat :=
  congrArg BitVec.toNat (pack_unpack x.toModel.valid).symm

/-- The key of a number that is packed without a sign. -/
theorem orderKey_of_bits {E : BitVec 11} {M : BitVec 52}
    (hx : UnpackedFloat.pack Format.binary64 x.toModel.unpack =
      packComponents Format.binary64 .positive E M) :
    orderKey x = E.toNat * 2 ^ 52 + M.toNat := by
  have hM : M.toNat < 2 ^ 52 := M.isLt
  have hE : E.toNat < 2 ^ 11 := E.isLt
  have hbits : x.toBits.toNat = E.toNat * 2 ^ 52 + M.toNat := by
    rw [toNat_toBits, hx, toNat_packComponents]
    show 0 * 2 ^ 63 + _ + _ = _
    omega
  unfold orderKey
  dsimp only
  rw [hbits, if_pos (by unfold signWeight; omega)]
  push_cast
  rfl

theorem orderKey_of_zero (hx : x.toModel.unpack = .zero .positive) : orderKey x = 0 := by
  rw [orderKey_of_bits (E := 0#11) (M := 0#52) (by rw [hx]; rfl)]
  rfl

theorem orderKey_of_infinity (hx : x.toModel.unpack = .infinity .positive) :
    orderKey x = 2047 * 2 ^ 52 := by
  rw [orderKey_of_bits (E := -1#11) (M := 0#52) (by rw [hx]; rfl)]
  rfl

theorem orderKey_of_notANumber (hx : x.toModel.unpack = .notANumber) :
    orderKey x = 2047 * 2 ^ 52 + 2 ^ 51 := by
  rw [orderKey_of_bits (E := -1#11) (M := 1#52 <<< 51) (by rw [hx]; rfl)]
  rfl

/-- **The key of a finite double**: the exponent, counted from the lowest one, and then the
mantissa. The leading place of a mantissa that has all its places moves the exponent up by
one, which is how the bits count it. -/
theorem orderKey_of_finite (hx : x.toModel.unpack = .finite .positive m e h) :
    orderKey x = (e + 1074) * 2 ^ 52 + m := by
  obtain ⟨-, hlt, hle, hfull⟩ := canonical_of_unpack hx
  have hmax : e ≤ 971 := exponent_le hx
  by_cases hm : 2 ^ 52 ≤ m
  · have hpack : UnpackedFloat.pack Format.binary64 x.toModel.unpack =
        packComponents Format.binary64 .positive
          (BitVec.ofNat 11 (e + 1075).toNat) (BitVec.ofNat 52 m) := by
      rw [hx]
      unfold UnpackedFloat.pack
      dsimp only
      rw [biased_eq, if_neg (by show ¬ 2048 ≤ _; omega),
        if_pos ((log2_add_one_eq_iff h hlt).2 hm)]
    rw [orderKey_of_bits hpack, BitVec.toNat_ofNat, BitVec.toNat_ofNat,
      Nat.mod_eq_of_lt (by omega), Nat.mod_eq_sub_mod hm, Nat.mod_eq_of_lt (by omega)]
    omega
  · have hlow : e = -1074 := hfull.resolve_left hm
    subst hlow
    have hpack : UnpackedFloat.pack Format.binary64 x.toModel.unpack =
        packComponents Format.binary64 .positive 0#11 (BitVec.ofNat 52 m) := by
      rw [hx]
      unfold UnpackedFloat.pack
      dsimp only
      rw [biased_eq, if_neg (by decide),
        if_neg fun hlog => hm ((log2_add_one_eq_iff h hlt).1 hlog)]
    have hmod : (BitVec.ofNat 52 m).toNat = m := by
      rw [BitVec.toNat_ofNat, Nat.mod_eq_of_lt (by omega)]
    rw [orderKey_of_bits hpack, hmod]
    simp

/-! ## Doubles without a sign -/

/-- A double without a sign: a NaN, or a number from zero on. -/
inductive Unsigned : UnpackedFloat → Prop where
  | notANumber : Unsigned .notANumber
  | zero : Unsigned (.zero .positive)
  | infinity : Unsigned (.infinity .positive)
  | finite (m : ℕ) (e : ℤ) (h : 0 < m) : Unsigned (.finite .positive m e h)

/-- Doubles without a sign come from zero on. -/
theorem orderKey_nonneg (hx : Unsigned x.toModel.unpack) : 0 ≤ orderKey x := by
  generalize hu : x.toModel.unpack = u at hx
  cases hx with
  | notANumber => rw [orderKey_of_notANumber hu]; omega
  | zero => rw [orderKey_of_zero hu]
  | infinity => rw [orderKey_of_infinity hu]; omega
  | finite m e h =>
    have hle := (canonical_of_unpack hu).le
    rw [orderKey_of_finite hu]
    omega

/-- **Only the zero without a sign has the key zero.** -/
theorem orderKey_eq_zero_iff : orderKey x = 0 ↔ x = 0 := by
  have hzero : orderKey 0 = 0 := orderKey_of_zero unpack_zero
  constructor
  · intro h
    exact orderKey_injective (h.trans hzero.symm)
  · intro h
    rw [h, hzero]

end NearestNeighbors.Binary64
