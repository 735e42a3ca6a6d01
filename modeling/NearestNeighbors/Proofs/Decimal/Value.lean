import NearestNeighbors.Decimal.Basic
import NearestNeighbors.Proofs.Binary64.Value

/-!
# Reading a decimal is nearest

Small decimals are read by one product or quotient of doubles, large ones by exact
arithmetic, and those that are out of range without any. All three give the double nearest
to the number that the decimal denotes, so decimals of one value are read alike.

* `Decimal.value`: the number.
* `unpack_toFloat`: reading a decimal is nearest.
* `toFloat_congr`: decimals of one value.
-/

namespace NearestNeighbors

open Float.Model Float.Model.UnpackedFloat
open Binary64

namespace Binary64

/-! ## Powers of ten -/

/-- The mantissa of `10 ^ k` where it has 53 places at most. -/
def powerMantissa (k : ℕ) : ℕ := 10 ^ k * 2 ^ 52 / 2 ^ Nat.log2 (10 ^ k)

theorem powerMantissa_pos : ∀ k : Fin 23, 0 < powerMantissa k := by
  decide

theorem powerMantissa_mul : ∀ k : Fin 23,
    powerMantissa k * 2 ^ Nat.log2 (10 ^ k.1) = 10 ^ k.1 * 2 ^ 52 := by
  decide

/-- The powers of ten up to `10 ^ 22` are doubles. -/
theorem unpack_powersOfTen (k : Fin 23) :
    (getElem Float.exactlyRepresentablePowersOfTen k.1 k.2).toModel.unpack =
      .finite .positive (powerMantissa k) (Nat.log2 (10 ^ k.1) - 52) (powerMantissa_pos k) := by
  fin_cases k <;> rfl

theorem equals_powersOfTen {k : ℕ} (hk : k < 23) :
    Equals (getElem Float.exactlyRepresentablePowersOfTen k hk) (10 ^ k) := by
  refine ⟨_, _, _, unpack_powersOfTen ⟨k, hk⟩, ?_⟩
  have hmul : ((powerMantissa k : ℕ) : ℚ) * 2 ^ Nat.log2 (10 ^ k) = 10 ^ k * 2 ^ 52 := by
    exact_mod_cast powerMantissa_mul ⟨k, hk⟩
  rw [zpow_sub₀ two_ne_zero, zpow_natCast, ← mul_div_assoc, hmul]
  exact mul_div_cancel_right₀ _ (by norm_num)

end Binary64

/-! ## Decimals -/

namespace Decimal

/-- The number `digits · 10 ^ exponent`. -/
def value (d : Decimal) : ℚ := d.digits * 10 ^ d.exponent

variable {n : ℕ} {e : ℤ}

/-- Large exponents and large negative ones are out of range. -/
theorem nearest_of_large (hn : n ≠ 0) (he : 2048 < e) :
    nearest .positive (n * 10 ^ e) = .infinity .positive := by
  refine nearest_eq_infinity .positive ?_
  have hone : (1 : ℚ) ≤ n := by exact_mod_cast Nat.pos_of_ne_zero hn
  calc (2 : ℚ) ^ (1024 : ℤ) ≤ 2 ^ e := zpow_le_zpow_right₀ one_le_two (by omega)
    _ ≤ 10 ^ e := zpow_le_zpow_left₀ (by omega) zero_le_two (by norm_num)
    _ ≤ n * 10 ^ e := le_mul_of_one_le_left (by positivity) hone

theorem nearest_of_small (hn : n ≠ 0) (he : e < -(2048 + (n.log2 : ℤ))) :
    nearest .positive (n * 10 ^ e) = .zero .positive := by
  have hpos : (0 : ℚ) < n := by exact_mod_cast Nat.pos_of_ne_zero hn
  refine nearest_eq_zero .positive (by positivity) ?_
  have hlog : (n : ℚ) < 2 ^ ((n.log2 : ℤ) + 1) := by
    exact_mod_cast Nat.lt_log2_self (n := n)
  have hten : (10 : ℚ) ^ e ≤ 2 ^ e := by
    have hinv : (2 : ℚ) ^ (-e).toNat ≤ 10 ^ (-e).toNat :=
      pow_le_pow_left₀ zero_le_two (by norm_num) _
    have hexp : e = -((-e).toNat : ℤ) := by omega
    rw [hexp, zpow_neg, zpow_neg, zpow_natCast, zpow_natCast]
    exact inv_anti₀ (by positivity) hinv
  calc (n : ℚ) * 10 ^ e ≤ n * 2 ^ e := by gcongr
    _ < 2 ^ ((n.log2 : ℤ) + 1) * 2 ^ e := by gcongr
    _ = 2 ^ ((n.log2 : ℤ) + 1 + e) := (zpow_add₀ two_ne_zero _ _).symm
    _ ≤ 2 ^ (-1075 : ℤ) := zpow_le_zpow_right₀ one_le_two (by omega)

/-- Moved up by 53 places, a number has the same value. -/
theorem shiftLeft_value (n : ℕ) : ((n <<< 53 : ℕ) : ℚ) * 2 ^ (-53 : ℤ) = n := by
  rw [Nat.shiftLeft_eq, Nat.cast_mul, Nat.cast_pow, Nat.cast_ofNat, mul_assoc, ← zpow_natCast,
    ← zpow_add₀ two_ne_zero]
  norm_num

theorem product_value (n : ℕ) (he : 0 ≤ e) :
    ((n <<< 53 : ℕ) : ℚ) * 2 ^ (-53 : ℤ) * ((10 ^ e.toNat : ℕ) * 2 ^ (0 : ℤ)) = n * 10 ^ e := by
  have hten : (10 : ℚ) ^ e = (10 ^ e.toNat : ℕ) := by
    have hcast := zpow_natCast (10 : ℚ) e.toNat
    rw [Int.toNat_of_nonneg he] at hcast
    exact_mod_cast hcast
  rw [shiftLeft_value, hten, zpow_zero, mul_one]

/-- Moved up by 53 places, a product has more of them than are kept. -/
theorem le_place_product {k : ℕ} (hn : 0 < n) : -53 + (0 : ℤ) ≤
    place ((n <<< 53 : ℕ) * 2 ^ (-53 : ℤ) * ((10 ^ k : ℕ) * 2 ^ (0 : ℤ))) := by
  have hunit : ((n <<< 53 : ℕ) : ℚ) * 2 ^ (-53 : ℤ) * ((10 ^ k : ℕ) * 2 ^ (0 : ℤ)) =
      (n * 10 ^ k : ℕ) * 2 ^ (0 : ℤ) := by
    rw [shiftLeft_value]
    push_cast
    ring
  rw [hunit, place_mul (Nat.mul_pos hn (by positivity))]
  unfold lastPlace
  omega

theorem quotient_value (n : ℕ) (he : e < 0) :
    (n : ℚ) * 2 ^ (0 : ℤ) / ((10 ^ (-e).toNat : ℕ) * 2 ^ (0 : ℤ)) = n * 10 ^ e := by
  have hten : (10 : ℚ) ^ e = ((10 ^ (-e).toNat : ℕ) : ℚ)⁻¹ := by
    have hcast := zpow_natCast (10 : ℚ) (-e).toNat
    rw [Int.toNat_of_nonneg (by omega), zpow_neg] at hcast
    rw [← inv_inj, inv_inv, hcast]
    push_cast
    rfl
  rw [hten, zpow_zero, mul_one, mul_one, div_eq_mul_inv]

/-- Exact arithmetic: one product or quotient of whole numbers. -/
theorem unpack_ofScientific (n : ℕ) (e : ℤ) :
    (Float.Model.ofScientific n e).unpack = nearest .positive (n * 10 ^ e) := by
  unfold Float.Model.ofScientific UnpackedFloat.ofScientific
  have hbits : (2 : ℤ) ^ Format.binary64.exponentBits = 2048 := rfl
  rw [hbits]
  by_cases hn : n = 0
  · rw [dif_pos hn, hn, Nat.cast_zero, zero_mul, nearest_zero]
    rfl
  have hpos : 0 < n := Nat.pos_of_ne_zero hn
  rw [dif_neg hn]
  split_ifs with hlarge hsmall hle
  · rw [nearest_of_large hn hlarge]
    rfl
  · rw [nearest_of_small hn hsmall]
    rfl
  · have hpos' : 0 < n <<< 53 := by
      rw [Nat.shiftLeft_eq]
      positivity
    rw [← product_value n hle]
    exact unpack_pack_mul .positive .positive hpos' (by positivity) (le_place_product hpos)
  · rw [← quotient_value n (not_le.1 hle)]
    exact unpack_pack_div .positive .positive hpos (by positivity)

/-- Small whole numbers and small powers of ten: one product or quotient of doubles. -/
theorem unpack_mul_powersOfTen {k : ℕ} (hn : n < 2 ^ 53) (hk : k < 23) :
    (n.toUInt64.toFloat * getElem Float.exactlyRepresentablePowersOfTen k hk).toModel.unpack =
      nearest .positive (n * 10 ^ k) := by
  have hpow := equals_powersOfTen hk
  rcases Nat.eq_zero_or_pos n with rfl | hpos
  · obtain ⟨m, e, h, hpow, -⟩ := hpow
    rw [Nat.cast_zero, zero_mul, nearest_zero]
    show (Float.Model.pack (UnpackedFloat.mul Format.binary64 (.zero .positive) _)).unpack = _
    rw [hpow]
    exact unpack_pack_zero .positive
  · exact (equals_toFloat hpos hn).unpack_mul hpow

theorem unpack_div_powersOfTen {k : ℕ} (hn : n < 2 ^ 53) (hk : k < 23) :
    (n.toUInt64.toFloat / getElem Float.exactlyRepresentablePowersOfTen k hk).toModel.unpack =
      nearest .positive (n / 10 ^ k) := by
  have hpow := equals_powersOfTen hk
  rcases Nat.eq_zero_or_pos n with rfl | hpos
  · obtain ⟨m, e, h, hpow, -⟩ := hpow
    rw [Nat.cast_zero, zero_div, nearest_zero]
    show (Float.Model.pack (UnpackedFloat.div Format.binary64 (.zero .positive) _)).unpack = _
    rw [hpow]
    exact unpack_pack_zero .positive
  · exact (equals_toFloat hpos hn).unpack_div hpow

/-- **Reading a decimal is nearest** to the number it denotes. -/
theorem unpack_toFloat (d : Decimal) : d.toFloat.toModel.unpack = nearest .positive d.value := by
  obtain ⟨n, e⟩ := d
  unfold toFloat Float.ofScientific value
  dsimp only
  by_cases hfast : n < 2 ^ 53 ∧ e.natAbs ≤ 22
  · rw [dif_pos hfast]
    by_cases he : e < 0
    · have hexp : (10 : ℚ) ^ e = (10 ^ e.natAbs)⁻¹ := by
        rw [← zpow_natCast, ← zpow_neg]
        congr 1
        omega
      rw [if_pos (decide_eq_true he), hexp, ← div_eq_mul_inv]
      exact unpack_div_powersOfTen hfast.1 (by omega)
    · have hexp : (10 : ℚ) ^ e = 10 ^ e.natAbs := by
        rw [← zpow_natCast]
        congr 1
        omega
      rw [if_neg (by simpa using he), hexp]
      exact unpack_mul_powersOfTen hfast.1 (by omega)
  · have hexp : (if decide (e < 0) = true then Int.negOfNat e.natAbs else Int.ofNat e.natAbs) =
        e := by
      by_cases he : e < 0
      · rw [if_pos (decide_eq_true he), Int.negOfNat_eq, Int.ofNat_eq_natCast]
        omega
      · rw [if_neg (by simpa using he), Int.ofNat_eq_natCast]
        omega
    rw [dif_neg hfast, hexp]
    exact unpack_ofScientific n e

/-- Decimals of one value are read alike. -/
theorem toFloat_congr {d d' : Decimal} (h : d.value = d'.value) : d.toFloat = d'.toFloat := by
  refine eq_of_unpack_eq ?_
  rw [unpack_toFloat, unpack_toFloat, h]

end Decimal

end NearestNeighbors
