import NearestNeighbors.Proofs.Binary64.Monotone
import NearestNeighbors.Proofs.Decimal.Value

/-!
# Natural numbers as doubles

A natural number is read as the double nearest to it, so larger numbers are no smaller
doubles. Numbers of 53 places are doubles themselves, in any units that are neither too small
nor too large.

* `unpack_ofNat`, `orderKey_ofNat_le`: natural numbers and their order.
* `exists_equals`, `equals_ofNat`: numbers of 53 places.
* `Equals.le_natCast`, `Equals.natCast_le`: rounding does not cross them.
* `ofNat_div_self`: a number divided by itself.
-/

namespace NearestNeighbors.Binary64

open Float.Model Float.Model.UnpackedFloat

variable {x y : Float} {v w : ℚ} {n k : ℕ} {t : ℤ}

/-- **A natural number** is read as the double nearest to it. -/
theorem unpack_ofNat (n : ℕ) : (Float.ofNat n).toModel.unpack = nearest .positive n := by
  have hvalue : Decimal.value ⟨n, 0⟩ = n := by
    unfold Decimal.value
    rw [zpow_zero, mul_one]
  rw [← hvalue]
  exact Decimal.unpack_toFloat ⟨n, 0⟩

theorem unsigned_ofNat (n : ℕ) : Unsigned (Float.ofNat n).toModel.unpack := by
  rw [unpack_ofNat]
  exact unsigned_nearest n

/-- Larger numbers are no smaller doubles. -/
theorem orderKey_ofNat_le (h : n ≤ k) : orderKey (Float.ofNat n) ≤ orderKey (Float.ofNat k) := by
  have hcast : (n : ℚ) ≤ k := by exact_mod_cast h
  exact orderKey_le_of_nearest (Nat.cast_nonneg n) hcast (unpack_ofNat n) (unpack_ofNat k)

/-- No number is beyond infinity. -/
theorem orderKey_ofNat_le_infinity (n : ℕ) : orderKey (Float.ofNat n) ≤ 2047 * 2 ^ 52 := by
  rcases Nat.eq_zero_or_pos n with rfl | hn
  · have hzero := unpack_ofNat 0
    rw [Nat.cast_zero, nearest_zero] at hzero
    rw [orderKey_of_zero hzero]
    norm_num
  · have hpos : (0 : ℚ) < n := by exact_mod_cast hn
    rw [orderKey_of_nearest hpos (unpack_ofNat n)]
    exact min_le_right _ _

/-! ## Numbers of 53 places -/

/-- Numbers of 53 places are doubles. -/
theorem exists_equals (hn : 0 < n) (hle : n ≤ 2 ^ 53) (ht : -1022 ≤ t) (ht' : t ≤ 970) :
    ∃ x, Equals x (n * 2 ^ t) := by
  obtain ⟨m, e, hc, he, hvalue⟩ := exists_canonical hn hle ht ht'
  refine ⟨Float.ofModel (Float.Model.pack (.finite .positive m e hc.pos)), m, e, hc.pos, ?_, hvalue⟩
  have hunpack := unpack_pack_finite (s := .positive) (h := hc.pos) hc
  rw [if_neg (not_lt.2 he)] at hunpack
  exact hunpack

theorem equals_ofNat (hn : 0 < n) (hle : n ≤ 2 ^ 53) : Equals (Float.ofNat n) n := by
  have h := equals_of_nearest (x := Float.ofNat n) (t := 0) hn hle (by norm_num) (by norm_num)
  rw [zpow_zero, mul_one] at h
  exact h (unpack_ofNat n)

/-- **Rounding does not cross** a number of 53 places from below. -/
theorem Equals.le_natCast (hx : Equals x w) (hv : 0 ≤ v)
    (hround : x.toModel.unpack = nearest .positive v) (hn : n ≤ 2 ^ 53) (h : v ≤ n) : w ≤ n := by
  rcases Nat.eq_zero_or_pos n with rfl | hpos
  · -- nothing is rounded to nothing, which is no positive double
    obtain rfl : v = 0 := le_antisymm (by exact_mod_cast h) hv
    obtain ⟨m, e, hm, hx, -⟩ := hx
    cases hx.symm.trans (hround.trans (nearest_zero .positive))
  · have hnat : Equals (Float.ofNat n) n := equals_ofNat hpos hn
    exact (hx.orderKey_le_iff hnat).1 (orderKey_le_of_nearest hv h hround hnat.unpack_eq)

/-- **Rounding does not cross** a number of 53 places from above. -/
theorem Equals.natCast_le (hx : Equals x w) (hround : x.toModel.unpack = nearest .positive v)
    (hn : n ≤ 2 ^ 53) (h : n ≤ v) : n ≤ w := by
  rcases Nat.eq_zero_or_pos n with rfl | hpos
  · exact_mod_cast hx.pos.le
  · have hnat : Equals (Float.ofNat n) n := equals_ofNat hpos hn
    exact (hnat.orderKey_le_iff hx).1
      (orderKey_le_of_nearest n.cast_nonneg h hnat.unpack_eq hround)

/-- Sizes are finite doubles. -/
theorem ofNat_finite (hn : 0 < n) (hle : n ≤ 2 ^ 64) : ∃ v, Equals (Float.ofNat n) v := by
  have hlarge : Equals (Float.ofNat (2 ^ 64)) ((1 : ℕ) * 2 ^ (64 : ℤ)) := by
    apply equals_of_nearest one_pos (by norm_num) (by norm_num) (by norm_num)
    rw [unpack_ofNat]
    norm_num
  have hkey := (orderKey_ofNat_le hle).trans_lt hlarge.orderKey_between.2
  rcases ofNat_atLeastOne hn with h | ⟨m, e, h, hx, -⟩
  · rw [orderKey_of_infinity h] at hkey
    exact absurd hkey (lt_irrefl _)
  · exact ⟨_, m, e, h, hx, rfl⟩

/-- A size divided by itself is one. -/
theorem ofNat_div_self (hn : 0 < n) (hle : n ≤ 2 ^ 64) : Float.ofNat n / Float.ofNat n = 1 := by
  obtain ⟨v, hv⟩ := ofNat_finite hn hle
  have hone : Equals 1 (2 ^ 52 * 2 ^ (-52 : ℤ)) := ⟨_, _, _, unpack_one, by norm_num⟩
  apply eq_of_unpack_eq
  rw [hv.unpack_div hv, hone.unpack_eq, div_self hv.pos.ne']
  norm_num

end NearestNeighbors.Binary64
