import NearestNeighbors.Proofs.Binary64.Closest

/-!
# Shares

The share of `c` in `n` is a quotient of two natural numbers that are rounded first, and is
rounded itself. It still lies between zero and one, since rounding keeps the order, and only
nothing has no share. Up to `2 ^ 53` both numbers are exact, and what is missing from one is more
than the step of the doubles below one, so that only the whole has the share one.

* `Equals.lt_iff`, `Equals.zero_lt`: comparing positive doubles compares their values.
* `Share`, `share_ofNat`: the quotient of two sizes.
-/

namespace NearestNeighbors.Binary64

open Float.Model Float.Model.UnpackedFloat

variable {x y : Float} {v w : ℚ} {c n : ℕ}

/-! ## Comparing values -/

theorem Equals.isNaN (hx : Equals x v) : x.isNaN = false := by
  obtain ⟨m, e, h, hx, -⟩ := hx
  show x.toModel.unpack.isNaN = false
  rw [hx]
  rfl

/-- Positive doubles have the order of their values. -/
theorem Equals.le_iff_le (hx : Equals x v) (hy : Equals y w) : x ≤ y ↔ v ≤ w :=
  (hx.le_iff hy).trans (hx.orderKey_le_iff hy)

theorem Equals.lt_iff (hx : Equals x v) (hy : Equals y w) : x < y ↔ v < w := by
  rw [← not_iff_not, not_lt_iff, hx.isNaN, hy.isNaN, hy.le_iff_le hx, not_lt]
  simp only [Bool.false_eq_true, false_or]

theorem Equals.zero_lt (hx : Equals x v) : 0 < x := by
  obtain ⟨m, e, h, hx, -⟩ := hx
  rw [lt_iff_compare, unpack_zero, hx]
  rfl

theorem zero_le_of_zero_lt (hx : 0 < x) : 0 ≤ x := by
  rw [lt_iff_compare] at hx
  rw [le_iff_compare, hx]
  rfl

/-! ## Quotients of sizes -/

/-- Nothing divided by a positive double is nothing. -/
theorem Equals.zero_div (hx : Equals x v) : 0 / x = 0 := by
  obtain ⟨m, e, h, hx, -⟩ := hx
  apply eq_of_unpack_eq
  show (Float.Model.pack (UnpackedFloat.div Format.binary64 (0 : Float).toModel.unpack
    x.toModel.unpack)).unpack = _
  rw [hx, unpack_zero]
  exact unpack_pack_zero .positive

/-- A positive size is one at least, and a size is less than twice the largest one. -/
theorem Equals.between_of_ofNat (hx : Equals (Float.ofNat n) v) (hn : 0 < n) (hle : n ≤ 2 ^ 64) :
    1 ≤ v ∧ v ≤ 2 ^ 64 := by
  have hone : Equals (Float.ofNat 1) (1 : ℕ) := equals_ofNat one_pos (by norm_num)
  have hlarge : Equals (Float.ofNat (2 ^ 64)) ((1 : ℕ) * 2 ^ (64 : ℤ)) := by
    apply equals_of_nearest one_pos (by norm_num) (by norm_num) (by norm_num)
    rw [unpack_ofNat]
    norm_num
  have hlow := (hone.orderKey_le_iff hx).1 (orderKey_ofNat_le hn)
  have hhigh := (hx.orderKey_le_iff hlarge).1 (orderKey_ofNat_le hle)
  norm_num at hlow hhigh ⊢
  exact ⟨hlow, hhigh⟩

/-- **A part of a size** has a positive share of it, and one at most. -/
theorem exists_equals_div (hc : 0 < c) (hcn : c ≤ n) (hn : n ≤ 2 ^ 64) :
    ∃ w, Equals (Float.ofNat c / Float.ofNat n) w ∧ w ≤ 1 := by
  obtain ⟨s, hs⟩ := ofNat_finite hc (hcn.trans hn)
  obtain ⟨t, ht⟩ := ofNat_finite (hc.trans_le hcn) hn
  have hquot : (Float.ofNat c / Float.ofNat n).toModel.unpack = nearest .positive (s / t) :=
    hs.unpack_div ht
  have hpart : s / t ≤ 1 := by
    rw [div_le_one ht.pos]
    exact (hs.orderKey_le_iff ht).1 (orderKey_ofNat_le hcn)
  -- the quotient does not vanish: it is not below the double `2 ^ -64`
  have hlow : ((1 : ℕ) : ℚ) * 2 ^ (-64 : ℤ) ≤ s / t := by
    obtain ⟨hone, -⟩ := hs.between_of_ofNat hc (hcn.trans hn)
    obtain ⟨-, hmax⟩ := ht.between_of_ofNat (hc.trans_le hcn) hn
    rw [le_div_iff₀ ht.pos]
    calc ((1 : ℕ) : ℚ) * 2 ^ (-64 : ℤ) * t ≤ 1 * 2 ^ (-64 : ℤ) * 2 ^ 64 := by
          rw [Nat.cast_one]
          gcongr
      _ = 1 := by norm_num
      _ ≤ s := hone
  obtain ⟨y, hy⟩ := exists_equals (n := 1) (t := -64) one_pos (by norm_num) (by norm_num)
    (by norm_num)
  have hkey := orderKey_le_of_nearest hy.pos.le hlow hy.unpack_eq hquot
  have hkey' := orderKey_le_of_nearest (div_pos hs.pos ht.pos).le hpart hquot equals_one.unpack_eq
  have hy := hy.orderKey_between
  have hone := equals_one.orderKey_between
  have hunsigned : Unsigned (Float.ofNat c / Float.ofNat n).toModel.unpack := by
    rw [hquot]
    exact unsigned_nearest _
  rcases unsigned_cases hunsigned (hkey'.trans hone.2.le) with h | h | ⟨w, hw⟩
  · rw [orderKey_of_zero h] at hkey
    omega
  · rw [orderKey_of_infinity h] at hkey'
    omega
  · exact ⟨w, hw, (hw.orderKey_le_iff equals_one).1 hkey'⟩

/-- **A share**: what the quotient `x` of the sizes `c` and `n` says about them. -/
structure Share (c n : ℕ) (x : Float) : Prop where
  zero_le : 0 ≤ x
  le_one : x ≤ 1
  eq_zero_iff : x = 0 ↔ c = 0
  pos_iff : 0 < x ↔ 0 < c
  eq_one_iff : n ≤ 2 ^ 53 → (x = 1 ↔ c = n)
  lt_one_iff : n ≤ 2 ^ 53 → (x < 1 ↔ c < n)
  closest : n ≤ 2 ^ 53 → Closest (c / n) x

/-- The least number that is missing from one is a double. -/
theorem lt_one_of_part (hc : 0 < c) (hcn : c < n) (hn : n ≤ 2 ^ 53) :
    Float.ofNat c / Float.ofNat n < 1 := by
  have hs : Equals (Float.ofNat c) c := equals_ofNat hc (by omega)
  have ht : Equals (Float.ofNat n) n := equals_ofNat (by omega) hn
  obtain ⟨w, hw, -⟩ := exists_equals_div hc hcn.le (by omega)
  obtain ⟨y, hy⟩ := exists_equals (n := 2 ^ 53 - 1) (t := -53) (by norm_num) (by norm_num)
    (by norm_num) (by norm_num)
  have hpart : (c : ℚ) / n ≤ (2 ^ 53 - 1 : ℕ) * 2 ^ (-53 : ℤ) := by
    have hmissing : (c : ℚ) + 1 ≤ n := by exact_mod_cast hcn
    have hsmall : (n : ℚ) ≤ 2 ^ 53 := by exact_mod_cast hn
    rw [div_le_iff₀ ht.pos]
    norm_num
    linarith
  have hle := (hw.orderKey_le_iff hy).1
    (orderKey_le_of_nearest (div_pos hs.pos ht.pos).le hpart (hs.unpack_div ht) hy.unpack_eq)
  refine (hw.lt_iff equals_one).2 (hle.trans_lt ?_)
  norm_num

theorem one_not_lt_one : ¬ (1 : Float) < 1 := fun h =>
  absurd ((equals_one.lt_iff equals_one).1 h) (lt_irrefl _)

theorem zero_not_lt_zero : ¬ (0 : Float) < 0 := by
  rw [lt_iff_compare, unpack_zero]
  nofun

/-- **The quotient of two sizes** is the share of the first in the second. -/
theorem share_ofNat (hcn : c ≤ n) (hpos : 0 < n) (hn : n ≤ 2 ^ 64) :
    Share c n (Float.ofNat c / Float.ofNat n) := by
  rcases Nat.eq_zero_or_pos c with rfl | hc
  · obtain ⟨t, ht⟩ := ofNat_finite hpos hn
    have hzero : Float.ofNat 0 / Float.ofNat n = 0 := ht.zero_div
    have hlt := equals_one.zero_lt
    have hne : (0 : Float) ≠ 1 := by
      intro h
      rw [h] at hlt
      exact one_not_lt_one hlt
    rw [hzero]
    refine ⟨?_, zero_le_of_zero_lt hlt, iff_of_true rfl rfl, iff_of_false zero_not_lt_zero
      (by omega), fun _ => iff_of_false hne (by omega), fun _ => iff_of_true hlt hpos, fun _ => ?_⟩
    · rw [le_iff_compare, unpack_zero]
      rfl
    · have hnothing : ((0 : ℕ) : ℝ) / n = 0 := by simp
      rw [hnothing]
      exact closest_zero
  · obtain ⟨w, hw, hle⟩ := exists_equals_div hc hcn hn
    have hlt := hw.zero_lt
    have hself : c = n → Float.ofNat c / Float.ofNat n = 1 := by
      rintro rfl
      exact ofNat_div_self hc hn
    have hpart : n ≤ 2 ^ 53 → c < n → Float.ofNat c / Float.ofNat n < 1 := fun hsmall hcn' =>
      lt_one_of_part hc hcn' hsmall
    have hne : Float.ofNat c / Float.ofNat n ≠ 0 := by
      intro h
      rw [h] at hlt
      exact zero_not_lt_zero hlt
    refine ⟨zero_le_of_zero_lt hlt, (hw.le_iff_le equals_one).2 hle,
      iff_of_false hne (by omega), iff_of_true hlt hc, fun hsmall => ⟨fun h => ?_, hself⟩,
      fun hsmall => ⟨fun h => ?_, hpart hsmall⟩, fun hsmall => ?_⟩
    · by_contra hcn'
      have := hpart hsmall (lt_of_le_of_ne hcn hcn')
      rw [h] at this
      exact one_not_lt_one this
    · by_contra hcn'
      rw [hself (by omega)] at h
      exact one_not_lt_one h
    · have hs : Equals (Float.ofNat c) c := equals_ofNat hc (by omega)
      have ht : Equals (Float.ofNat n) n := equals_ofNat hpos hsmall
      have hcn' : (c : ℚ) ≤ n := by exact_mod_cast hcn
      have hclosest : Closest ((c / n : ℚ) : ℝ) (Float.ofNat c / Float.ofNat n) :=
        closest_of_le_one (div_pos hs.pos ht.pos).le ((div_le_one ht.pos).2 hcn')
          (hs.unpack_div ht)
      push_cast at hclosest
      exact hclosest

end NearestNeighbors.Binary64
