import NearestNeighbors.Proofs.Binary64.Natural

/-!
# Parts of a number

A number moves by half a unit in its last place at most when it is rounded. From one on this is
less than what a fraction takes away: a part of a number is less than the number, also after
rounding. A size may itself have been rounded up, and still its part is no larger than the size.

* `abs_roundEven_sub_le`, `Equals.abs_sub_le`: the error of rounding.
* `Equals.le_of_lt_one`: the largest fraction.
* `Equals.lt_of_mul`, `Equals.exists_mul`: the products of numbers and sizes with a fraction.
-/

namespace NearestNeighbors.Binary64

open Float.Model Float.Model.UnpackedFloat

variable {x a : Float} {v w s : ℚ} {n : ℕ}

/-- The nearest natural number is at most a half away. -/
theorem abs_roundEven_sub_le (hv : 0 ≤ v) : |(roundEven v : ℚ) - v| ≤ 1 / 2 := by
  have hfloor : (⌊v⌋₊ : ℚ) ≤ v := Nat.floor_le hv
  have hceil : v < ⌊v⌋₊ + 1 := Nat.lt_floor_add_one v
  rw [abs_le]
  unfold roundEven
  split_ifs with hlt heq
  · constructor <;> linarith
  · -- half way, where one of the two neighbours is even
    rcases Nat.mod_two_eq_zero_or_one ⌊v⌋₊ with h | h
    · rw [h]
      push_cast
      constructor <;> linarith
    · rw [h]
      push_cast
      constructor <;> linarith
  · have hgt : 1 / 2 < v - ⌊v⌋₊ := lt_of_le_of_ne (not_lt.1 hlt) (Ne.symm heq)
    push_cast
    constructor <;> linarith

/-- A number that stays finite is not changed by the bound on exponents. -/
theorem eq_of_bounded {u : UnpackedFloat} {q : Sign} {m : ℕ} {e : ℤ} {h : 0 < m}
    (hu : bounded u = .finite q m e h) : u = .finite q m e h := by
  cases u with
  | finite q' m' e' h' =>
    unfold bounded at hu
    dsimp only at hu
    split_ifs at hu
    exact hu
  | _ => cases hu

/-- A finite nearest double has the rounded number of units in the last place. -/
theorem Equals.eq_units (hw : Equals x w) (hx : x.toModel.unpack = nearest .positive v) :
    w = units v * 2 ^ place v := by
  obtain ⟨m, e, h, hm, rfl⟩ := hw
  have hunits : ofUnits .positive (units v) (place v) = .finite .positive m e h :=
    eq_of_bounded (hx.symm.trans hm)
  unfold ofUnits at hunits
  split_ifs at hunits with h0 hfull
  · -- one place too many, which is a zero
    cases hunits
    rw [hfull, zpow_add_one₀ two_ne_zero]
    push_cast
    ring
  · cases hunits
    rfl

/-- The unit in the last place of a number is small, beside the number or at all. -/
theorem two_zpow_place_le (hv : 0 < v) :
    (2 : ℚ) ^ place v ≤ v * 2 ^ (-52 : ℤ) + 2 ^ (-1074 : ℤ) := by
  have hlow : (0 : ℚ) < 2 ^ (-1074 : ℤ) := by positivity
  have hpart : 0 < v * 2 ^ (-52 : ℤ) := by positivity
  unfold place
  rcases max_cases (Int.log 2 v - 52) (-1074) with ⟨h, -⟩ | ⟨h, -⟩
  · have hlog : (2 : ℚ) ^ Int.log 2 v ≤ v := by exact_mod_cast Int.zpow_log_le_self one_lt_two hv
    rw [h, sub_eq_add_neg, zpow_add₀ two_ne_zero]
    have := mul_le_mul_of_nonneg_right hlog (by positivity : (0 : ℚ) ≤ 2 ^ (-52 : ℤ))
    linarith
  · rw [h]
    linarith

/-- **The error of rounding** is one part in `2 ^ 53`, and half of the least double where that is
more. -/
theorem Equals.abs_sub_le (hw : Equals x w) (hv : 0 < v)
    (hx : x.toModel.unpack = nearest .positive v) :
    |w - v| ≤ v * 2 ^ (-53 : ℤ) + 2 ^ (-1075 : ℤ) := by
  have hpow : (0 : ℚ) < 2 ^ place v := by positivity
  have hround : |(units v : ℚ) - v / 2 ^ place v| ≤ 1 / 2 := abs_roundEven_sub_le (by positivity)
  have hdiff : w - v = (units v - v / 2 ^ place v) * 2 ^ place v := by
    rw [hw.eq_units hx, sub_mul, div_mul_cancel₀ _ hpow.ne']
  have hhalf : ∀ k : ℤ, (2 : ℚ) ^ (k - 1) = 2 ^ k / 2 := fun k => zpow_sub_one₀ two_ne_zero k
  calc |w - v| = |(units v : ℚ) - v / 2 ^ place v| * 2 ^ place v := by
        rw [hdiff, abs_mul, abs_of_pos hpow]
    _ ≤ 1 / 2 * 2 ^ place v := mul_le_mul_of_nonneg_right hround hpow.le
    _ ≤ 1 / 2 * (v * 2 ^ (-52 : ℤ) + 2 ^ (-1074 : ℤ)) := by
        exact mul_le_mul_of_nonneg_left (two_zpow_place_le hv) (by norm_num)
    _ = v * 2 ^ (-53 : ℤ) + 2 ^ (-1075 : ℤ) := by
        rw [show (-53 : ℤ) = -52 - 1 by norm_num, show (-1075 : ℤ) = -1074 - 1 by norm_num,
          hhalf, hhalf]
        ring

/-! ## Fractions -/

/-- A fraction is a positive double. -/
theorem exists_equals_of_fraction (h₀ : 0 < x) (h₁ : x < 1) : ∃ v, Equals x v := by
  obtain ⟨m, e, h, hx⟩ := unpack_of_between h₀ h₁
  exact ⟨_, m, e, h, hx, rfl⟩

theorem equals_one : Equals 1 1 := ⟨_, _, _, unpack_one, by norm_num⟩

/-- A positive double below one has a value below one. -/
theorem Equals.lt_one (hx : Equals x v) (h : x < 1) : v < 1 := by
  by_contra hle
  have hge : (1 : Float) ≤ x :=
    (equals_one.le_iff hx).2 ((equals_one.orderKey_le_iff hx).2 (not_lt.1 hle))
  exact (not_lt_iff x 1).2 (.inr (.inr hge)) h

/-- **The largest fraction** is one unit of `2 ^ -53` below one. -/
theorem Equals.le_of_lt_one (hx : Equals x v) (h : x < 1) : v ≤ 1 - 2 ^ (-53 : ℤ) := by
  have hlt := hx.lt_one h
  obtain ⟨m, e, hm, hx, rfl⟩ := hx
  have hmax : m < 2 ^ 53 := (canonical_of_unpack hx).lt
  rcases le_or_gt (-53) e with he | he
  · -- a whole number of units of `2 ^ -53`
    obtain ⟨k, rfl⟩ : ∃ k : ℕ, e = k - 53 := ⟨(e + 53).toNat, by omega⟩
    have hunits : (m : ℚ) * 2 ^ ((k : ℤ) - 53) = (m * 2 ^ k : ℕ) * 2 ^ (-53 : ℤ) := by
      rw [sub_eq_add_neg, zpow_add₀ two_ne_zero, zpow_natCast]
      push_cast
      ring
    rw [hunits] at hlt ⊢
    have hlt' : m * 2 ^ k < 2 ^ 53 := by
      have : ((m * 2 ^ k : ℕ) : ℚ) < 2 ^ 53 := by
        norm_num at hlt ⊢
        linarith
      exact_mod_cast this
    have hle : ((m * 2 ^ k : ℕ) : ℚ) + 1 ≤ 2 ^ 53 := by exact_mod_cast hlt'
    norm_num at hle ⊢
    linarith
  · -- at most a half
    have hsmall : (2 : ℚ) ^ e ≤ 2 ^ (-54 : ℤ) := zpow_le_zpow_right₀ one_le_two (by omega)
    have hmax' : (m : ℚ) ≤ 2 ^ 53 := by exact_mod_cast hmax.le
    calc (m : ℚ) * 2 ^ e ≤ 2 ^ 53 * 2 ^ (-54 : ℤ) := by gcongr
      _ ≤ 1 - 2 ^ (-53 : ℤ) := by norm_num

/-- **A fraction of a number** from one on is less than the number, also after rounding. -/
theorem Equals.lt_of_mul (ha : Equals a s) (hs : 1 ≤ s) (hx : Equals x v) (h : x < 1)
    (hw : Equals (a * x) w) : w < s := by
  have hv : v ≤ 1 - 2 ^ (-53 : ℤ) := hx.le_of_lt_one h
  have hround := (abs_le.1 (hw.abs_sub_le (mul_pos ha.pos hx.pos) (ha.unpack_mul hx))).2
  have htiny : (2 : ℚ) ^ (-1075 : ℤ) < 2 ^ (-106 : ℤ) :=
    zpow_lt_zpow_right₀ one_lt_two (by norm_num)
  have hsquare : (2 : ℚ) ^ (-106 : ℤ) = 2 ^ (-53 : ℤ) * 2 ^ (-53 : ℤ) := by norm_num
  have hunit : (0 : ℚ) < 2 ^ (-53 : ℤ) := by positivity
  generalize (2 : ℚ) ^ (-53 : ℤ) = u at *
  calc w ≤ s * v * (1 + u) + 2 ^ (-1075 : ℤ) := by linarith
    _ ≤ s * (1 - u) * (1 + u) + 2 ^ (-1075 : ℤ) := by gcongr
    _ < s * (1 - u) * (1 + u) + u * u := by linarith
    _ ≤ s * (1 - u) * (1 + u) + s * (u * u) := by
        have := mul_le_mul_of_nonneg_right hs (mul_pos hunit hunit).le
        linarith
    _ = s := by ring

/-- **The product of a size and a fraction** is a positive double and no larger than the size,
whether the size is a double or not. -/
theorem Equals.exists_mul (hx : Equals x v) (h : x < 1) (hn : 0 < n) (hle : n ≤ 2 ^ 64) :
    ∃ w, Equals (Float.ofNat n * x) w ∧ w ≤ n := by
  obtain ⟨s, hs⟩ := ofNat_finite hn hle
  have hone : (1 : ℚ) ≤ s := by
    have h1 : Equals (Float.ofNat 1) (1 : ℕ) := equals_ofNat one_pos (by norm_num)
    exact_mod_cast (h1.orderKey_le_iff hs).1 (orderKey_ofNat_le hn)
  have hprod : (Float.ofNat n * x).toModel.unpack = nearest .positive (s * v) := hs.unpack_mul hx
  -- the product is not rounded to more than the size is, and not to nothing
  have hkey : orderKey (Float.ofNat n * x) ≤ orderKey (Float.ofNat n) := by
    have hpart : s * v ≤ s := mul_le_of_le_one_right hs.pos.le (hx.lt_one h).le
    exact orderKey_le_of_nearest (mul_pos hs.pos hx.pos).le hpart hprod hs.unpack_eq
  have hfinite : ∃ w, Equals (Float.ofNat n * x) w := by
    obtain ⟨m, e, hm, hx, -⟩ := hx
    rcases positive_mul (ofNat_atLeastOne hn) hx with hinf | ⟨m', e', hm', hy⟩
    · rw [orderKey_of_infinity hinf] at hkey
      exact absurd (hkey.trans_lt hs.orderKey_between.2) (lt_irrefl _)
    · exact ⟨_, m', e', hm', hy, rfl⟩
  obtain ⟨w, hw⟩ := hfinite
  refine ⟨w, hw, ?_⟩
  by_contra hgt
  -- a double between the size and its rounding would be the rounding
  have hback : orderKey (Float.ofNat n) ≤ orderKey (Float.ofNat n * x) :=
    orderKey_le_of_nearest n.cast_nonneg (not_le.1 hgt).le (unpack_ofNat n) hw.unpack_eq
  exact not_lt.2 ((hs.orderKey_le_iff hw).1 hback) (hs.lt_of_mul hone hx h hw)

end NearestNeighbors.Binary64
