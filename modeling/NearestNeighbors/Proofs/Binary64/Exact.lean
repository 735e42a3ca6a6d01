import NearestNeighbors.Proofs.Binary64.Natural

/-!
# Exact arithmetic

A finite double of either sign is an exact rational. A difference that is a whole number of 53
places is one as a double, too, and so are the square of a small whole number and the sum of
small natural numbers: none of them is rounded.

* `Exactly`: a finite double and its exact value.
* `unpack_pack_sub`, `unpack_pack_add`: differences and sums are rounded once.
* `Exactly.sub`, `Exactly.mul_self`, `ofNat_add`: differences, squares and sums that are exact.
-/

namespace NearestNeighbors.Binary64

open Float.Model Float.Model.UnpackedFloat

variable {x y : Float} {v w : ℚ} {z : ℤ} {a b : ℕ}

@[simp] theorem apply_positive (n : ℤ) : Sign.positive.apply n = n := rfl

@[simp] theorem apply_negative (n : ℤ) : Sign.negative.apply n = -n := rfl

@[simp] theorem apply_neg (s : Sign) (n : ℤ) : (-s).apply n = -s.apply n := by
  cases s
  · exact (neg_neg n).symm
  · rfl

/-- The number that a finite unpacked double is. -/
inductive IsValue : UnpackedFloat → ℚ → Prop where
  | zero (s : Sign) : IsValue (.zero s) 0
  | finite (s : Sign) (m : ℕ) (e : ℤ) (h : 0 < m) : IsValue (.finite s m e h) (s.apply m * 2 ^ e)

/-- The double `x` is finite, and it is exactly `v`. -/
def Exactly (x : Float) (v : ℚ) : Prop := IsValue x.toModel.unpack v

theorem Equals.exactly (hx : Equals x v) : Exactly x v := by
  obtain ⟨m, e, h, hx, rfl⟩ := hx
  have hvalue := IsValue.finite .positive m e h
  rw [apply_positive, Int.cast_natCast] at hvalue
  unfold Exactly
  rw [hx]
  exact hvalue

/-- Every finite double is some number exactly. -/
theorem exactly_of_isFinite (h : x.isFinite) : ∃ v, Exactly x v := by
  have h' : x.toModel.unpack.isFinite = true := h
  unfold Exactly
  generalize x.toModel.unpack = u at h'
  cases u with
  | notANumber => cases h'
  | infinity s => cases h'
  | zero s => exact ⟨_, .zero s⟩
  | finite s m e h => exact ⟨_, .finite s m e h⟩

/-- A minus turns the value, too. -/
theorem IsValue.neg {u : UnpackedFloat} (h : IsValue u v) : IsValue u.neg (-v) := by
  cases h with
  | zero s =>
    rw [neg_zero]
    exact .zero (-s)
  | finite s m e h =>
    have hneg := IsValue.finite (-s) m e h
    rw [apply_neg, Int.cast_neg, neg_mul] at hneg
    exact hneg

theorem Exactly.neg (hx : Exactly x v) : Exactly (-x) (-v) := by
  unfold Exactly
  rw [unpack_neg]
  exact IsValue.neg hx

/-! ## Sums and differences -/

/-- The double nearest to a number of either sign. -/
def nearestSigned (v : ℚ) : UnpackedFloat :=
  if v < 0 then nearest .negative (-v) else nearest .positive v

/-- Numbers that are moved up first are rounded once. -/
theorem unpack_pack_roundUp (s : Sign) {m : ℕ} (hm : 0 < m) (e : ℤ) :
    (Float.Model.pack (UnpackedFloat.round Format.binary64 s m e)).unpack =
      nearest s (m * 2 ^ e) := by
  unfold UnpackedFloat.round decreaseExponent
  dsimp only
  rw [targetExponent_eq]
  generalize hk : (e - lastPlace m e).toNat = k
  have hvalue : ((m <<< k : ℕ) : ℚ) = m * 2 ^ e / 2 ^ (e - k : ℤ) := by
    rw [Nat.shiftLeft_eq, mul_div_assoc, ← zpow_sub₀ two_ne_zero, sub_sub_cancel, zpow_natCast]
    push_cast
    rfl
  apply unpack_pack_round s (by positivity)
  · rw [← hvalue]
    exact truncates_exact _
  · rw [place_mul hm]
    omega

/-- Whole numbers of units are rounded once. -/
theorem unpack_pack_normalize (M e : ℤ) :
    (Float.Model.pack (UnpackedFloat.normalize Format.binary64 M e .positive)).unpack =
      nearestSigned (M * 2 ^ e) := by
  have hpow : (0 : ℚ) < 2 ^ e := by positivity
  unfold UnpackedFloat.normalize nearestSigned
  rcases lt_trichotomy M 0 with hM | rfl | hM
  · obtain ⟨m, rfl⟩ : ∃ m : ℕ, M = -m := ⟨M.natAbs, by omega⟩
    have hneg : ((-(m : ℤ) : ℤ) : ℚ) * 2 ^ e < 0 := by
      push_cast
      have : (0 : ℚ) < m := by exact_mod_cast (by omega : 0 < m)
      nlinarith
    rw [Int.compare_eq_lt.2 hM, if_pos hneg]
    dsimp only
    rw [neg_neg, Int.toNat_natCast, unpack_pack_roundUp .negative (by omega)]
    push_cast
    rw [neg_mul, neg_neg]
  · rw [Int.cast_zero, zero_mul, if_neg (lt_irrefl _), nearest_zero]
    exact unpack_pack_zero .positive
  · obtain ⟨m, rfl⟩ : ∃ m : ℕ, M = m := ⟨M.natAbs, by omega⟩
    have hpos : ¬ ((m : ℤ) : ℚ) * 2 ^ e < 0 := by
      push_cast
      exact not_lt.2 (by positivity)
    rw [Int.compare_eq_gt.2 hM, if_neg hpos]
    dsimp only
    rw [Int.toNat_natCast, unpack_pack_roundUp .positive (by omega)]
    push_cast
    rfl

/-- Mantissas of one exponent. -/
theorem apply_decreaseExponent (s : Sign) (m : ℕ) {e t : ℤ} (h : t ≤ e) :
    ((s.apply (decreaseExponent m e t).1 : ℤ) : ℚ) * 2 ^ t = s.apply m * 2 ^ e := by
  have hpow : (2 : ℚ) ^ (e - t).toNat * 2 ^ t = 2 ^ e := by
    rw [← zpow_natCast, ← zpow_add₀ two_ne_zero]
    congr 1
    omega
  unfold decreaseExponent
  dsimp only
  rw [Nat.shiftLeft_eq, ← hpow]
  cases s with
  | negative =>
    rw [apply_negative, apply_negative]
    push_cast
    ring
  | positive =>
    rw [apply_positive, apply_positive]
    push_cast
    ring

/-- **The difference of finite doubles** is rounded once. -/
theorem unpack_pack_sub (s s' : Sign) {m m' : ℕ} (e e' : ℤ) (h : 0 < m) (h' : 0 < m') :
    (Float.Model.pack (UnpackedFloat.sub Format.binary64 (.finite s m e h)
      (.finite s' m' e' h'))).unpack =
        nearestSigned (s.apply m * 2 ^ e - s'.apply m' * 2 ^ e') := by
  rw [← apply_decreaseExponent s m (min_le_left e e'),
    ← apply_decreaseExponent s' m' (min_le_right e e'), ← sub_mul, ← Int.cast_sub]
  exact unpack_pack_normalize _ _

/-- **The sum of finite doubles** is rounded once. -/
theorem unpack_pack_add (s s' : Sign) {m m' : ℕ} (e e' : ℤ) (h : 0 < m) (h' : 0 < m') :
    (Float.Model.pack (UnpackedFloat.add Format.binary64 (.finite s m e h)
      (.finite s' m' e' h'))).unpack =
        nearestSigned (s.apply m * 2 ^ e + s'.apply m' * 2 ^ e') := by
  rw [← apply_decreaseExponent s m (min_le_left e e'),
    ← apply_decreaseExponent s' m' (min_le_right e e'), ← add_mul, ← Int.cast_add]
  exact unpack_pack_normalize _ _

/-! ## Whole numbers -/

/-- A whole number of 53 places is a double. -/
theorem isValue_nearestSigned (hz : z.natAbs ≤ 2 ^ 53) : IsValue (nearestSigned z) z := by
  unfold nearestSigned
  rcases Nat.eq_zero_or_pos z.natAbs with h0 | hpos
  · obtain rfl : z = 0 := Int.natAbs_eq_zero.1 h0
    rw [Int.cast_zero, if_neg (lt_irrefl _), nearest_zero]
    exact .zero _
  · obtain ⟨m, e, hc, he, hvalue⟩ :=
      exists_canonical (t := 0) hpos hz (by norm_num) (by norm_num)
    rw [zpow_zero, mul_one] at hvalue
    rcases lt_or_gt_of_ne (Int.natAbs_pos.1 hpos) with hneg | hpos'
    · have habs : (z.natAbs : ℚ) = -z := by
        rw [Nat.cast_natAbs, abs_of_neg hneg, Int.cast_neg]
      have hlt : (z : ℚ) < 0 := by exact_mod_cast hneg
      have hz : (z : ℚ) = Sign.negative.apply m * 2 ^ e := by
        rw [apply_negative]
        push_cast
        linarith
      rw [if_pos hlt, ← habs, ← hvalue, nearest_eq_self .negative (h := hc.pos) hc he, hz]
      exact .finite _ _ _ _
    · have habs : (z.natAbs : ℚ) = z := by rw [Nat.cast_natAbs, abs_of_pos hpos']
      have hlt : ¬ (z : ℚ) < 0 := by exact_mod_cast not_lt.2 hpos'.le
      rw [if_neg hlt, ← habs, ← hvalue, nearest_eq_self .positive (h := hc.pos) hc he]
      exact .finite _ _ _ _

/-- Natural numbers of 53 places are exact. -/
theorem exactly_ofNat (h : a ≤ 2 ^ 53) : Exactly (Float.ofNat a) (a : ℤ) := by
  have hvalue := isValue_nearestSigned (z := a) h
  unfold nearestSigned at hvalue
  rw [if_neg (by simp)] at hvalue
  unfold Exactly
  rw [unpack_ofNat]
  exact hvalue

theorem unpack_pack_unpack (x : Float) :
    (Float.Model.pack x.toModel.unpack).unpack = x.toModel.unpack :=
  congrArg (UnpackedFloat.unpack Format.binary64) (pack_unpack x.toModel.valid)

/-- **A difference is exact** when it is a whole number of 53 places. -/
theorem Exactly.sub (hx : Exactly x v) (hy : Exactly y w) (hvw : v - w = z)
    (hz : z.natAbs ≤ 2 ^ 53) : Exactly (x - y) z := by
  unfold Exactly at hx hy ⊢
  show IsValue (Float.Model.pack (UnpackedFloat.sub Format.binary64 x.toModel.unpack
    y.toModel.unpack)).unpack z
  generalize hu : x.toModel.unpack = u at hx
  generalize hu' : y.toModel.unpack = u' at hy
  -- a zero on either side leaves the other number as it is, up to its sign
  rw [← hvw]
  cases hx with
  | zero s =>
    cases hy with
    | zero s' =>
      simp only [UnpackedFloat.sub, sub_zero]
      split_ifs <;> rw [unpack_pack_zero] <;> exact .zero _
    | finite s' m e h =>
      have hneg := unpack_neg y
      change (Float.Model.pack y.toModel.unpack.neg).unpack = _ at hneg
      rw [hu'] at hneg
      rw [zero_sub]
      exact hneg.symm ▸ (IsValue.finite s' m e h).neg
  | finite s m e h =>
    cases hy with
    | zero s' =>
      have hself := unpack_pack_unpack x
      rw [hu] at hself
      rw [sub_zero]
      exact hself.symm ▸ IsValue.finite _ _ _ _
    | finite s' m' e' h' =>
      have hround := unpack_pack_sub s s' e e' h h'
      rw [hvw] at hround ⊢
      exact hround.symm ▸ isValue_nearestSigned hz

/-! ## Squares and sums -/

/-- **The square of a whole number** is the double nearest to the natural number it is. -/
theorem Exactly.mul_self (hx : Exactly x z) : x * x = Float.ofNat (z.natAbs ^ 2) := by
  have hsquare : ((z.natAbs ^ 2 : ℕ) : ℚ) = z * z := by
    rw [Nat.cast_pow, Nat.cast_natAbs, ← Int.cast_pow, sq_abs]
    push_cast
    ring
  apply eq_of_unpack_eq
  rw [unpack_ofNat, hsquare]
  unfold Exactly at hx
  show (Float.Model.pack (UnpackedFloat.mul Format.binary64 x.toModel.unpack
    x.toModel.unpack)).unpack = _
  generalize hu : x.toModel.unpack = u at hx
  generalize (z : ℚ) = v at hx
  cases hx with
  | zero s =>
    rw [mul_zero, nearest_zero]
    cases s <;> exact unpack_pack_zero .positive
  | finite s m e h =>
    have hc := canonical_of_unpack hu
    have hround := unpack_pack_mul s s h h (le_place_mul hc hc)
    -- the signs cancel
    cases s with
    | negative =>
      simp only [apply_negative, Int.cast_neg, Int.cast_natCast, neg_mul, mul_neg, neg_neg]
      exact hround
    | positive => exact hround

/-- Positive numbers are added and rounded once. -/
theorem Equals.unpack_add (hx : Equals x v) (hy : Equals y w) :
    (x + y).toModel.unpack = nearest .positive (v + w) := by
  have hpos : ¬ v + w < 0 := not_lt.2 (add_pos hx.pos hy.pos).le
  obtain ⟨m, e, h, hx, rfl⟩ := hx
  obtain ⟨m', e', h', hy, rfl⟩ := hy
  have hround := unpack_pack_add .positive .positive e e' h h'
  simp only [apply_positive, Int.cast_natCast] at hround
  rw [nearestSigned, if_neg hpos] at hround
  show (Float.Model.pack (UnpackedFloat.add Format.binary64 x.toModel.unpack
    y.toModel.unpack)).unpack = _
  rw [hx, hy]
  exact hround

/-- Zero is neutral beside a number without a sign. -/
theorem Unsigned.zero_add (hx : Unsigned x.toModel.unpack) : 0 + x = x := by
  have hsum : UnpackedFloat.add Format.binary64 (.zero .positive) x.toModel.unpack =
      x.toModel.unpack := by
    generalize x.toModel.unpack = u at hx
    cases hx <;> rfl
  apply eq_of_unpack_eq
  show (Float.Model.pack (UnpackedFloat.add Format.binary64 (0 : Float).toModel.unpack
    x.toModel.unpack)).unpack = _
  rw [unpack_zero, hsum, unpack_pack_unpack]

theorem Unsigned.add_zero (hx : Unsigned x.toModel.unpack) : x + 0 = x := by
  have hsum : UnpackedFloat.add Format.binary64 x.toModel.unpack (.zero .positive) =
      x.toModel.unpack := by
    generalize x.toModel.unpack = u at hx
    cases hx <;> rfl
  apply eq_of_unpack_eq
  show (Float.Model.pack (UnpackedFloat.add Format.binary64 x.toModel.unpack
    (0 : Float).toModel.unpack)).unpack = _
  rw [unpack_zero, hsum, unpack_pack_unpack]

/-- **The sum of small natural numbers** is exact. -/
theorem ofNat_add (h : a + b ≤ 2 ^ 53) : Float.ofNat a + Float.ofNat b = Float.ofNat (a + b) := by
  rcases Nat.eq_zero_or_pos a with rfl | ha
  · rw [Nat.zero_add]
    exact (unsigned_ofNat b).zero_add
  rcases Nat.eq_zero_or_pos b with rfl | hb
  · exact (unsigned_ofNat a).add_zero
  apply eq_of_unpack_eq
  rw [(equals_ofNat ha (by omega)).unpack_add (equals_ofNat hb (by omega)), unpack_ofNat]
  push_cast
  rfl

end NearestNeighbors.Binary64
