import NearestNeighbors.Proofs.Binary64.Unsigned
import NearestNeighbors.Proofs.Binary64.Value

/-!
# Rounding keeps the order

A number that is rounded has a rank among the doubles, its exponent and then its units in the
last place, and a larger number has no smaller rank. So the keys of doubles have the order of
their values, and nearest doubles, products and sizes keep the order of what they come from.

* `rank`, `rank_mono`: the rank of a rational.
* `orderKey_of_nearest`, `orderKey_le_of_nearest`: the key of a nearest double is the rank.
* `Equals.orderKey_le_iff`: the keys of positive doubles have the order of the values.
* `orderKey_mul_le`, `ceilingSize_le`: products and sizes.
* `Equals.le_iff`: comparing positive doubles compares their keys.
-/

namespace NearestNeighbors.Binary64

open Float.Model Float.Model.UnpackedFloat

variable {x y a b : Float} {v w : ℚ}

/-! ## Ranks -/

/-- The nearest natural number does not fall when a number grows. -/
theorem roundEven_mono (h : v ≤ w) : roundEven v ≤ roundEven w := by
  have hfloor : ⌊v⌋₊ ≤ ⌊w⌋₊ := Nat.floor_le_floor h
  rcases hfloor.lt_or_eq with hlt | heq
  · calc roundEven v ≤ ⌊v⌋₊ + 1 := roundEven_le v
      _ ≤ ⌊w⌋₊ := hlt
      _ ≤ roundEven w := floor_le_roundEven w
  · -- the whole parts are the same, so the rests decide
    unfold roundEven
    rw [← heq]
    rcases lt_trichotomy (v - ⌊v⌋₊) (1 / 2) with hv | hv | hv
    · rw [if_pos hv]
      split_ifs <;> omega
    · rw [if_neg hv.not_lt, if_pos hv, if_neg (by linarith)]
      split_ifs <;> omega
    · rw [if_neg hv.not_gt, if_neg hv.ne', if_neg (by linarith), if_neg (by linarith)]

theorem place_mono (hv : 0 < v) (h : v ≤ w) : place v ≤ place w := by
  have hlog : Int.log 2 v ≤ Int.log 2 w := Int.log_mono_right hv h
  unfold place
  omega

/-- The rank of a positive number among the doubles: the exponent of its last place, counted
from the lowest one, and then its units in this place. -/
def rank (v : ℚ) : ℤ := (place v + 1074) * 2 ^ 52 + units v

/-- **Larger numbers have no smaller rank.** -/
theorem rank_mono (hv : 0 < v) (h : v ≤ w) : rank v ≤ rank w := by
  have hplace : place v ≤ place w := place_mono hv h
  unfold rank
  rcases hplace.lt_or_eq with hlt | heq
  · -- one place further on, all units are more than the largest number of them before
    have hunits : units v ≤ 2 ^ 53 := units_le v
    have hfull : 2 ^ 52 ≤ units w := by
      have hlow : -1074 ≤ place v := le_place v
      exact (le_units (hv.trans_le h)).resolve_right (by omega)
    omega
  · have hunits : units v ≤ units w := by
      unfold units
      rw [heq]
      apply roundEven_mono
      gcongr
    rw [heq]
    omega

/-- The key of a double that is infinite when its exponent is too large. -/
theorem orderKey_of_bounded {m : ℕ} {e : ℤ} {h : 0 < m} (hfull : 2 ^ 52 ≤ m ∨ e = -1074)
    (hlt : m < 2 ^ 53) (hx : x.toModel.unpack = bounded (.finite .positive m e h)) :
    orderKey x = min ((e + 1074) * 2 ^ 52 + m) (2047 * 2 ^ 52) := by
  unfold bounded at hx
  dsimp only at hx
  split_ifs at hx with hbig
  · rw [orderKey_of_infinity hx]
    omega
  · rw [orderKey_of_finite hx]
    omega

/-- **The key of a nearest double** is the rank, up to the key of infinity. -/
theorem orderKey_of_nearest (hv : 0 < v) (hx : x.toModel.unpack = nearest .positive v) :
    orderKey x = min (rank v) (2047 * 2 ^ 52) := by
  have hle : -1074 ≤ place v := le_place v
  have hunits : units v ≤ 2 ^ 53 := units_le v
  have hfull := le_units hv
  unfold nearest ofUnits at hx
  unfold rank
  split_ifs at hx with h0 hcarry
  · rw [orderKey_of_zero hx]
    omega
  · -- one place too many, which moves the exponent up
    rw [orderKey_of_bounded (.inl le_rfl) (by norm_num) hx, hcarry]
    congr 1
    push_cast
    ring
  · exact orderKey_of_bounded hfull (by omega) hx

/-- A nearest double has no sign. -/
theorem unsigned_nearest (v : ℚ) : Unsigned (nearest .positive v) := by
  rcases nearest_cases .positive v with h | h | ⟨m, e, hm, h⟩
  · rw [h]; exact .zero
  · rw [h]; exact .infinity
  · rw [h]; exact .finite m e hm

/-- **Rounding keeps the order.** -/
theorem orderKey_le_of_nearest (hv : 0 ≤ v) (h : v ≤ w)
    (hx : x.toModel.unpack = nearest .positive v)
    (hy : y.toModel.unpack = nearest .positive w) : orderKey x ≤ orderKey y := by
  rcases hv.lt_or_eq with hpos | rfl
  · have hrank := rank_mono hpos h
    rw [orderKey_of_nearest hpos hx, orderKey_of_nearest (hpos.trans_le h) hy]
    omega
  · rw [orderKey_of_zero (hx.trans (nearest_zero .positive))]
    apply orderKey_nonneg
    rw [hy]
    exact unsigned_nearest w

/-- **The keys of positive doubles** have the order of their values. -/
theorem Equals.orderKey_le_iff (hx : Equals x v) (hy : Equals y w) :
    orderKey x ≤ orderKey y ↔ v ≤ w := by
  constructor
  · intro h
    by_contra hlt
    -- otherwise both keys are the same, and so are the doubles and their values
    have hle := orderKey_le_of_nearest hy.pos.le (not_le.1 hlt).le hy.unpack_eq hx.unpack_eq
    have heq : x = y := orderKey_injective (le_antisymm h hle)
    subst heq
    exact hlt (hx.unique hy).le
  · intro h
    exact orderKey_le_of_nearest hx.pos.le h hx.unpack_eq hy.unpack_eq

theorem Equals.orderKey_lt (hx : Equals x v) (hy : Equals y w) (h : v < w) :
    orderKey x < orderKey y := by
  by_contra hle
  exact not_le.2 h ((hy.orderKey_le_iff hx).1 (not_lt.1 hle))

/-! ## Products -/

/-- The key of a positive double lies between those of zero and infinity. -/
theorem Equals.orderKey_between (hx : Equals x v) :
    0 < orderKey x ∧ orderKey x < 2047 * 2 ^ 52 := by
  obtain ⟨m, e, h, hx, -⟩ := hx
  obtain ⟨-, hlt, hle, -⟩ := canonical_of_unpack hx
  have hmax : e ≤ 971 := exponent_le hx
  rw [orderKey_of_finite hx]
  omega

/-- The doubles from zero to infinity. -/
theorem unsigned_cases (ha : Unsigned a.toModel.unpack) (hle : orderKey a ≤ 2047 * 2 ^ 52) :
    a.toModel.unpack = .zero .positive ∨ a.toModel.unpack = .infinity .positive ∨
      ∃ v, Equals a v := by
  generalize hu : a.toModel.unpack = u at ha
  cases ha with
  | notANumber =>
    rw [orderKey_of_notANumber hu] at hle
    omega
  | zero => exact .inl rfl
  | infinity => exact .inr (.inl rfl)
  | finite m e h => exact .inr (.inr ⟨_, m, e, h, hu, rfl⟩)

theorem Equals.unsigned (hx : Equals x v) : Unsigned x.toModel.unpack := by
  obtain ⟨m, e, h, hx, -⟩ := hx
  rw [hx]
  exact .finite m e h

theorem Equals.unpack_zero_mul (hx : Equals x v) (ha : a.toModel.unpack = .zero .positive) :
    (a * x).toModel.unpack = .zero .positive := by
  obtain ⟨m, e, h, hx, -⟩ := hx
  show (Float.Model.pack (UnpackedFloat.mul Format.binary64 a.toModel.unpack
    x.toModel.unpack)).unpack = _
  rw [ha, hx]
  exact unpack_pack_zero .positive

theorem Equals.unpack_infinity_mul (hx : Equals x v)
    (ha : a.toModel.unpack = .infinity .positive) :
    (a * x).toModel.unpack = .infinity .positive := by
  obtain ⟨m, e, h, hx, -⟩ := hx
  exact unpack_mul_infinity ha hx

/-- **Products keep the order**, when both factors grow. -/
theorem orderKey_mul_le (hx : Equals x v) (hy : Equals y w) (hvw : v ≤ w)
    (ha : Unsigned a.toModel.unpack) (hb : Unsigned b.toModel.unpack)
    (hle : orderKey a ≤ orderKey b) (hinf : orderKey b ≤ 2047 * 2 ^ 52) :
    orderKey (a * x) ≤ orderKey (b * y) := by
  rcases unsigned_cases ha (hle.trans hinf) with hz | hi | ⟨α, hα⟩
  · rw [orderKey_of_zero (hx.unpack_zero_mul hz)]
    exact orderKey_nonneg (hb.mul hy.unsigned)
  · rw [orderKey_of_infinity hi] at hle
    rcases unsigned_cases hb hinf with hz' | hi' | ⟨β, hβ⟩
    · rw [orderKey_of_zero hz'] at hle
      omega
    · rw [orderKey_of_infinity (hx.unpack_infinity_mul hi),
        orderKey_of_infinity (hy.unpack_infinity_mul hi')]
    · have := hβ.orderKey_between
      omega
  · have hpos : 0 < α * v := mul_pos hα.pos hx.pos
    rcases unsigned_cases hb hinf with hz' | hi' | ⟨β, hβ⟩
    · have := hα.orderKey_between
      rw [orderKey_of_zero hz'] at hle
      omega
    · rw [orderKey_of_infinity (hy.unpack_infinity_mul hi'),
        orderKey_of_nearest hpos (hα.unpack_mul hx)]
      omega
    · have hprod : α * v ≤ β * w :=
        mul_le_mul ((hα.orderKey_le_iff hβ).1 hle) hvw hx.pos.le hβ.pos.le
      exact orderKey_le_of_nearest hpos.le hprod (hα.unpack_mul hx) (hβ.unpack_mul hy)

/-- No product of numbers is a NaN, which would come after infinity. -/
theorem Equals.orderKey_mul_le_infinity (hx : Equals x v) (ha : Unsigned a.toModel.unpack)
    (hle : orderKey a ≤ 2047 * 2 ^ 52) : orderKey (a * x) ≤ 2047 * 2 ^ 52 := by
  rcases unsigned_cases ha hle with hz | hi | ⟨α, hα⟩
  · rw [orderKey_of_zero (hx.unpack_zero_mul hz)]
    norm_num
  · rw [orderKey_of_infinity (hx.unpack_infinity_mul hi)]
  · rw [orderKey_of_nearest (mul_pos hα.pos hx.pos) (hα.unpack_mul hx)]
    exact min_le_right _ _

/-! ## Sizes -/

/-- The ceiling of a magnitude is that of its value. -/
theorem ceiling_eq (m : ℕ) (e : ℤ) : Magnitude.ceiling ⟨m, e⟩ = ⌈(m : ℚ) * 2 ^ e⌉₊ := by
  have hvalue : (m : ℚ) * 2 ^ e = (m * 2 ^ e.toNat : ℕ) / (2 ^ (-e).toNat : ℕ) := by
    rw [eq_div_iff (by positivity)]
    push_cast
    rw [mul_assoc, ← zpow_natCast, ← zpow_natCast, ← zpow_add₀ two_ne_zero]
    congr 2
    omega
  have hceiling : Magnitude.ceiling ⟨m, e⟩ =
      (m * 2 ^ e.toNat + (2 ^ (-e).toNat - 1)) / 2 ^ (-e).toNat := rfl
  have hden : 0 < 2 ^ (-e).toNat := Nat.two_pow_pos _
  rw [hceiling, hvalue]
  generalize m * 2 ^ e.toNat = num
  generalize 2 ^ (-e).toNat = den at hden
  -- both are the least natural number that is large enough
  apply eq_of_forall_ge_iff
  intro k
  rw [Nat.ceil_le, div_le_iff₀ (by exact_mod_cast hden), ← Nat.lt_succ_iff,
    Nat.div_lt_iff_lt_mul hden, Nat.succ_mul]
  norm_cast
  omega

/-- The size of a positive double is the ceiling of its value. -/
theorem Equals.ceilingSize_eq (hx : Equals x v) : ceilingSize x = min ⌈v⌉₊ maxSize := by
  obtain ⟨m, e, h, hx, rfl⟩ := hx
  unfold ceilingSize
  rw [hx]
  dsimp only
  rw [ceiling_eq]

theorem ceilingSize_of_zero (hx : x.toModel.unpack = .zero .positive) : ceilingSize x = 0 := by
  unfold ceilingSize
  rw [hx]

theorem ceilingSize_of_infinity (hx : x.toModel.unpack = .infinity .positive) :
    ceilingSize x = maxSize := by
  unfold ceilingSize
  rw [hx]

theorem ceilingSize_le_maxSize (x : Float) : ceilingSize x ≤ maxSize := by
  unfold ceilingSize
  split <;> omega

/-- **Sizes keep the order.** -/
theorem ceilingSize_le (hx : Unsigned x.toModel.unpack) (hy : Unsigned y.toModel.unpack)
    (hle : orderKey x ≤ orderKey y) (hinf : orderKey y ≤ 2047 * 2 ^ 52) :
    ceilingSize x ≤ ceilingSize y := by
  rcases unsigned_cases hy hinf with hz' | hi' | ⟨w, hw⟩
  · have hkey : orderKey x = 0 :=
      le_antisymm (hle.trans_eq (orderKey_of_zero hz')) (orderKey_nonneg hx)
    rw [orderKey_eq_zero_iff.1 hkey, ceilingSize_of_zero unpack_zero]
    exact Nat.zero_le _
  · rw [ceilingSize_of_infinity hi']
    exact ceilingSize_le_maxSize x
  · rcases unsigned_cases hx (hle.trans hinf) with hz | hi | ⟨v, hv⟩
    · rw [ceilingSize_of_zero hz]
      exact Nat.zero_le _
    · have := hw.orderKey_between
      rw [orderKey_of_infinity hi] at hle
      omega
    · have hceil : ⌈v⌉₊ ≤ ⌈w⌉₊ := Nat.ceil_le_ceil ((hv.orderKey_le_iff hw).1 hle)
      rw [hv.ceilingSize_eq, hw.ceilingSize_eq]
      omega

/-! ## Comparing -/

/-- Comparing positive doubles compares their keys. -/
theorem Equals.le_iff (hx : Equals x v) (hy : Equals y w) : x ≤ y ↔ orderKey x ≤ orderKey y := by
  obtain ⟨m, e, h, hx, -⟩ := hx
  obtain ⟨m', e', h', hy, -⟩ := hy
  obtain ⟨-, hlt, hle, hfull⟩ := canonical_of_unpack hx
  obtain ⟨-, hlt', hle', hfull'⟩ := canonical_of_unpack hy
  rw [le_iff_compare, hx, hy, orderKey_of_finite hx, orderKey_of_finite hy]
  show ((compare e e').then (compare m m')).isLE = true ↔ _
  rcases lt_trichotomy e e' with he | he | he
  · rw [Int.compare_eq_lt.2 he]
    simp only [Ordering.lt_then, Ordering.isLE_lt, true_iff]
    omega
  · subst he
    rw [Int.compare_eq_eq.2 rfl, Ordering.eq_then, Nat.isLE_compare]
    omega
  · rw [Int.compare_eq_gt.2 he]
    simp only [Ordering.gt_then, Ordering.isLE_gt, Bool.false_eq_true, false_iff]
    omega

/-- **Two fractions** are positive doubles, and the larger one has no smaller value. -/
theorem equals_of_fractions (h₀ : 0 < x) (hle : x ≤ y) (h₁ : y < 1) :
    ∃ v w, Equals x v ∧ Equals y w ∧ v ≤ w := by
  obtain ⟨m₂, e₂, h₂, hy⟩ := unpack_of_between (pos_of_pos_of_le h₀ hle) h₁
  have hx : ∃ m e h, x.toModel.unpack = .finite .positive m e h := by
    rw [lt_iff_compare, unpack_zero] at h₀
    have hle' := le_iff_compare.1 hle
    rw [hy] at hle'
    generalize x.toModel.unpack = u at h₀ hle' ⊢
    cases u with
    | finite s m e h =>
      cases s
      · cases h₀
      · exact ⟨m, e, h, rfl⟩
    | infinity s =>
      cases s
      · cases h₀
      · cases hle'
    | _ => cases h₀
  obtain ⟨m₁, e₁, h₁, hx⟩ := hx
  have hx : Equals x (m₁ * 2 ^ e₁) := ⟨m₁, e₁, h₁, hx, rfl⟩
  have hy : Equals y (m₂ * 2 ^ e₂) := ⟨m₂, e₂, h₂, hy, rfl⟩
  exact ⟨_, _, hx, hy, (hx.orderKey_le_iff hy).1 ((hx.le_iff hy).1 hle)⟩

/-- A smaller fraction is one, too. -/
theorem lt_one_of_fractions (h₀ : 0 < x) (hle : x ≤ y) (h₁ : y < 1) : x < 1 := by
  obtain ⟨v, w, hv, hw, -⟩ := equals_of_fractions h₀ hle h₁
  have hone : Equals 1 _ := ⟨_, _, _, unpack_one, rfl⟩
  by_contra hnot
  rcases (not_lt_iff x 1).1 hnot with hnan | hnan | hge
  · obtain ⟨m, e, h, hx, -⟩ := hv
    have : x.isNaN = false := by
      show x.toModel.unpack.isNaN = false
      rw [hx]
      rfl
    rw [this] at hnan
    cases hnan
  · exact absurd hnan (by decide)
  · -- from one to the smaller fraction to the larger one
    have hkey := ((hone.le_iff hv).1 hge).trans ((hv.le_iff hw).1 hle)
    exact (not_lt_iff y 1).2 (.inr (.inr ((hone.le_iff hw).2 hkey))) h₁

end NearestNeighbors.Binary64
