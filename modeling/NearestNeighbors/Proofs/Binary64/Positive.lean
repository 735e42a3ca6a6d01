import NearestNeighbors.Proofs.Binary64.Order
import NearestNeighbors.Proofs.Binary64.Packing

/-!
# Positive doubles

A number from one on is a double from one on, and its product with a positive double is
positive: what the product loses is less than it was multiplied by. So the size of a
positive part of a positive number is positive.

* `rounded_cases`: what a positive number rounds to.
* `ofNat_atLeastOne`: positive natural numbers.
* `positive_mul`, `ceilingSize_mul_pos`: products and their sizes.
-/

namespace NearestNeighbors.Binary64

open Float.Model Float.Model.UnpackedFloat

variable {m n : Nat} {e : Int} {x y : Float}

/-! ## Rounding -/

/-- The double nearest to `m * 2 ^ e`. -/
def rounded (m : Nat) (e : Int) : UnpackedFloat :=
  (Float.Model.pack (roundWithAccuracy Format.binary64 .positive m e .exact)).unpack

/-- A positive double, possibly infinite. -/
def Positive (x : UnpackedFloat) : Prop :=
  x = .infinity .positive ∨ ∃ m e h, x = .finite .positive m e h

/-- A double from one on, possibly infinite. -/
def AtLeastOne (x : UnpackedFloat) : Prop :=
  x = .infinity .positive ∨ ∃ m e h, x = .finite .positive m e h ∧ 2 ^ 52 ≤ m ∧ -52 ≤ e

/-- What a number rounds to that has at least a unit in the last place. -/
theorem rounded_cases (hm : m ≠ 0) (he : e ≤ lastPlace m e)
    (hpos : 0 < m / 2 ^ droppedPlaces m e) :
    rounded m e = .infinity .positive ∨ ∃ m' e' h, rounded m e = .finite .positive m' e' h ∧
      lastPlace m e ≤ e' ∧ (-1074 < lastPlace m e → 2 ^ 52 ≤ m') := by
  have hle := le_roundShift m (droppedPlaces m e)
  have hlow := le_lastPlace m e
  have hfull : 2 ^ 52 ≤ roundShift m (droppedPlaces m e) ∨ lastPlace m e = -1074 := by
    by_cases h : -1074 < lastPlace m e
    · exact .inl (Nat.le_trans (le_div_of_lastPlace hm he h) hle)
    · exact .inr (by omega)
  obtain ⟨m', e', h, heq, hc, hexp, hm'⟩ :=
    ofUnits_finite .positive (Nat.lt_of_lt_of_le hpos hle) (roundShift_le_of_lastPlace m e)
      hlow hfull
  have hround : rounded m e =
      if 971 < e' then .infinity .positive else .finite .positive m' e' h := by
    rw [← unpack_pack_finite hc, ← heq, ← roundWithAccuracy_exact he]
    rfl
  rw [hround]
  split
  · exact .inl rfl
  · exact .inr ⟨m', e', h, rfl, hexp, fun h => hm' (hfull.resolve_right (by omega))⟩

theorem rounded_positive (hm : m ≠ 0) (he : e ≤ lastPlace m e)
    (hpos : 0 < m / 2 ^ droppedPlaces m e) : Positive (rounded m e) := by
  rcases rounded_cases hm he hpos with h | ⟨m', e', h, heq, -⟩
  · exact .inl h
  · exact .inr ⟨m', e', h, heq⟩

/-- Numbers from one on stay there. -/
theorem rounded_atLeastOne (hm : 52 ≤ m.log2) (he : 0 ≤ m.log2 + e) :
    AtLeastOne (rounded m e) := by
  have hne : m ≠ 0 := by
    rintro rfl
    exact absurd hm (by decide)
  have hplace : lastPlace m e = m.log2 + e - 52 := by
    unfold lastPlace
    omega
  have hle : e ≤ lastPlace m e := by omega
  have hpos : 0 < m / 2 ^ droppedPlaces m e :=
    Nat.lt_of_lt_of_le (Nat.two_pow_pos 52) (le_div_of_lastPlace hne hle (by omega))
  rcases rounded_cases hne hle hpos with h | ⟨m', e', h, heq, hexp, hm'⟩
  · exact .inl h
  · exact .inr ⟨m', e', h, heq, hm' (by omega), by omega⟩

/-- The product of finite doubles is rounded once. -/
theorem unpack_mul {m₁ m₂ : Nat} {e₁ e₂ : Int} {h₁ : 0 < m₁} {h₂ : 0 < m₂}
    (hx : x.toModel.unpack = .finite .positive m₁ e₁ h₁)
    (hy : y.toModel.unpack = .finite .positive m₂ e₂ h₂) :
    (x * y).toModel.unpack = rounded (m₁ * m₂) (e₁ + e₂) := by
  show (Float.Model.pack (UnpackedFloat.mul Format.binary64 x.toModel.unpack
    y.toModel.unpack)).unpack = _
  rw [hx, hy]
  rfl

theorem unpack_mul_infinity {h : 0 < m}
    (hx : x.toModel.unpack = .infinity .positive)
    (hy : y.toModel.unpack = .finite .positive m e h) :
    (x * y).toModel.unpack = .infinity .positive := by
  show (Float.Model.pack (UnpackedFloat.mul Format.binary64 x.toModel.unpack
    y.toModel.unpack)).unpack = _
  rw [hx, hy]
  show UnpackedFloat.unpack Format.binary64 (packedInfinity Format.binary64 .positive) = _
  simp [packedInfinity, UnpackedFloat.unpack]

theorem log2_mul_ge (hm : 2 ^ 52 ≤ m) (hn : 0 < n) : 52 + n.log2 ≤ (m * n).log2 := by
  have hmn : m * n ≠ 0 := Nat.mul_ne_zero (by omega) (by omega)
  rw [Nat.le_log2 hmn, Nat.pow_add]
  exact Nat.mul_le_mul hm (Nat.log2_self_le (by omega))

/-- A positive double does not vanish in a product with one from one on. -/
theorem positive_mul {h : 0 < m} (hx : AtLeastOne x.toModel.unpack)
    (hy : y.toModel.unpack = .finite .positive m e h) : Positive (x * y).toModel.unpack := by
  rcases hx with hx | ⟨m₁, e₁, h₁, hx, hm₁, he₁⟩
  · exact .inl (unpack_mul_infinity hx hy)
  · rw [unpack_mul hx hy]
    have he : -1074 ≤ e := (canonical_of_unpack hy).le
    have hlog := log2_mul_ge hm₁ h
    have hne : m₁ * m ≠ 0 := Nat.mul_ne_zero (by omega) (by omega)
    refine rounded_positive hne ?_ ?_
    · unfold lastPlace
      omega
    · -- the places that are dropped are fewer than the factor from one on has
      refine Nat.div_pos ?_ (Nat.two_pow_pos _)
      refine Nat.le_trans (Nat.pow_le_pow_right Nat.two_pos ?_) (Nat.log2_self_le hne)
      unfold droppedPlaces lastPlace
      omega

/-! ## Natural numbers -/

theorem log2_shiftLeft (hn : n ≠ 0) (k : Nat) : (n <<< k).log2 = n.log2 + k := by
  rw [Nat.shiftLeft_eq, Nat.log2_eq_iff (Nat.mul_ne_zero hn (Nat.ne_of_gt (Nat.two_pow_pos k)))]
  constructor
  · rw [Nat.pow_add]
    exact Nat.mul_le_mul_right _ (Nat.log2_self_le hn)
  · rw [Nat.add_right_comm, Nat.pow_add]
    exact Nat.mul_lt_mul_of_pos_right Nat.lt_log2_self (Nat.two_pow_pos k)

/-- A number from one on may be moved up before it is rounded. -/
theorem rounded_shiftLeft_atLeastOne {k : Nat} (hn : n ≠ 0) (hk : 52 ≤ n.log2 + k)
    (he : 0 ≤ n.log2 + k + e) : AtLeastOne (rounded (n <<< k) e) := by
  have hlog := log2_shiftLeft hn k
  exact rounded_atLeastOne (by omega) (by omega)

/-- Small numbers take a short cut over a word. -/
theorem ofNat_of_lt (hn : n < 2 ^ 53) : Float.ofNat n = n.toUInt64.toFloat * 1 := by
  show Float.ofScientific n false 0 = _
  unfold Float.ofScientific
  rw [dif_pos ⟨hn, by decide⟩]
  rfl

theorem ofNat_of_le (hn : 2 ^ 53 ≤ n) :
    Float.ofNat n = Float.ofModel (Float.Model.ofScientific n 0) := by
  show Float.ofScientific n false 0 = _
  unfold Float.ofScientific
  rw [dif_neg fun h => Nat.not_lt.2 hn h.1]
  rfl

theorem ofScientific_zero (hn : n ≠ 0) :
    UnpackedFloat.ofScientific Format.binary64 n 0 =
      roundWithAccuracy Format.binary64 .positive (n <<< 53) (-53) .exact := by
  have hbig : ¬ (0 : Int) > 2 ^ Format.binary64.exponentBits := by decide
  have hsmall : ¬ (0 : Int) < -((2 ^ Format.binary64.exponentBits : Int) + n.log2) := by
    show ¬ (0 : Int) < -((2048 : Int) + n.log2)
    omega
  unfold UnpackedFloat.ofScientific
  rw [dif_neg hn, if_neg hbig, if_neg hsmall, if_pos (Int.le_refl 0)]
  simp only [UnpackedFloat.mul, Int.toNat_zero, Nat.pow_zero, Nat.mul_one, Int.add_zero]
  rw [show Format.binary64.mantissaBits = 53 from rfl]
  rfl

/-- A number with fewer than 53 places is moved up to have that many. -/
theorem unpack_toFloat (hn : 0 < n) (hlt : n < 2 ^ 53) :
    n.toUInt64.toFloat.toModel.unpack = rounded (n <<< (52 - n.log2)) (n.log2 - 52) := by
  have hlog : n.log2 < 53 := (Nat.log2_lt (by omega)).2 hlt
  have hword : n.toUInt64.toNat = n := by
    rw [Nat.toUInt64_eq, UInt64.toNat_ofNat_of_lt']
    exact Nat.lt_trans hlt (by decide)
  have hgt : compare (n : Int) 0 = .gt := Int.compare_eq_gt.2 (by omega)
  have hplace : lastPlace n 0 = n.log2 - 52 := by
    unfold lastPlace
    omega
  have hshift : (0 - ((n.log2 : Int) - 52)).toNat = 52 - n.log2 := by omega
  show (Float.Model.pack (UnpackedFloat.ofNat Format.binary64 n.toUInt64.toNat)).unpack = _
  unfold UnpackedFloat.ofNat UnpackedFloat.ofInt UnpackedFloat.normalize UnpackedFloat.round
    decreaseExponent
  simp only [hword, hgt, Int.toNat_natCast, targetExponent_eq, hplace, hshift]
  rw [show (0 : Int) - ((52 - n.log2 : Nat) : Int) = n.log2 - 52 by omega]
  rfl

/-- **Every positive number is at least one** as a double, too. -/
theorem ofNat_atLeastOne (hn : 0 < n) : AtLeastOne (Float.ofNat n).toModel.unpack := by
  have hne : n ≠ 0 := by omega
  by_cases hlt : n < 2 ^ 53
  · have hlog : n.log2 < 53 := (Nat.log2_lt hne).2 hlt
    have hword : AtLeastOne n.toUInt64.toFloat.toModel.unpack := by
      rw [unpack_toFloat hn hlt]
      exact rounded_shiftLeft_atLeastOne hne (by omega) (by omega)
    -- the word is multiplied by one, which rounds once more
    rw [ofNat_of_lt hlt]
    rcases hword with h | ⟨m, e, h, heq, hm, he⟩
    · exact .inl (unpack_mul_infinity h unpack_one)
    · rw [unpack_mul heq unpack_one]
      have hlog := log2_mul_ge hm (Nat.two_pow_pos 52)
      rw [Nat.log2_two_pow] at hlog
      exact rounded_atLeastOne (by omega) (by omega)
  · rw [ofNat_of_le (Nat.not_lt.1 hlt)]
    show AtLeastOne (Float.Model.pack (UnpackedFloat.ofScientific Format.binary64 n 0)).unpack
    rw [ofScientific_zero hne]
    exact rounded_shiftLeft_atLeastOne hne (by omega) (by omega)

/-! ## Sizes -/

/-- The ceiling of a positive number is one at least. -/
theorem ceiling_pos (e : Int) (hm : 0 < m) : 0 < Magnitude.ceiling ⟨m, e⟩ := by
  have hnum : 0 < m * Nat.pow 2 e.toNat := Nat.mul_pos hm (Nat.two_pow_pos _)
  have hden : 0 < Nat.pow 2 (-e).toNat := Nat.two_pow_pos _
  refine Nat.div_pos ?_ hden
  show Nat.pow 2 (-e).toNat ≤ m * Nat.pow 2 e.toNat + (Nat.pow 2 (-e).toNat - 1)
  omega

theorem ceilingSize_pos (hx : Positive x.toModel.unpack) : 0 < ceilingSize x := by
  unfold ceilingSize
  rcases hx with hx | ⟨m, e, h, hx⟩
  · rw [hx]
    exact Nat.zero_lt_succ _
  · rw [hx]
    exact Nat.lt_min.2 ⟨ceiling_pos e h, Nat.zero_lt_succ _⟩

/-- **The size of a part is positive**: a positive double has a positive part of every
positive number. -/
theorem ceilingSize_mul_pos (hn : 0 < n) (h₀ : 0 < x) (h₁ : x < 1) :
    0 < ceilingSize (Float.ofNat n * x) := by
  obtain ⟨m, e, h, hx⟩ := unpack_of_between h₀ h₁
  exact ceilingSize_pos (positive_mul (ofNat_atLeastOne hn) hx)

end NearestNeighbors.Binary64
