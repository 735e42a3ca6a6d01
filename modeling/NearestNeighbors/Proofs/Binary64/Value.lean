import NearestNeighbors.Proofs.Binary64.Nearest
import NearestNeighbors.Proofs.Binary64.Positive
import NearestNeighbors.Proofs.Binary64.Unpacking

/-!
# Positive doubles and their values

A positive finite double is an exact rational, it is the double nearest to that rational, and
no other double has the same value. So products and quotients are nearest to those of the
values.

* `Equals`: a positive double and its exact value.
* `Equals.unpack_eq`, `Equals.unique`: a double and its value determine one another.
* `Equals.unpack_mul`, `Equals.unpack_div`: products and quotients.
* `exists_canonical`, `equals_of_nearest`: numbers of 53 places, in any units that are neither
  too small nor too large.
* `equals_toFloat`: small natural numbers.
-/

namespace NearestNeighbors.Binary64

open Float.Model Float.Model.UnpackedFloat

/-- The double `x` is positive and finite, and it is exactly `v`. -/
def Equals (x : Float) (v : ℚ) : Prop :=
  ∃ m e h, x.toModel.unpack = .finite .positive m e h ∧ (m : ℚ) * 2 ^ e = v

variable {x y : Float} {v w : ℚ} {n : ℕ} {t : ℤ}

/-- A double is nearest to its own value. -/
theorem Equals.unpack_eq (hx : Equals x v) : x.toModel.unpack = nearest .positive v := by
  obtain ⟨m, e, h, hx, rfl⟩ := hx
  rw [hx, nearest_eq_self .positive (canonical_of_unpack hx) (exponent_le hx)]

theorem Equals.pos (hx : Equals x v) : 0 < v := by
  obtain ⟨m, e, h, -, rfl⟩ := hx
  positivity

/-- A double has one value. -/
theorem Equals.unique (hx : Equals x v) (hx' : Equals x w) : v = w := by
  obtain ⟨m, e, h, hx, rfl⟩ := hx
  obtain ⟨m', e', h', hx', rfl⟩ := hx'
  cases hx.symm.trans hx'
  rfl

/-- Of two factors one has all its places in use, or both are of the lowest exponent. -/
theorem le_place_mul {m₁ m₂ : ℕ} {e₁ e₂ : ℤ} (h₁ : Canonical m₁ e₁) (h₂ : Canonical m₂ e₂) :
    e₁ + e₂ ≤ place (m₁ * 2 ^ e₁ * (m₂ * 2 ^ e₂)) := by
  have hmul : (m₁ : ℚ) * 2 ^ e₁ * (m₂ * 2 ^ e₂) = (m₁ * m₂ : ℕ) * 2 ^ (e₁ + e₂) := by
    rw [zpow_add₀ two_ne_zero]
    push_cast
    ring
  rw [hmul, place_mul (Nat.mul_pos h₁.pos h₂.pos)]
  unfold lastPlace
  rcases h₁.full with hfull | hlow
  · have := log2_mul_ge hfull h₂.pos
    omega
  · rcases h₂.full with hfull' | hlow'
    · have := log2_mul_ge hfull' h₁.pos
      rw [Nat.mul_comm] at this
      omega
    · omega

theorem Equals.unpack_mul (hx : Equals x v) (hy : Equals y w) :
    (x * y).toModel.unpack = nearest .positive (v * w) := by
  obtain ⟨m₁, e₁, h₁, hx, rfl⟩ := hx
  obtain ⟨m₂, e₂, h₂, hy, rfl⟩ := hy
  have he := le_place_mul (canonical_of_unpack hx) (canonical_of_unpack hy)
  show (Float.Model.pack (UnpackedFloat.mul Format.binary64 x.toModel.unpack
    y.toModel.unpack)).unpack = _
  rw [hx, hy, unpack_pack_mul .positive .positive h₁ h₂ he]
  rfl

theorem Equals.unpack_div (hx : Equals x v) (hy : Equals y w) :
    (x / y).toModel.unpack = nearest .positive (v / w) := by
  obtain ⟨m₁, e₁, h₁, hx, rfl⟩ := hx
  obtain ⟨m₂, e₂, h₂, hy, rfl⟩ := hy
  show (Float.Model.pack (UnpackedFloat.div Format.binary64 x.toModel.unpack
    y.toModel.unpack)).unpack = _
  rw [hx, hy, unpack_pack_div .positive .positive h₁ h₂]
  rfl

/-! ## Numbers of 53 places -/

/-- Numbers of 53 places are moved up until they have all of them. -/
theorem exists_canonical (hn : 0 < n) (hle : n ≤ 2 ^ 53) (ht : -1022 ≤ t) (ht' : t ≤ 970) :
    ∃ m e, Canonical m e ∧ e ≤ 971 ∧ (m : ℚ) * 2 ^ e = n * 2 ^ t := by
  rcases hle.lt_or_eq with hlt | rfl
  · have hlog : n.log2 < 53 := (Nat.log2_lt hn.ne').2 hlt
    have hlow : 2 ^ 52 ≤ n * 2 ^ (52 - n.log2) := by
      have hself := Nat.mul_le_mul_right (2 ^ (52 - n.log2)) (Nat.log2_self_le hn.ne')
      rwa [← Nat.pow_add, show n.log2 + (52 - n.log2) = 52 by omega] at hself
    have hhigh : n * 2 ^ (52 - n.log2) < 2 ^ 53 := by
      have hself := Nat.mul_lt_mul_of_pos_right (Nat.lt_log2_self (n := n))
        (Nat.two_pow_pos (52 - n.log2))
      rwa [← Nat.pow_add, show n.log2 + 1 + (52 - n.log2) = 53 by omega] at hself
    refine ⟨n * 2 ^ (52 - n.log2), t - (52 - n.log2 : ℕ),
      ⟨by omega, hhigh, by omega, .inl hlow⟩, by omega, ?_⟩
    push_cast
    rw [mul_assoc, ← zpow_natCast, ← zpow_add₀ two_ne_zero]
    congr 2
    omega
  · -- one place too many, and the last one is a zero
    refine ⟨2 ^ 52, t + 1, ⟨by omega, by omega, by omega, .inl le_rfl⟩, by omega, ?_⟩
    rw [zpow_add_one₀ two_ne_zero]
    push_cast
    ring

/-- A double nearest to a number of 53 places is this number. -/
theorem equals_of_nearest (hn : 0 < n) (hle : n ≤ 2 ^ 53) (ht : -1022 ≤ t) (ht' : t ≤ 970)
    (hx : x.toModel.unpack = nearest .positive (n * 2 ^ t)) : Equals x (n * 2 ^ t) := by
  obtain ⟨m, e, hc, he, hvalue⟩ := exists_canonical hn hle ht ht'
  refine ⟨m, e, hc.pos, ?_, hvalue⟩
  rw [hx, ← hvalue]
  exact nearest_eq_self .positive hc he

/-- Small natural numbers are doubles. -/
theorem equals_toFloat (hn : 0 < n) (hlt : n < 2 ^ 53) : Equals n.toUInt64.toFloat n := by
  have hunit : (n : ℚ) * 2 ^ (0 : ℤ) = n := by rw [zpow_zero, mul_one]
  have hpos : (0 : ℚ) < n := by exact_mod_cast hn
  have h := equals_of_nearest (x := n.toUInt64.toFloat) (t := 0) hn hlt.le (by norm_num)
    (by norm_num)
  rw [hunit] at h
  apply h
  -- the number was moved up before it was rounded
  have hlog : n.log2 < 53 := (Nat.log2_lt hn.ne').2 hlt
  have hshift : ((n <<< (52 - n.log2) : ℕ) : ℚ) = n / 2 ^ ((n.log2 : ℤ) - 52) := by
    rw [Nat.shiftLeft_eq, div_eq_mul_inv, ← zpow_neg]
    push_cast
    rw [← zpow_natCast]
    congr 2
    omega
  rw [unpack_toFloat hn hlt]
  apply unpack_pack_round .positive hpos
  · rw [← hshift]
    exact truncates_exact _
  · rw [← hunit, place_mul hn]
    unfold lastPlace
    omega

end NearestNeighbors.Binary64
