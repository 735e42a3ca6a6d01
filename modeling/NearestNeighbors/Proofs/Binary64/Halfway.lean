import NearestNeighbors.Proofs.Binary64.Fraction

/-!
# Halves and cut-offs

A number in the middle of two whole ones is rounded to the even one. This decides where the
finite doubles end: half a unit above the largest double the number of units is even one place
further on, so that it is too large, and half of the least double is nothing.

* `even_roundEven`, `le_roundEven_iff`, `roundEven_eq_zero_iff`: numbers in the middle.
* `le_place_iff`: the place of a number by its size.
* `nearest_eq_infinity_iff`, `nearest_eq_zero_iff`: from where on numbers are too large, and up
  to where they are too small.
-/

namespace NearestNeighbors.Binary64

open Float.Model Float.Model.UnpackedFloat

variable {v : ℚ} {s : Sign} {n : ℕ} {p : ℤ}

/-! ## Halves -/

/-- Of two natural numbers equally near, the even one is taken. -/
theorem even_roundEven (hv : 0 ≤ v) (htie : |(roundEven v : ℚ) - v| = 1 / 2) :
    Even (roundEven v) := by
  have hfloor : (⌊v⌋₊ : ℚ) ≤ v := Nat.floor_le hv
  have hceil : v < ⌊v⌋₊ + 1 := Nat.lt_floor_add_one v
  rw [Nat.even_iff]
  unfold roundEven at htie ⊢
  split_ifs at htie ⊢ with hlt heq
  · rw [abs_of_nonpos (by linarith)] at htie
    linarith
  · omega
  · push_cast at htie
    rw [abs_of_pos (by linarith)] at htie
    exact absurd (by linarith) heq

/-- An even number that is rounded to has its halves. -/
theorem le_roundEven_iff (hv : 0 ≤ v) (hn : Even n) : n ≤ roundEven v ↔ n - 1 / 2 ≤ v := by
  have hround := abs_le.1 (abs_roundEven_sub_le hv)
  constructor
  · intro hle
    have : (n : ℚ) ≤ roundEven v := by exact_mod_cast hle
    linarith [hround.2]
  · intro hle
    by_contra hlt
    have hsucc : (roundEven v : ℚ) + 1 ≤ n := by exact_mod_cast not_le.1 hlt
    -- half way from the odd number below, which is not taken
    have htie : |(roundEven v : ℚ) - v| = 1 / 2 := by
      rw [abs_of_nonpos (by linarith)]
      linarith [hround.1]
    have hnext : n = roundEven v + 1 := by
      have : (n : ℚ) ≤ roundEven v + 1 := by linarith [hround.1]
      have : n ≤ roundEven v + 1 := by exact_mod_cast this
      omega
    have heven := even_roundEven hv htie
    rw [Nat.even_iff] at heven hn
    omega

/-- **Up to a half nothing is left.** -/
theorem roundEven_eq_zero_iff (hv : 0 ≤ v) : roundEven v = 0 ↔ v ≤ 1 / 2 := by
  have hround := abs_le.1 (abs_roundEven_sub_le hv)
  constructor
  · intro h0
    rw [h0] at hround
    push_cast at hround
    linarith [hround.1]
  · intro hle
    by_contra hne
    have hone : (1 : ℚ) ≤ roundEven v := by exact_mod_cast Nat.one_le_iff_ne_zero.2 hne
    have htie : |(roundEven v : ℚ) - v| = 1 / 2 := by
      rw [abs_of_nonneg (by linarith)]
      linarith [hround.2]
    have heven := even_roundEven hv htie
    have hlt : (roundEven v : ℚ) < 2 := by linarith [hround.2]
    have hlt' : roundEven v < 2 := by exact_mod_cast hlt
    rw [Nat.even_iff] at heven
    omega

/-! ## Cut-offs -/

/-- A number of units is infinite when the exponent is too large, the place one more than it
is full included. -/
theorem bounded_ofUnits_eq_infinity_iff (hfull : 2 ^ 52 ≤ n ∨ p = -1074) :
    bounded (ofUnits s n p) = .infinity s ↔ 971 < p ∨ p = 971 ∧ n = 2 ^ 53 := by
  unfold ofUnits
  split_ifs with h0 hcarry
  · have hlow : p = -1074 := hfull.resolve_left (by omega)
    exact iff_of_false nofun (by omega)
  · unfold bounded
    dsimp only
    split_ifs with hbig
    · exact iff_of_true rfl (by omega)
    · exact iff_of_false nofun (by omega)
  · unfold bounded
    dsimp only
    split_ifs with hbig
    · exact iff_of_true rfl (.inl hbig)
    · exact iff_of_false nofun (by omega)

/-- The last place of a number, by its size. -/
theorem le_place_iff (hv : 0 < v) {k : ℤ} (hk : -1074 < k) : k ≤ place v ↔ 2 ^ (k + 52) ≤ v := by
  have hlog := Int.zpow_le_iff_le_log Nat.one_lt_two hv (x := k + 52)
  push_cast at hlog
  rw [hlog]
  unfold place
  omega

/-- **Numbers are too large** from half a unit above the largest double on. -/
theorem nearest_eq_infinity_iff (hv : 0 ≤ v) :
    nearest s v = .infinity s ↔ 2 ^ (1024 : ℤ) - 2 ^ (970 : ℤ) ≤ v := by
  have hmul : ∀ k : ℕ, (2 : ℚ) ^ (970 + k : ℤ) = 2 ^ k * 2 ^ (970 : ℤ) := by
    intro k
    rw [zpow_add₀ two_ne_zero, zpow_natCast, mul_comm]
  have h971 : (2 : ℚ) ^ (971 : ℤ) = 2 ^ 1 * 2 ^ (970 : ℤ) := hmul 1
  have h1023 : (2 : ℚ) ^ (1023 : ℤ) = 2 ^ 53 * 2 ^ (970 : ℤ) := hmul 53
  have h1024 : (2 : ℚ) ^ (1024 : ℤ) = 2 ^ 54 * 2 ^ (970 : ℤ) := hmul 54
  have hpow : (0 : ℚ) < 2 ^ (970 : ℤ) := by positivity
  rcases hv.lt_or_eq with hpos | rfl
  · have h972 : 972 ≤ place v ↔ 2 ^ (1024 : ℤ) ≤ v := le_place_iff hpos (by norm_num)
    have h971' : 971 ≤ place v ↔ 2 ^ (1023 : ℤ) ≤ v := le_place_iff hpos (by norm_num)
    have hunits : 2 ^ 53 ≤ units v ↔ ((2 ^ 53 : ℕ) : ℚ) - 1 / 2 ≤ v / 2 ^ place v :=
      le_roundEven_iff (by positivity) (by decide)
    have hmax := units_le v
    rw [show nearest s v = bounded (ofUnits s (units v) (place v)) from rfl,
      bounded_ofUnits_eq_infinity_iff (le_units hpos)]
    rw [h1024] at h972 ⊢
    rw [h1023] at h971'
    rw [le_div_iff₀ (by positivity)] at hunits
    push_cast at hunits
    generalize (2 : ℚ) ^ (970 : ℤ) = u at *
    constructor
    · rintro (hbig | ⟨hp, hn⟩)
      · linarith [h972.1 hbig]
      · have hle := hunits.1 hn.ge
        rw [hp, h971] at hle
        linarith
    · intro hle
      rcases (h971'.2 (by linarith)).lt_or_eq with hbig | hp
      · exact .inl hbig
      · refine .inr ⟨hp.symm, le_antisymm hmax (hunits.2 ?_)⟩
        rw [← hp, h971]
        linarith
  · rw [nearest_zero, h1024]
    refine iff_of_false nofun (not_le.2 ?_)
    rw [← sub_one_mul]
    exact mul_pos (by norm_num) hpow

/-- **Numbers are too small** up to half of the least double. -/
theorem nearest_eq_zero_iff (hv : 0 ≤ v) : nearest s v = .zero s ↔ v ≤ 2 ^ (-1075 : ℤ) := by
  rcases hv.lt_or_eq with hpos | rfl
  · have hhalf : (2 : ℚ) ^ (-1075 : ℤ) = 1 / 2 * 2 ^ (-1074 : ℤ) := by
      rw [show (-1075 : ℤ) = -1074 - 1 by norm_num, zpow_sub_one₀ two_ne_zero]
      ring
    have hzero : nearest s v = .zero s ↔ units v = 0 := by
      unfold nearest ofUnits bounded
      split_ifs with h0 hcarry
      · exact iff_of_true rfl h0
      · dsimp only
        split_ifs <;> exact iff_of_false nofun h0
      · dsimp only
        split_ifs <;> exact iff_of_false nofun h0
    have hunits : units v = 0 ↔ v / 2 ^ place v ≤ 1 / 2 := roundEven_eq_zero_iff (by positivity)
    rw [hzero, hunits, div_le_iff₀ (by positivity), hhalf]
    constructor
    · intro hle
      have h0 : units v = 0 := hunits.2 (by rwa [div_le_iff₀ (by positivity)])
      rwa [(le_units hpos).resolve_left (by omega)] at hle
    · intro hle
      refine hle.trans ?_
      gcongr
      · exact one_le_two
      · exact le_place v
  · rw [nearest_zero]
    exact iff_of_true rfl (by positivity)

end NearestNeighbors.Binary64
