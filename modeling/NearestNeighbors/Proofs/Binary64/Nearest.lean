import NearestNeighbors.Proofs.Binary64.Packing

/-!
# The double nearest to a rational

Products and quotients of doubles, and the reading of a decimal, end with one rounding of
an exact rational. `nearest` says what comes out of it, on the rational alone: whatever
arithmetic two rationals went through, equal ones round to the same double.

* `roundEven`, `place`, `nearest`: the nearest natural number, the exponent of the last
  place, and the nearest double.
* `Truncates`: what a mantissa and its two residual bits say about a rational; shifting
  keeps it.
* `unpack_pack_round`, `unpack_pack_mul`, `unpack_pack_div`: roundings, products and
  quotients are nearest.
* `nearest_eq_self`, `nearest_eq_infinity`, `nearest_eq_zero`: doubles, too large and too
  small numbers.
-/

namespace NearestNeighbors.Binary64

open Float.Model Float.Model.UnpackedFloat

/-! ## The nearest natural number -/

/-- The natural number nearest to `v`, of two equally near the even one. -/
def roundEven (v : ℚ) : ℕ :=
  if v - ⌊v⌋₊ < 1 / 2 then ⌊v⌋₊
  else if v - ⌊v⌋₊ = 1 / 2 then ⌊v⌋₊ + ⌊v⌋₊ % 2
  else ⌊v⌋₊ + 1

theorem floor_le_roundEven (v : ℚ) : ⌊v⌋₊ ≤ roundEven v := by
  unfold roundEven
  split_ifs <;> omega

theorem roundEven_le (v : ℚ) : roundEven v ≤ ⌊v⌋₊ + 1 := by
  unfold roundEven
  split_ifs <;> omega

theorem roundEven_natCast (n : ℕ) : roundEven n = n := by
  simp [roundEven]

theorem roundEven_of_lt_half {v : ℚ} (h : v < 1 / 2) : roundEven v = 0 := by
  have hfloor : ⌊v⌋₊ = 0 := Nat.floor_eq_zero.2 (by linarith)
  simp only [roundEven, hfloor, Nat.cast_zero, sub_zero, h, if_true]

/-! ## Mantissas and their residual bits -/

/-- A mantissa is the whole part of `v`; the round bit says whether the rest is at least a
half, the sticky bit whether it is anything but nothing or a half. -/
structure Truncates (em : ExtendedMantissa) (v : ℚ) : Prop where
  mantissa_eq : em.mantissa = ⌊v⌋₊
  roundBit_iff : em.roundBit = true ↔ 1 / 2 ≤ v - ⌊v⌋₊
  stickyBit_iff : em.stickyBit = true ↔ v - ⌊v⌋₊ ≠ 0 ∧ v - ⌊v⌋₊ ≠ 1 / 2

variable {em : ExtendedMantissa} {v : ℚ}

theorem truncates_exact (m : ℕ) : Truncates (.ofMantissaAndAccuracy m .exact) m := by
  constructor <;> simp [ExtendedMantissa.ofMantissaAndAccuracy]

/-- Half of a number: the last place of its whole part goes over into the rest. -/
theorem half_rest (v : ℚ) :
    v / 2 - ⌊v / 2⌋₊ = ((⌊v⌋₊ % 2 : ℕ) + (v - ⌊v⌋₊)) / 2 := by
  have hfloor : ⌊v / 2⌋₊ = ⌊v⌋₊ / 2 := Nat.floor_div_ofNat v 2
  have hsplit : (⌊v⌋₊ : ℚ) = 2 * (⌊v⌋₊ / 2 : ℕ) + (⌊v⌋₊ % 2 : ℕ) := by
    exact_mod_cast (Nat.div_add_mod ⌊v⌋₊ 2).symm
  rw [hfloor]
  linarith

theorem Truncates.shiftRightOne (hv : 0 ≤ v) (h : Truncates em v) :
    Truncates em.shiftRightOne (v / 2) := by
  have hrest : 0 ≤ v - ⌊v⌋₊ := sub_nonneg.2 (Nat.floor_le hv)
  have hrest' : v - ⌊v⌋₊ < 1 := by linarith [Nat.lt_floor_add_one v]
  have hsticky : (em.roundBit || em.stickyBit) = true ↔ v - ⌊v⌋₊ ≠ 0 := by
    rw [Bool.or_eq_true, h.roundBit_iff, h.stickyBit_iff]
    constructor
    · rintro (h | h)
      · linarith
      · exact h.1
    · intro hne
      by_cases heq : v - ⌊v⌋₊ = 1 / 2
      · exact .inl heq.ge
      · exact .inr ⟨hne, heq⟩
  have hbit : (em.mantissa % 2 != 0) = true ↔ ⌊v⌋₊ % 2 = 1 := by
    rw [h.mantissa_eq, bne_iff_ne]
    omega
  refine ⟨?_, ?_, ?_⟩
  · show em.mantissa / 2 = _
    rw [h.mantissa_eq]
    exact (Nat.floor_div_ofNat v 2).symm
  · show (em.mantissa % 2 != 0) = true ↔ _
    rw [hbit, half_rest]
    rcases Nat.mod_two_eq_zero_or_one ⌊v⌋₊ with h2 | h2
    · rw [h2]
      simp only [Nat.cast_zero, zero_add]
      exact ⟨nofun, fun h => by linarith⟩
    · rw [h2]
      simp only [Nat.cast_one, true_iff]
      linarith
  · show (em.roundBit || em.stickyBit) = true ↔ _
    rw [hsticky, half_rest]
    -- the rest of the half is nothing or a half exactly when there was no rest
    rcases Nat.mod_two_eq_zero_or_one ⌊v⌋₊ with h2 | h2
    · rw [h2]
      simp only [Nat.cast_zero, zero_add]
      refine ⟨fun hne => ⟨fun h => hne (by linarith), fun h => by linarith⟩, fun hne h => ?_⟩
      exact hne.1 (by linarith)
    · rw [h2]
      simp only [Nat.cast_one]
      refine ⟨fun hne => ⟨fun h => by linarith, fun h => hne (by linarith)⟩, fun hne h => ?_⟩
      exact hne.2 (by linarith)

theorem Truncates.shiftRight (hv : 0 ≤ v) (h : Truncates em v) (k : ℕ) :
    Truncates (em >>> k) (v / 2 ^ k) := by
  induction k with
  | zero =>
    rw [pow_zero, div_one]
    exact h
  | succ k ih =>
    have hk : (0 : ℚ) ≤ v / 2 ^ k := by positivity
    rw [shiftRight_succ, pow_succ, ← div_div]
    exact ih.shiftRightOne hk

theorem Truncates.roundedMantissa_eq (h : Truncates em v) :
    em.roundedMantissa = roundEven v := by
  obtain ⟨m, r, s⟩ := em
  obtain ⟨hm, hr, hs⟩ := h
  dsimp only at hm hr hs
  subst hm
  unfold roundEven
  by_cases hlt : v - ⌊v⌋₊ < 1 / 2
  · have hround : r = false := by
      rw [← Bool.not_eq_true, hr]
      exact not_le.2 hlt
    rw [if_pos hlt, hround]
    cases s <;> rfl
  · have hround : r = true := hr.2 (not_lt.1 hlt)
    rw [if_neg hlt, hround]
    by_cases heq : v - ⌊v⌋₊ = 1 / 2
    · have hsticky : s = false := by
        rw [← Bool.not_eq_true, hs]
        exact fun h => h.2 heq
      rw [if_pos heq, hsticky]
      rfl
    · have hsticky : s = true := hs.2 ⟨fun h => hlt (by rw [h]; norm_num), heq⟩
      rw [if_neg heq, hsticky]
      rfl

/-! ## The nearest double -/

/-- The exponent of the last place that a double keeps of `v`. -/
def place (v : ℚ) : ℤ := max (Int.log 2 v - 52) (-1074)

/-- How many units in the last place `v` has, rounded to the nearest number of them. -/
def units (v : ℚ) : ℕ := roundEven (v / 2 ^ place v)

/-- Exponents that are too large make a double infinite. -/
def bounded : UnpackedFloat → UnpackedFloat
  | .finite s m e h => if 971 < e then .infinity s else .finite s m e h
  | x => x

/-- **The double nearest to `v`**, with the given sign. -/
def nearest (s : Sign) (v : ℚ) : UnpackedFloat :=
  bounded (ofUnits s (units v) (place v))

theorem le_place (v : ℚ) : -1074 ≤ place v := le_max_right _ _

theorem units_le (v : ℚ) : units v ≤ 2 ^ 53 := by
  have hlt : v / 2 ^ place v < 2 ^ 53 := by
    rw [div_lt_iff₀ (by positivity)]
    refine (Int.lt_zpow_succ_log_self Nat.one_lt_two v).trans_le ?_
    rw [← zpow_natCast, ← zpow_add₀ two_ne_zero]
    refine zpow_le_zpow_right₀ one_le_two ?_
    have := le_max_left (Int.log 2 v - 52) (-1074)
    unfold place
    push_cast
    omega
  refine (roundEven_le _).trans (Nat.succ_le_of_lt ?_)
  exact (Nat.floor_lt' (by norm_num)).2 (by exact_mod_cast hlt)

theorem le_units (hv : 0 < v) : 2 ^ 52 ≤ units v ∨ place v = -1074 := by
  by_cases h : place v = -1074
  · exact .inr h
  · have hplace : place v = Int.log 2 v - 52 := by
      unfold place at h ⊢
      omega
    have hle : (2 : ℚ) ^ 52 ≤ v / 2 ^ place v := by
      rw [le_div_iff₀ (by positivity), ← zpow_natCast, ← zpow_add₀ two_ne_zero, hplace]
      push_cast
      rw [add_sub_cancel]
      exact Int.zpow_log_le_self Nat.one_lt_two hv
    exact .inl ((Nat.le_floor (by exact_mod_cast hle)).trans (floor_le_roundEven _))

theorem unpack_pack_zero (s : Sign) : (Float.Model.pack (.zero s)).unpack = .zero s := by
  cases s <;> rfl

/-- Packing loses nothing of a number of units but exponents that are too large. -/
theorem unpack_pack_ofUnits (s : Sign) {q : ℕ} {t : ℤ} (hq : q ≤ 2 ^ 53) (ht : -1074 ≤ t)
    (hfull : 2 ^ 52 ≤ q ∨ t = -1074) :
    (Float.Model.pack (ofUnits s q t)).unpack = bounded (ofUnits s q t) := by
  rcases Nat.eq_zero_or_pos q with rfl | hpos
  · exact unpack_pack_zero s
  · obtain ⟨m, e, h, heq, hc, -⟩ := ofUnits_finite s hpos hq ht hfull
    rw [heq]
    exact unpack_pack_finite hc

/-- The leading place of `v` is that of its whole part, if there is one, in any units. -/
theorem log_eq_log2_floor {e : ℤ} (hv : 0 < v) (hm : ⌊v / 2 ^ e⌋₊ ≠ 0) :
    Int.log 2 v = Nat.log2 ⌊v / 2 ^ e⌋₊ + e := by
  have hpos : (0 : ℚ) < 2 ^ e := by positivity
  have hlow : (2 : ℚ) ^ Nat.log2 ⌊v / 2 ^ e⌋₊ ≤ v / 2 ^ e := by
    have hle : (2 : ℚ) ^ Nat.log2 ⌊v / 2 ^ e⌋₊ ≤ ⌊v / 2 ^ e⌋₊ := by
      exact_mod_cast Nat.log2_self_le hm
    exact hle.trans (Nat.floor_le (by positivity))
  have hhigh : v / 2 ^ e < (2 : ℚ) ^ (Nat.log2 ⌊v / 2 ^ e⌋₊ + 1) := by
    have hle : (⌊v / 2 ^ e⌋₊ : ℚ) + 1 ≤ (2 : ℚ) ^ (Nat.log2 ⌊v / 2 ^ e⌋₊ + 1) := by
      exact_mod_cast Nat.lt_log2_self (n := ⌊v / 2 ^ e⌋₊)
    exact (Nat.lt_floor_add_one _).trans_le hle
  rw [le_div_iff₀ hpos, ← zpow_natCast, ← zpow_add₀ two_ne_zero] at hlow
  rw [div_lt_iff₀ hpos, ← zpow_natCast, ← zpow_add₀ two_ne_zero] at hhigh
  have hge := (Int.zpow_le_iff_le_log Nat.one_lt_two hv).1 (by exact_mod_cast hlow)
  have hlt := (Int.lt_zpow_iff_log_lt Nat.one_lt_two hv).1 (by exact_mod_cast hhigh)
  push_cast at hlt
  omega

/-- The whole part of `v` in units of `2 ^ e` shows the last place. -/
theorem lastPlace_floor {e : ℤ} (hv : 0 < v) (he : e ≤ place v) :
    lastPlace ⌊v / 2 ^ e⌋₊ e = place v := by
  by_cases h0 : ⌊v / 2 ^ e⌋₊ = 0
  · -- less than a unit is left, so that the last place is the lowest one
    have hpos : (0 : ℚ) < 2 ^ e := by positivity
    have hlt : v < 2 ^ e := (div_lt_one hpos).1 (Nat.floor_eq_zero.1 h0)
    have hlog := (Int.lt_zpow_iff_log_lt Nat.one_lt_two hv).1 (by exact_mod_cast hlt)
    rw [h0]
    unfold lastPlace
    unfold place at he ⊢
    rw [Nat.log2_zero]
    omega
  · unfold lastPlace place
    rw [log_eq_log2_floor hv h0]

/-- The last place of a number of units of `2 ^ e`. -/
theorem place_mul {m : ℕ} (hm : 0 < m) (e : ℤ) : place (m * 2 ^ e) = lastPlace m e := by
  have hpos : (0 : ℚ) < 2 ^ e := by positivity
  have hfloor : ⌊(m : ℚ) * 2 ^ e / 2 ^ e⌋₊ = m := by
    rw [mul_div_cancel_right₀ _ hpos.ne', Nat.floor_natCast]
  have hlog := log_eq_log2_floor (v := m * 2 ^ e) (e := e) (by positivity) (by rw [hfloor]; omega)
  rw [hfloor] at hlog
  unfold place lastPlace
  rw [hlog]

/-- **Rounding is nearest**: what a mantissa and its accuracy say about `v` is enough. -/
theorem roundWithAccuracy_eq {m : ℕ} {e : ℤ} {acc : Accuracy} (s : Sign) (hv : 0 < v)
    (h : Truncates (.ofMantissaAndAccuracy m acc) (v / 2 ^ e)) (he : e ≤ place v) :
    roundWithAccuracy Format.binary64 s m e acc = ofUnits s (units v) (place v) := by
  have hm : m = ⌊v / 2 ^ e⌋₊ := by
    have := h.mantissa_eq
    cases acc with
    | exact => exact this
    | inexact o => cases o <;> exact this
  have hpos : (0 : ℚ) ≤ v / 2 ^ e := by positivity
  have hshift : v / 2 ^ e / 2 ^ (place v - e).toNat = v / 2 ^ place v := by
    rw [div_div, ← zpow_natCast, ← zpow_add₀ two_ne_zero]
    congr 2
    omega
  have hround := (h.shiftRight hpos (place v - e).toNat).roundedMantissa_eq
  rw [hshift] at hround
  rw [← shifted_eq_ofUnits s (units_le v) (le_place v)]
  have hfirst : shiftToTargetExponent Format.binary64 m e acc =
      (ExtendedMantissa.ofMantissaAndAccuracy m acc >>> (place v - e).toNat, place v) := by
    unfold shiftToTargetExponent shiftToExponent
    rw [targetExponent_eq, hm, lastPlace_floor hv he]
    simp only [Prod.mk.injEq, true_and]
    omega
  unfold roundWithAccuracy
  rw [hfirst]
  dsimp only
  rw [hround]
  rfl

theorem unpack_pack_round {m : ℕ} {e : ℤ} {acc : Accuracy} (s : Sign) (hv : 0 < v)
    (h : Truncates (.ofMantissaAndAccuracy m acc) (v / 2 ^ e)) (he : e ≤ place v) :
    (Float.Model.pack (roundWithAccuracy Format.binary64 s m e acc)).unpack = nearest s v := by
  rw [roundWithAccuracy_eq s hv h he]
  exact unpack_pack_ofUnits s (units_le v) (le_place v) (le_units hv)

/-! ## Numbers that are doubles, too large or too small -/

/-- A nearest double keeps the sign it is given. -/
theorem nearest_cases (s : Sign) (v : ℚ) :
    nearest s v = .zero s ∨ nearest s v = .infinity s ∨
      ∃ m e h, nearest s v = .finite s m e h := by
  have hbounded : ∀ m e h, bounded (.finite s m e h) = .infinity s ∨
      bounded (.finite s m e h) = .finite s m e h := by
    intro m e h
    unfold bounded
    dsimp only
    split_ifs
    · exact .inl rfl
    · exact .inr rfl
  unfold nearest ofUnits
  split_ifs with h0 hfull
  · exact .inl rfl
  · exact .inr ((hbounded _ _ _).imp_right fun h => ⟨_, _, Nat.two_pow_pos 52, h⟩)
  · exact .inr ((hbounded _ _ _).imp_right fun h => ⟨_, _, Nat.pos_of_ne_zero h0, h⟩)

/-- The last place of a finite double is its exponent. -/
theorem Canonical.place_eq {m : ℕ} {e : ℤ} (hc : Canonical m e) : place (m * 2 ^ e) = e := by
  have hlt : m.log2 < 53 := (Nat.log2_lt hc.pos.ne').2 hc.lt
  have hle := hc.le
  rw [place_mul hc.pos]
  unfold lastPlace
  rcases hc.full with hfull | hlow
  · have : 52 ≤ m.log2 := (Nat.le_log2 hc.pos.ne').2 hfull
    omega
  · omega

/-- A double is nearest to itself. -/
theorem nearest_eq_self {m : ℕ} {e : ℤ} {h : 0 < m} (s : Sign) (hc : Canonical m e)
    (he : e ≤ 971) : nearest s (m * 2 ^ e) = .finite s m e h := by
  have hpos : (0 : ℚ) < 2 ^ e := by positivity
  have hplace : place (m * 2 ^ e) = e := hc.place_eq
  have hunits : units (m * 2 ^ e) = m := by
    unfold units
    rw [hplace, mul_div_cancel_right₀ _ hpos.ne', roundEven_natCast]
  have hofUnits : ofUnits s m e = .finite s m e h := by
    unfold ofUnits
    rw [dif_neg h.ne', if_neg hc.lt.ne]
  unfold nearest
  rw [hunits, hplace, hofUnits]
  show (if 971 < e then _ else _) = _
  rw [if_neg (not_lt.2 he)]

/-- Numbers from `2 ^ 1024` on are too large. -/
theorem nearest_eq_infinity (s : Sign) (h : 2 ^ (1024 : ℤ) ≤ v) :
    nearest s v = .infinity s := by
  have hv : 0 < v := lt_of_lt_of_le (by positivity) h
  have hlog : 1024 ≤ Int.log 2 v := by
    rw [← Int.zpow_le_iff_le_log Nat.one_lt_two hv]
    exact_mod_cast h
  have hplace : 972 ≤ place v := by
    unfold place
    omega
  have hunits : 0 < units v :=
    lt_of_lt_of_le (by norm_num) ((le_units hv).resolve_right (by omega))
  obtain ⟨m, e, hm, heq, -, he, -⟩ :=
    ofUnits_finite s hunits (units_le v) (le_place v) (le_units hv)
  unfold nearest
  rw [heq]
  show (if 971 < e then _ else _) = _
  rw [if_pos (by omega)]

/-- Numbers below half of the least double vanish. -/
theorem nearest_eq_zero (s : Sign) (hv : 0 < v) (h : v < 2 ^ (-1075 : ℤ)) :
    nearest s v = .zero s := by
  have hlog : Int.log 2 v < -1075 := by
    rw [← Int.lt_zpow_iff_log_lt Nat.one_lt_two hv]
    exact_mod_cast h
  have hplace : place v = -1074 := by
    unfold place
    omega
  have hunits : units v = 0 := by
    unfold units
    rw [hplace]
    refine roundEven_of_lt_half ?_
    rw [div_lt_iff₀ (by positivity)]
    refine h.trans_eq ?_
    rw [one_div, ← zpow_neg_one, ← zpow_add₀ two_ne_zero]
    rfl
  unfold nearest
  rw [hunits]
  rfl

theorem nearest_zero (s : Sign) : nearest s 0 = .zero s := by
  have hunits : units 0 = 0 := by
    unfold units
    rw [zero_div]
    exact roundEven_natCast 0
  unfold nearest
  rw [hunits]
  rfl

/-! ## Products and quotients -/

/-- Enough bits are left in a product, and it is rounded once. -/
theorem unpack_pack_mul (s₁ s₂ : Sign) {m₁ m₂ : ℕ} {e₁ e₂ : ℤ} (h₁ : 0 < m₁) (h₂ : 0 < m₂)
    (he : e₁ + e₂ ≤ place (m₁ * 2 ^ e₁ * (m₂ * 2 ^ e₂))) :
    (Float.Model.pack (UnpackedFloat.mul Format.binary64 (.finite s₁ m₁ e₁ h₁)
      (.finite s₂ m₂ e₂ h₂))).unpack = nearest (s₁ * s₂) (m₁ * 2 ^ e₁ * (m₂ * 2 ^ e₂)) := by
  have hv : (m₁ : ℚ) * 2 ^ e₁ * (m₂ * 2 ^ e₂) / 2 ^ (e₁ + e₂) = (m₁ * m₂ : ℕ) := by
    rw [zpow_add₀ two_ne_zero]
    push_cast
    field_simp
  refine unpack_pack_round _ (by positivity) ?_ he
  rw [hv]
  exact truncates_exact _

/-- The residual bits of a quotient, by its remainder. -/
theorem ofMantissaAndAccuracy_fraction (m r : ℕ) {d : ℕ} (hd : 0 < d) :
    ExtendedMantissa.ofMantissaAndAccuracy m (accuracyOfFraction r d) =
      ⟨m, decide (d ≤ 2 * r), decide (r ≠ 0 ∧ 2 * r ≠ d)⟩ := by
  unfold accuracyOfFraction
  by_cases h0 : r = 0
  · have hlt : ¬d ≤ 2 * r := by omega
    rw [if_pos h0, decide_eq_false hlt, decide_eq_false fun h => h.1 h0]
    rfl
  · rw [if_neg h0]
    rcases Nat.lt_trichotomy (2 * r) d with h | h | h
    · rw [Nat.compare_eq_lt.2 h, decide_eq_false (Nat.not_le.2 h), decide_eq_true ⟨h0, h.ne⟩]
      rfl
    · rw [Nat.compare_eq_eq.2 h, decide_eq_true h.ge, decide_eq_false fun h' => h'.2 h]
      rfl
    · rw [Nat.compare_eq_gt.2 h, decide_eq_true h.le, decide_eq_true ⟨h0, h.ne'⟩]
      rfl

/-- The accuracy of a quotient of natural numbers. -/
theorem truncates_fraction (n : ℕ) {d : ℕ} (hd : 0 < d) :
    Truncates (.ofMantissaAndAccuracy (n / d) (accuracyOfFraction (n % d) d)) (n / d) := by
  have hpos : (0 : ℚ) < d := by exact_mod_cast hd
  have hfloor : ⌊(n : ℚ) / d⌋₊ = n / d := Nat.floor_div_eq_div n d
  have hrest : (n : ℚ) / d - ⌊(n : ℚ) / d⌋₊ = (n % d : ℕ) / d := by
    have hsplit : (n : ℚ) = d * (n / d : ℕ) + (n % d : ℕ) := by
      exact_mod_cast (Nat.div_add_mod n d).symm
    rw [hfloor, sub_eq_iff_eq_add, div_eq_iff hpos.ne', add_mul, div_mul_cancel₀ _ hpos.ne']
    linarith
  have hhalf : (1 : ℚ) / 2 ≤ (n % d : ℕ) / d ↔ d ≤ 2 * (n % d) := by
    rw [div_le_div_iff₀ two_pos hpos, one_mul, mul_comm]
    exact_mod_cast Iff.rfl
  have heq : ((n % d : ℕ) : ℚ) / d = 1 / 2 ↔ 2 * (n % d) = d := by
    rw [div_eq_div_iff hpos.ne' two_ne_zero, one_mul, mul_comm]
    exact_mod_cast Iff.rfl
  have hzero : ((n % d : ℕ) : ℚ) / d = 0 ↔ n % d = 0 := by
    rw [div_eq_zero_iff, or_iff_left hpos.ne']
    exact_mod_cast Iff.rfl
  rw [ofMantissaAndAccuracy_fraction _ _ hd]
  refine ⟨hfloor.symm, ?_, ?_⟩
  · rw [hrest, hhalf, decide_eq_true_iff]
  · rw [decide_eq_true_iff, hrest]
    exact and_congr (not_congr hzero.symm) (not_congr heq.symm)

/-- A quotient is worked out to one place more than is kept. -/
theorem quotientExponent_le {m₁ m₂ : ℕ} (e₁ e₂ : ℤ) (h₁ : 0 < m₁) (h₂ : 0 < m₂) :
    Format.binary64.targetExponent (totalExponent m₁ e₁ - totalExponent m₂ e₂) ≤
      place (m₁ * 2 ^ e₁ / (m₂ * 2 ^ e₂)) := by
  have hv : (0 : ℚ) < m₁ * 2 ^ e₁ / (m₂ * 2 ^ e₂) := by positivity
  have hlog : (m₁.log2 : ℤ) + e₁ - (m₂.log2 + 1 + e₂) ≤
      Int.log 2 ((m₁ : ℚ) * 2 ^ e₁ / (m₂ * 2 ^ e₂)) := by
    rw [← Int.zpow_le_iff_le_log Nat.one_lt_two hv]
    have hlow : ((2 ^ m₁.log2 : ℕ) : ℚ) ≤ m₁ := by exact_mod_cast Nat.log2_self_le h₁.ne'
    have hhigh : (m₂ : ℚ) ≤ ((2 ^ (m₂.log2 + 1) : ℕ) : ℚ) := by
      exact_mod_cast Nat.lt_log2_self.le
    have htwo : ((2 : ℕ) : ℚ) ≠ 0 := by norm_num
    rw [zpow_sub₀ htwo, zpow_add₀ htwo, zpow_add₀ htwo]
    rw [Nat.cast_pow, ← zpow_natCast] at hlow hhigh
    push_cast at hlow hhigh ⊢
    gcongr
  show max (((m₁.log2 : ℤ) + 1 + e₁) - (m₂.log2 + 1 + e₂) - ((1 + 52 : ℕ) : ℤ))
    (3 - 1024 - ((1 + 52 : ℕ) : ℤ)) ≤ _
  unfold place
  omega

/-- A quotient is rounded once. -/
theorem unpack_pack_div (s₁ s₂ : Sign) {m₁ m₂ : ℕ} {e₁ e₂ : ℤ} (h₁ : 0 < m₁) (h₂ : 0 < m₂) :
    (Float.Model.pack (UnpackedFloat.div Format.binary64 (.finite s₁ m₁ e₁ h₁)
      (.finite s₂ m₂ e₂ h₂))).unpack = nearest (s₁ / s₂) (m₁ * 2 ^ e₁ / (m₂ * 2 ^ e₂)) := by
  have hle := quotientExponent_le e₁ e₂ h₁ h₂
  simp only [UnpackedFloat.div, divCore]
  generalize ht : min (e₁ - e₂)
    (Format.binary64.targetExponent (totalExponent m₁ e₁ - totalExponent m₂ e₂)) = t
  have hshift : ((m₁ <<< (e₁ - e₂ - t).toNat : ℕ) : ℚ) / m₂ =
      m₁ * 2 ^ e₁ / (m₂ * 2 ^ e₂) / 2 ^ t := by
    have hexp : (2 : ℚ) ^ (e₁ - e₂ - t).toNat = 2 ^ e₁ / 2 ^ e₂ / 2 ^ t := by
      rw [← zpow_natCast, ← zpow_sub₀ two_ne_zero, ← zpow_sub₀ two_ne_zero]
      congr 1
      omega
    rw [Nat.shiftLeft_eq]
    push_cast
    rw [hexp]
    field_simp
  refine unpack_pack_round _ (by positivity) ?_ (by omega)
  rw [← hshift]
  exact truncates_fraction _ h₂

end NearestNeighbors.Binary64
