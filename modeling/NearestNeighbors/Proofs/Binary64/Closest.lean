import NearestNeighbors.Proofs.Binary64.Halfway
import NearestNeighbors.Proofs.Binary64.Root

/-!
# The closest double

A number that is rounded to its last place moves by half a unit at most, and of two doubles
equally close it is rounded to the one with an even last bit. No other double is closer: those
with larger steps are among the whole numbers of units, and those with smaller steps lie below
the number. Only the steps of half a unit matter for this, so a number that is compared with
them like a real number is rounded like it.

* `Closest`: the finite double closest to a real number, ties to even.
* `signWeight_le_of_nearest`, `even_toBits_iff`: first and last bits.
* `closest_of_units`: a whole number of units at most half a unit away.
* `StandsFor`, `closest_of_nearest`: rounding is closest.
* `Equals.closest_sqrt`: so are square roots.
-/

namespace NearestNeighbors.Binary64

open Float.Model Float.Model.UnpackedFloat

variable {x y : Float} {v w : ℚ} {r : ℝ} {s : Sign} {m n : ℕ} {e p : ℤ} {h : 0 < m}

/-- **The double closest to a real number**: no finite double is closer, and if another one is
as close, the last bit is even. -/
def Closest (r : ℝ) (x : Float) : Prop :=
  ∃ v : ℚ, Exactly x v ∧ ∀ y w, Exactly y w → |(v : ℝ) - r| ≤ |(w : ℝ) - r| ∧
    (|(v : ℝ) - r| = |(w : ℝ) - r| → w = v ∨ Even x.toBits.toNat)

/-! ## First and last bits -/

/-- The bits of a finite double end with those of its mantissa. -/
theorem exists_packComponents (hx : x.toModel.unpack = .finite s m e h) :
    ∃ E : BitVec 11, UnpackedFloat.pack Format.binary64 x.toModel.unpack =
      packComponents Format.binary64 s E (BitVec.ofNat 52 m) := by
  have hmax : e ≤ 971 := exponent_le hx
  rw [hx]
  unfold UnpackedFloat.pack
  dsimp only
  rw [biased_eq, if_neg (by show ¬ 2048 ≤ _; omega)]
  split_ifs
  · exact ⟨_, rfl⟩
  · exact ⟨_, rfl⟩

theorem signWeight_le_iff {E : BitVec 11} {M : BitVec 52}
    (hx : UnpackedFloat.pack Format.binary64 x.toModel.unpack =
      packComponents Format.binary64 s E M) :
    signWeight ≤ x.toBits.toNat ↔ s = .negative := by
  have hM : M.toNat < 2 ^ 52 := M.isLt
  have hE : E.toNat < 2 ^ 11 := E.isLt
  rw [toNat_toBits, hx, toNat_packComponents]
  unfold signWeight
  cases s with
  | negative =>
    refine iff_of_true ?_ rfl
    show _ ≤ 1 * 2 ^ 63 + _ + _
    omega
  | positive =>
    refine iff_of_false ?_ nofun
    show ¬ _ ≤ 0 * 2 ^ 63 + _ + _
    omega

/-- **The first bit** of a rounded number is its sign, though it be zero or infinite. -/
theorem signWeight_le_of_nearest (hx : x.toModel.unpack = nearest s v) :
    signWeight ≤ x.toBits.toNat ↔ s = .negative := by
  rcases nearest_cases s v with h | h | ⟨m, e, hm, h⟩
  · exact signWeight_le_iff (E := 0#11) (M := 0#52) (by rw [hx, h]; rfl)
  · exact signWeight_le_iff (E := -1#11) (M := 0#52) (by rw [hx, h]; rfl)
  · obtain ⟨E, hE⟩ := exists_packComponents (hx.trans h)
    exact signWeight_le_iff hE

theorem nearest_neg (s : Sign) (v : ℚ) : nearest (-s) v = (nearest s v).neg := by
  unfold nearest ofUnits bounded
  split_ifs with h0 hcarry
  · rfl
  · dsimp only
    split_ifs <;> rfl
  · dsimp only
    split_ifs <;> rfl

theorem even_toBits_of_zero (hx : x.toModel.unpack = .zero s) : Even x.toBits.toNat := by
  rw [toNat_toBits, hx]
  cases s <;> decide

/-- The last bit of a double is that of its mantissa. -/
theorem even_toBits_iff (hx : x.toModel.unpack = .finite s m e h) :
    Even x.toBits.toNat ↔ Even m := by
  obtain ⟨E, hE⟩ := exists_packComponents hx
  rw [toNat_toBits, hE, toNat_packComponents, BitVec.toNat_ofNat, Nat.even_iff, Nat.even_iff]
  omega

/-- A minus changes no last bit. -/
theorem Exactly.even_toBits_neg (hx : Exactly x v) (hev : Even x.toBits.toNat) :
    Even (-x).toBits.toNat := by
  have hneg := unpack_neg x
  unfold Exactly at hx
  generalize hu : x.toModel.unpack = u at hx hneg
  cases hx with
  | zero s => exact even_toBits_of_zero hneg
  | finite s m e h => exact (even_toBits_iff hneg).2 ((even_toBits_iff hu).1 hev)

/-- **A minus** turns what a double is closest to. -/
theorem Closest.neg (hx : Closest r x) : Closest (-r) (-x) := by
  obtain ⟨v, hv, hx⟩ := hx
  have hturn : ∀ a : ℝ, |-a - -r| = |a - r| := by
    intro a
    rw [← abs_neg]
    ring_nf
  refine ⟨-v, hv.neg, fun y w hw => ?_⟩
  obtain ⟨hle, htie⟩ := hx (-y) (-w) hw.neg
  have hw' := hturn (-w)
  rw [neg_neg] at hw'
  push_cast at hle htie ⊢
  rw [hturn, hw']
  refine ⟨hle, fun heq => ?_⟩
  rcases htie heq with h | h
  · exact .inl (by rw [← h, neg_neg])
  · exact .inr (hv.even_toBits_neg h)

/-! ## Rounding is closest -/

/-- A double has a whole number of units, or it is less than `2 ^ 52` of them. -/
theorem Exactly.units_or_lt (hy : Exactly y w) (p : ℤ) :
    (∃ k : ℤ, w = k * 2 ^ p) ∨ -1074 < p ∧ w < 2 ^ 52 * 2 ^ p := by
  unfold Exactly at hy
  generalize hu : y.toModel.unpack = u at hy
  cases hy with
  | zero s => exact .inl ⟨0, by rw [Int.cast_zero, zero_mul]⟩
  | finite s m e h =>
    obtain ⟨-, hlt, hle, -⟩ := canonical_of_unpack hu
    rcases le_or_gt p e with hp | hp
    · refine .inl ⟨s.apply m * 2 ^ (e - p).toNat, ?_⟩
      push_cast
      rw [mul_assoc, ← zpow_natCast, ← zpow_add₀ two_ne_zero]
      congr 2
      omega
    · refine .inr ⟨by omega, ?_⟩
      have hm : (s.apply m : ℚ) < 2 ^ 53 := by
        have : s.apply m < 2 ^ 53 := by
          cases s
          · rw [apply_negative]
            omega
          · rw [apply_positive]
            omega
        exact_mod_cast this
      calc (s.apply m : ℚ) * 2 ^ e < 2 ^ 53 * 2 ^ e := by gcongr
        _ = 2 ^ 52 * 2 ^ (e + 1) := by
          rw [zpow_add_one₀ two_ne_zero]
          ring
        _ ≤ 2 ^ 52 * 2 ^ p := by
          gcongr
          · exact one_le_two
          · omega

/-- **At most half a unit away** a double is closest, if it is even in the middle. -/
theorem closest_of_units (hx : Exactly x (n * 2 ^ p)) (hlow : 2 ^ 52 * 2 ^ p ≤ r ∨ p = -1074)
    (hnear : |n * 2 ^ p - r| ≤ 2 ^ (p - 1))
    (htie : |n * 2 ^ p - r| = 2 ^ (p - 1) → Even x.toBits.toNat) : Closest r x := by
  have hpow : (0 : ℝ) < 2 ^ p := by positivity
  have hhalf : (2 : ℝ) ^ (p - 1) = 2 ^ p / 2 := zpow_sub_one₀ two_ne_zero p
  rw [hhalf] at hnear htie
  -- another whole number of units is half a unit away at least
  have hunits : ∀ k : ℤ, k ≠ n → (2 : ℝ) ^ p / 2 ≤ |k * 2 ^ p - r| := by
    intro k hk
    have hstep : (1 : ℝ) ≤ |(k : ℝ) - n| := by
      have := Int.one_le_abs (sub_ne_zero.2 hk)
      exact_mod_cast this
    have hdist : (2 : ℝ) ^ p ≤ |(k : ℝ) * 2 ^ p - n * 2 ^ p| := by
      rw [← sub_mul, abs_mul, abs_of_pos hpow]
      exact le_mul_of_one_le_left hpow.le hstep
    have htri := abs_sub_le ((k : ℝ) * 2 ^ p) r (n * 2 ^ p)
    rw [abs_sub_comm r] at htri
    linarith
  have hall : ∀ k : ℤ, |n * 2 ^ p - r| ≤ |k * 2 ^ p - r| := by
    intro k
    by_cases hk : k = n
    · rw [hk]
      push_cast
      exact le_rfl
    · exact hnear.trans (hunits k hk)
  refine ⟨n * 2 ^ p, hx, fun y w hw => ?_⟩
  push_cast
  rcases hw.units_or_lt p with ⟨k, rfl⟩ | ⟨hp, hlt⟩
  · push_cast
    refine ⟨hall k, fun heq => ?_⟩
    by_cases hk : k = n
    · left
      rw [hk, Int.cast_natCast]
    · exact .inr (htie (le_antisymm hnear (heq ▸ hunits k hk)))
  · -- smaller steps lie below `2 ^ 52` units, which are closer
    have hlow' := hlow.resolve_right (by omega)
    have hlt' : (w : ℝ) < 2 ^ 52 * 2 ^ p := by
      have := (Rat.cast_lt (K := ℝ)).2 hlt
      push_cast at this
      exact this
    obtain ⟨k, hk⟩ : ∃ k : ℕ, (k : ℝ) = 2 ^ 52 := ⟨2 ^ 52, by norm_num⟩
    have hclose := hall k
    rw [Int.cast_natCast, hk] at hclose
    rw [abs_of_nonpos (a := 2 ^ 52 * 2 ^ p - r) (by linarith)] at hclose
    have hfar : |n * 2 ^ p - r| < |(w : ℝ) - r| := by
      rw [abs_of_neg (a := (w : ℝ) - r) (by linarith)]
      linarith
    exact ⟨hfar.le, fun heq => absurd heq hfar.ne⟩

/-- A nearest double that is not infinite has the rounded number of units, and its last bit is
theirs. -/
theorem exactly_of_nearest (hx : x.toModel.unpack = nearest .positive v)
    (hfin : x.toModel.unpack ≠ .infinity .positive) :
    Exactly x (units v * 2 ^ place v) ∧ (Even (units v) → Even x.toBits.toNat) := by
  unfold nearest ofUnits bounded at hx
  unfold Exactly
  split_ifs at hx with h0 hcarry
  · dsimp only at hx
    refine ⟨?_, fun _ => even_toBits_of_zero hx⟩
    rw [hx, h0, Nat.cast_zero, zero_mul]
    exact .zero _
  · -- one place too many, which is a zero
    dsimp only at hx
    split_ifs at hx with hbig
    · exact absurd hx hfin
    · have hvalue : (units v : ℚ) * 2 ^ place v =
          Sign.positive.apply (2 ^ 52 : ℕ) * 2 ^ (place v + 1) := by
        rw [hcarry, apply_positive, zpow_add_one₀ two_ne_zero]
        push_cast
        ring
      refine ⟨?_, fun _ => (even_toBits_iff hx).2 (by decide)⟩
      rw [hx, hvalue]
      exact .finite _ _ _ _
  · dsimp only at hx
    split_ifs at hx with hbig
    · exact absurd hx hfin
    · refine ⟨?_, (even_toBits_iff hx).2⟩
      rw [hx]
      exact .finite .positive _ _ _

section

variable {K : Type} [Field K] [LinearOrder K] [IsStrictOrderedRing K] {a : K}

theorem two_zpow_halves (p : ℤ) : (2 : K) ^ p = 2 * 2 ^ (p - 1) := by
  rw [mul_comm, ← zpow_add_one₀ two_ne_zero, sub_add_cancel]

/-- Halves of units are halves of the units of a lower place. -/
theorem mul_halves {d : ℕ} {q : ℤ} (hd : p - 1 = d + (q - 1)) (j : ℕ) :
    (j : K) * 2 ^ (p - 1) = (j * 2 ^ d : ℕ) / 2 * 2 ^ q := by
  rw [hd, zpow_add₀ two_ne_zero, zpow_natCast, two_zpow_halves q]
  push_cast
  ring

/-- The numbers at most half a unit away. -/
theorem abs_sub_le_half_iff : |n * 2 ^ p - a| ≤ 2 ^ (p - 1) ↔
    (2 * n - 1) * 2 ^ (p - 1) ≤ a ∧ a ≤ (2 * n + 1) * 2 ^ (p - 1) := by
  rw [two_zpow_halves p, abs_le]
  constructor
  · rintro ⟨hlow, hhigh⟩
    constructor <;> linarith
  · rintro ⟨hlow, hhigh⟩
    constructor <;> linarith

/-- The numbers in the middle. -/
theorem abs_sub_eq_half_iff : |n * 2 ^ p - a| = 2 ^ (p - 1) ↔
    a = (2 * n - 1) * 2 ^ (p - 1) ∨ a = (2 * n + 1) * 2 ^ (p - 1) := by
  rw [two_zpow_halves p, abs_eq (by positivity)]
  constructor
  · rintro (h | h)
    · left
      linarith
    · right
      linarith
  · rintro (h | h)
    · left
      linarith
    · right
      linarith

end

/-- **A number moves by half a unit at most** when it is rounded. -/
theorem abs_units_sub_le (hv : 0 ≤ v) : |units v * 2 ^ place v - v| ≤ 2 ^ (place v - 1) := by
  have hpow : (0 : ℚ) < 2 ^ place v := by positivity
  have hround : |(units v : ℚ) - v / 2 ^ place v| ≤ 1 / 2 := abs_roundEven_sub_le (by positivity)
  calc |units v * 2 ^ place v - v| = |(units v : ℚ) - v / 2 ^ place v| * 2 ^ place v := by
        rw [← abs_of_pos hpow, ← abs_mul, abs_of_pos hpow, sub_mul, div_mul_cancel₀ _ hpow.ne']
    _ ≤ 1 / 2 * 2 ^ place v := mul_le_mul_of_nonneg_right hround hpow.le
    _ = 2 ^ (place v - 1) := by
        rw [two_zpow_halves (place v)]
        ring

/-- In the middle the number of units is even. -/
theorem even_units (hv : 0 ≤ v) (h : |units v * 2 ^ place v - v| = 2 ^ (place v - 1)) :
    Even (units v) := by
  have hpow : (0 : ℚ) < 2 ^ place v := by positivity
  apply even_roundEven (v := v / 2 ^ place v) (by positivity)
  show |(units v : ℚ) - v / 2 ^ place v| = 1 / 2
  rw [← mul_left_inj' hpow.ne', ← abs_of_pos hpow, ← abs_mul, abs_of_pos hpow, sub_mul,
    div_mul_cancel₀ _ hpow.ne', h, two_zpow_halves (place v)]
  ring

/-- **A stand-in** for a real number: both compare alike with all halves of units in the last
place of the stand-in. -/
structure StandsFor (v : ℚ) (r : ℝ) : Prop where
  le_iff : ∀ k : ℕ, (k * 2 ^ (place v - 1) : ℚ) ≤ v ↔ (k * 2 ^ (place v - 1) : ℝ) ≤ r
  ge_iff : ∀ k : ℕ, v ≤ (k * 2 ^ (place v - 1) : ℚ) ↔ r ≤ (k * 2 ^ (place v - 1) : ℝ)

theorem standsFor_self (v : ℚ) : StandsFor v v := by
  refine ⟨fun k => ?_, fun k => ?_⟩
  · rw [← Rat.cast_le (K := ℝ)]
    push_cast
    exact Iff.rfl
  · rw [← Rat.cast_le (K := ℝ)]
    push_cast
    exact Iff.rfl

namespace StandsFor

theorem nonneg (hr : StandsFor v r) (hv : 0 ≤ v) : 0 ≤ r := by
  have h := hr.le_iff 0
  rw [Nat.cast_zero, Nat.cast_zero, zero_mul, zero_mul] at h
  exact h.1 hv

theorem eq_iff (hr : StandsFor v r) (k : ℕ) :
    v = (k * 2 ^ (place v - 1) : ℚ) ↔ r = (k * 2 ^ (place v - 1) : ℝ) := by
  rw [le_antisymm_iff, le_antisymm_iff, hr.le_iff, hr.ge_iff]

/-- What is half a unit away from a stand-in at most is so from the number. -/
theorem near (hr : StandsFor v r) (hv : 0 ≤ v) (h : |n * 2 ^ place v - v| ≤ 2 ^ (place v - 1)) :
    |n * 2 ^ place v - r| ≤ 2 ^ (place v - 1) := by
  rw [abs_sub_le_half_iff] at h ⊢
  have hup := (hr.ge_iff (2 * n + 1)).1 (by exact_mod_cast h.2)
  push_cast at hup
  refine ⟨?_, hup⟩
  cases n with
  | zero =>
    -- the half below zero
    have hpow : (0 : ℝ) < 2 ^ (place v - 1) := by positivity
    have := hr.nonneg hv
    rw [Nat.cast_zero]
    linarith
  | succ n =>
    have hdown := h.1
    rw [show (2 * (n + 1 : ℕ) - 1 : ℚ) = (2 * n + 1 : ℕ) by push_cast; ring] at hdown
    rw [show (2 * (n + 1 : ℕ) - 1 : ℝ) = (2 * n + 1 : ℕ) by push_cast; ring]
    exact (hr.le_iff _).1 hdown

/-- Where the number is in the middle the stand-in is, too. -/
theorem tie (hr : StandsFor v r) (hv : 0 ≤ v) (h : |n * 2 ^ place v - r| = 2 ^ (place v - 1)) :
    |n * 2 ^ place v - v| = 2 ^ (place v - 1) := by
  rw [abs_sub_eq_half_iff] at h ⊢
  rcases h with h | h
  · left
    cases n with
    | zero =>
      have hpow : (0 : ℝ) < 2 ^ (place v - 1) := by positivity
      have := hr.nonneg hv
      rw [Nat.cast_zero] at h
      linarith
    | succ n =>
      rw [show (2 * (n + 1 : ℕ) - 1 : ℝ) = (2 * n + 1 : ℕ) by push_cast; ring] at h
      rw [show (2 * (n + 1 : ℕ) - 1 : ℚ) = (2 * n + 1 : ℕ) by push_cast; ring]
      exact (hr.eq_iff _).2 h
  · right
    have hmid := (hr.eq_iff (2 * n + 1)).2 (by exact_mod_cast h)
    push_cast at hmid
    exact hmid

/-- **A rounded stand-in** is closest to what it stands for. -/
theorem closest (hr : StandsFor v r) (hv : 0 < v) (hx : x.toModel.unpack = nearest .positive v)
    (hfin : x.toModel.unpack ≠ .infinity .positive) : Closest r x := by
  obtain ⟨hvalue, heven⟩ := exactly_of_nearest hx hfin
  refine closest_of_units hvalue ?_ (hr.near hv.le (abs_units_sub_le hv.le))
    fun h => heven (even_units hv.le (hr.tie hv.le h))
  by_cases hlow : place v = -1074
  · exact .inr hlow
  · -- the leading place of the number is 52 places before the last one
    have hle : 2 ^ (place v + 52) ≤ v :=
      (le_place_iff hv (lt_of_le_of_ne (le_place v) (Ne.symm hlow))).1 le_rfl
    have hsplit : (2 : ℚ) ^ (place v + 52) = (2 ^ 53 : ℕ) * 2 ^ (place v - 1) := by
      rw [show place v + 52 = (53 : ℕ) + (place v - 1) by push_cast; ring, zpow_add₀ two_ne_zero,
        zpow_natCast]
      push_cast
      rfl
    rw [hsplit] at hle
    have hle' := (hr.le_iff _).1 hle
    rw [two_zpow_halves (place v)]
    push_cast at hle'
    exact .inl (by linarith)

end StandsFor

/-- **Rounding is closest**, unless a number is too large. -/
theorem closest_of_nearest (hv : 0 ≤ v) (hlt : v < 2 ^ (1024 : ℤ) - 2 ^ (970 : ℤ))
    (hx : x.toModel.unpack = nearest .positive v) : Closest v x := by
  have hfin : x.toModel.unpack ≠ .infinity .positive := by
    rw [hx, Ne, nearest_eq_infinity_iff hv]
    exact not_le.2 hlt
  rcases hv.lt_or_eq with hpos | rfl
  · exact (standsFor_self v).closest hpos hx hfin
  · -- a zero is closest to nothing
    rw [nearest_zero] at hx
    have hzero : Exactly x 0 := by
      unfold Exactly
      rw [hx]
      exact .zero _
    refine ⟨0, hzero, fun y w hw => ?_⟩
    rw [sub_self, abs_zero]
    exact ⟨abs_nonneg _, fun _ => .inr (even_toBits_of_zero hx)⟩

/-- Fractions are never too large. -/
theorem closest_of_le_one (hv : 0 ≤ v) (hle : v ≤ 1)
    (hx : x.toModel.unpack = nearest .positive v) : Closest v x := by
  have hsmall : (1 : ℚ) ≤ 2 ^ (1023 : ℤ) := one_le_zpow₀ one_le_two (by norm_num)
  have hdouble : (2 : ℚ) ^ (1024 : ℤ) = 2 ^ (1023 : ℤ) * 2 := zpow_add_one₀ two_ne_zero 1023
  have hcut : (2 : ℚ) ^ (970 : ℤ) < 2 ^ (1023 : ℤ) :=
    zpow_lt_zpow_right₀ one_lt_two (by norm_num)
  refine closest_of_nearest hv ?_ hx
  rw [hdouble, mul_two, lt_sub_iff_add_lt]
  exact add_lt_add_of_le_of_lt (hle.trans hsmall) hcut

theorem closest_zero : Closest 0 0 := by
  have h : Closest (0 : ℚ) 0 :=
    closest_of_le_one le_rfl zero_le_one (nearest_zero .positive).symm
  rwa [Rat.cast_zero] at h

/-! ## Square roots -/

/-- Halves of units up to a root are those up to its stand-in. -/
theorem RootOf.half_le_iff {k : ℕ} {t : ℤ} {q : ℚ} (hroot : RootOf v k t q) (j : ℕ) :
    (j : ℚ) / 2 ≤ q ↔ ((j : ℚ) / 2 * 2 ^ t) ^ 2 ≤ v := by
  have hlow := hroot.le_stand
  have hhigh := hroot.stand_lt
  have hfloor := hroot.floor_le
  have hceil := hroot.lt_ceil
  rcases lt_trichotomy j (2 * k + 1) with hj | rfl | hj
  · have hle : (j : ℚ) / 2 ≤ k := by
      have : (j : ℚ) ≤ 2 * k := by exact_mod_cast Nat.lt_succ_iff.1 hj
      linarith
    have hsquare : ((j : ℚ) / 2 * 2 ^ t) ^ 2 ≤ (k * 2 ^ t) ^ 2 := by gcongr
    exact iff_of_true (hle.trans hlow) (hsquare.trans hfloor)
  · have hmid : ((2 * k + 1 : ℕ) : ℚ) / 2 = k + 1 / 2 := by
      push_cast
      ring
    rw [hmid]
    rcases hroot.half with ⟨hq, hv⟩ | ⟨hq, hv⟩
    · exact iff_of_false (not_le.2 hq) (not_le.2 hv)
    · exact iff_of_true hq.le hv.le
  · have hle : ((k + 1 : ℕ) : ℚ) ≤ (j : ℚ) / 2 := by
      have : ((2 * (k + 1) : ℕ) : ℚ) ≤ j := by exact_mod_cast (by omega : 2 * (k + 1) ≤ j)
      push_cast at this ⊢
      linarith
    have hsquare : ((k + 1 : ℕ) * 2 ^ t : ℚ) ^ 2 ≤ ((j : ℚ) / 2 * 2 ^ t) ^ 2 := by gcongr
    push_cast at hle
    exact iff_of_false (not_le.2 (hhigh.trans_le hle)) (not_le.2 (hceil.trans_le hsquare))

/-- Halves of units from a root on are those from its stand-in on. -/
theorem RootOf.le_half_iff {k : ℕ} {t : ℤ} {q : ℚ} (hroot : RootOf v k t q) (j : ℕ) :
    q ≤ (j : ℚ) / 2 ↔ v ≤ ((j : ℚ) / 2 * 2 ^ t) ^ 2 := by
  have hlow := hroot.le_stand
  have hhigh := hroot.stand_lt
  have hfloor := hroot.floor_le
  have hceil := hroot.lt_ceil
  have hpow : (0 : ℚ) < 2 ^ t := by positivity
  rcases lt_trichotomy j (2 * k) with hj | rfl | hj
  · have hlt : (j : ℚ) / 2 < k := by
      have : (j : ℚ) < 2 * k := by exact_mod_cast hj
      linarith
    have hsquare : ((j : ℚ) / 2 * 2 ^ t) ^ 2 < (k * 2 ^ t) ^ 2 := by gcongr
    exact iff_of_false (not_le.2 (hlt.trans_le hlow)) (not_le.2 (hsquare.trans_le hfloor))
  · -- the root itself, when it is exact
    have hself : ((2 * k : ℕ) : ℚ) / 2 = k := by
      push_cast
      ring
    rw [hself]
    constructor
    · intro hq
      exact (hroot.exact_iff.2 (le_antisymm hq hlow)).le
    · intro hv
      exact (hroot.exact_iff.1 (le_antisymm hv hfloor)).le
  · rcases (Nat.succ_le_of_lt hj).eq_or_lt with rfl | hj
    · have hmid : ((2 * k).succ : ℚ) / 2 = k + 1 / 2 := by
        push_cast
        ring
      rw [hmid]
      rcases hroot.half with ⟨hq, hv⟩ | ⟨hq, hv⟩
      · exact iff_of_true hq.le hv.le
      · exact iff_of_false (not_le.2 hq) (not_le.2 hv)
    · have hle : ((k + 1 : ℕ) : ℚ) ≤ (j : ℚ) / 2 := by
        have : ((2 * (k + 1) : ℕ) : ℚ) ≤ j := by exact_mod_cast (by omega : 2 * (k + 1) ≤ j)
        push_cast at this ⊢
        linarith
      have hsquare : ((k + 1 : ℕ) * 2 ^ t : ℚ) ^ 2 ≤ ((j : ℚ) / 2 * 2 ^ t) ^ 2 := by gcongr
      push_cast at hle
      exact iff_of_true (hhigh.le.trans hle) (hceil.le.trans hsquare)

/-- **The stand-in of a root** stands for it. -/
theorem RootOf.standsFor {k : ℕ} {t : ℤ} {q : ℚ} (hroot : RootOf v k t q) :
    StandsFor (q * 2 ^ t) √v := by
  have hpow : (0 : ℚ) < 2 ^ t := by positivity
  have hpow' : (0 : ℝ) < 2 ^ t := by positivity
  have hunits : 0 < (k : ℚ) * 2 ^ t := mul_pos (by exact_mod_cast hroot.pos) hpow
  have hstand : (k : ℚ) * 2 ^ t ≤ q * 2 ^ t := mul_le_mul_of_nonneg_right hroot.le_stand hpow.le
  have hplace : t ≤ place (q * 2 ^ t) := hroot.le_place.trans (place_mono hunits hstand)
  have hnonneg : (0 : ℝ) ≤ v := by exact_mod_cast (sq_nonneg _).trans hroot.floor_le
  -- halves of units in the last place are halves of the units of the root
  obtain ⟨d, hd⟩ : ∃ d : ℕ, place (q * 2 ^ t) - 1 = d + (t - 1) :=
    ⟨(place (q * 2 ^ t) - t).toNat, by omega⟩
  have hhalf : ∀ j : ℕ, (j : ℚ) * 2 ^ (place (q * 2 ^ t) - 1) = (j * 2 ^ d : ℕ) / 2 * 2 ^ t :=
    mul_halves hd
  have hhalf' : ∀ j : ℕ, (j : ℝ) * 2 ^ (place (q * 2 ^ t) - 1) = (j * 2 ^ d : ℕ) / 2 * 2 ^ t :=
    mul_halves hd
  refine ⟨fun j => ?_, fun j => ?_⟩
  · rw [hhalf, hhalf', mul_le_mul_iff_left₀ hpow, hroot.half_le_iff,
      Real.le_sqrt (by positivity) hnonneg, ← Rat.cast_le (K := ℝ)]
    push_cast
    exact Iff.rfl
  · rw [hhalf, hhalf', mul_le_mul_iff_left₀ hpow, hroot.le_half_iff,
      Real.sqrt_le_left (by positivity), ← Rat.cast_le (K := ℝ)]
    push_cast
    exact Iff.rfl

/-- The root of a positive double is a positive double. -/
theorem Equals.exists_sqrt (hx : Equals x v) : ∃ w, Equals x.sqrt w := by
  have hsquare : ∀ k : ℤ, (((1 : ℕ) : ℚ) * 2 ^ k) ^ 2 = 2 ^ (2 * k) := by
    intro k
    rw [Nat.cast_one, one_mul, ← zpow_natCast, ← zpow_mul, mul_comm]
    rfl
  have hbounds : (2 : ℚ) ^ (2 * (-600) : ℤ) ≤ v ∧ v ≤ 2 ^ (2 * 600 : ℤ) := by
    obtain ⟨m, e, h, hx, rfl⟩ := hx
    obtain ⟨-, hlt, hle, -⟩ := canonical_of_unpack hx
    have hmax : e ≤ 971 := exponent_le hx
    have hone : (1 : ℚ) ≤ m := by exact_mod_cast h
    have hm : (m : ℚ) ≤ 2 ^ (53 : ℤ) := by exact_mod_cast hlt.le
    constructor
    · calc (2 : ℚ) ^ (2 * (-600) : ℤ) ≤ 1 * 2 ^ e := by
            rw [one_mul]
            exact zpow_le_zpow_right₀ one_le_two (by omega)
        _ ≤ m * 2 ^ e := by gcongr
    · calc (m : ℚ) * 2 ^ e ≤ 2 ^ (53 : ℤ) * 2 ^ e := by gcongr
        _ = 2 ^ (53 + e) := (zpow_add₀ two_ne_zero _ _).symm
        _ ≤ 2 ^ (2 * 600 : ℤ) := zpow_le_zpow_right₀ one_le_two (by omega)
  obtain ⟨y, hy⟩ := exists_equals (n := 1) (t := -600) one_pos (by norm_num) (by norm_num)
    (by norm_num)
  obtain ⟨z, hz⟩ := exists_equals (n := 1) (t := 600) one_pos (by norm_num) (by norm_num)
    (by norm_num)
  have hlow := hx.le_sqrt hy (by rw [hsquare]; exact hbounds.1)
  have hhigh := hx.sqrt_le hz (by rw [hsquare]; exact hbounds.2)
  have hy := hy.orderKey_between
  have hz := hz.orderKey_between
  rcases unsigned_cases hx.unsigned.sqrt (hhigh.trans hz.2.le) with h | h | h
  · rw [orderKey_of_zero h] at hlow
    omega
  · rw [orderKey_of_infinity h] at hhigh
    omega
  · exact h

/-- **A square root is closest** to the exact one. -/
theorem Equals.closest_sqrt (hx : Equals x v) : Closest √v x.sqrt := by
  obtain ⟨k, t, q, hroot, hsqrt⟩ := hx.exists_root
  obtain ⟨w, m, e, h, hw, -⟩ := hx.exists_sqrt
  have hstand : (k : ℚ) ≤ q := hroot.le_stand
  have hk : (0 : ℚ) < k := by exact_mod_cast hroot.pos
  refine hroot.standsFor.closest (mul_pos (hk.trans_le hstand) (by positivity)) hsqrt ?_
  rw [hw]
  nofun

end NearestNeighbors.Binary64
