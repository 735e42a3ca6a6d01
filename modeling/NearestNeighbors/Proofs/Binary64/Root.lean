import NearestNeighbors.Proofs.Binary64.Exact

/-!
# Square roots

A square root is worked out to a whole number of units, and what is left over only decides
whether it is rounded up. So it does not fall below a double whose square is no larger, and does
not rise above one whose square is no smaller. Between the roots of two small natural numbers
there are two doubles, and the roots are different.

* `RootOf`: the whole units of a root, and a stand-in for the root that is rounded like it.
* `Equals.exists_root`: square roots are rounded once.
* `Equals.le_sqrt`, `Equals.sqrt_le`: roots and the doubles around them.
* `sqrt_ofNat_lt`: different small natural numbers have different roots.
-/

namespace NearestNeighbors.Binary64

open Float.Model Float.Model.UnpackedFloat

variable {x y : Float} {v c : ℚ} {a b : ℕ}

/-- **A root in whole units**: the root of `v` has `r` units of `2 ^ t`, more than `r` units
unless it is exact, and `q` units are on the same side of the middle and rounded as it is. -/
structure RootOf (v : ℚ) (r : ℕ) (t : ℤ) (q : ℚ) : Prop where
  pos : 0 < r
  le_place : t ≤ place (r * 2 ^ t)
  floor_le : (r * 2 ^ t) ^ 2 ≤ v
  lt_ceil : v < ((r + 1 : ℕ) * 2 ^ t) ^ 2
  le_stand : (r : ℚ) ≤ q
  stand_lt : q < r + 1
  exact_iff : v = (r * 2 ^ t) ^ 2 ↔ q = r
  half : (q < r + 1 / 2 ∧ v < ((r + 1 / 2) * 2 ^ t) ^ 2) ∨
    (r + 1 / 2 < q ∧ ((r + 1 / 2) * 2 ^ t) ^ 2 < v)

/-- How near a root is to `r`, by its remainder. -/
def rootAccuracy (r rem : ℕ) : Accuracy :=
  if rem = 0 then .exact else .inexact (if rem ≤ r then .lt else .gt)

/-- The residual bits of a root. -/
theorem truncates_root (r rem : ℕ) : ∃ q : ℚ, (r : ℚ) ≤ q ∧ q < r + 1 ∧ (rem = 0 ↔ q = r) ∧
    ((q < r + 1 / 2 ∧ rem ≤ r) ∨ (r + 1 / 2 < q ∧ r < rem)) ∧
    Truncates (.ofMantissaAndAccuracy r (rootAccuracy r rem)) q := by
  unfold rootAccuracy
  by_cases h0 : rem = 0
  · rw [if_pos h0]
    exact ⟨r, le_rfl, by linarith, iff_of_true h0 rfl, .inl ⟨by linarith, by omega⟩,
      truncates_exact r⟩
  · rw [if_neg h0]
    have hfloor : ∀ d : ℚ, 0 ≤ d → d < 1 → ⌊(r : ℚ) + d⌋₊ = r := by
      intro d hd hd'
      rw [add_comm, Nat.floor_add_natCast hd, Nat.floor_eq_zero.2 hd', Nat.zero_add]
    by_cases hle : rem ≤ r
    · rw [if_pos hle]
      refine ⟨r + 1 / 4, by linarith, by linarith, iff_of_false h0 (by linarith),
        .inl ⟨by linarith, hle⟩, ?_⟩
      have h := hfloor (1 / 4) (by norm_num) (by norm_num)
      constructor <;> rw [h] <;> norm_num [ExtendedMantissa.ofMantissaAndAccuracy]
    · rw [if_neg hle]
      refine ⟨r + 3 / 4, by linarith, by linarith, iff_of_false h0 (by linarith),
        .inr ⟨by linarith, not_le.1 hle⟩, ?_⟩
      have h := hfloor (3 / 4) (by norm_num) (by norm_num)
      constructor <;> rw [h] <;> norm_num [ExtendedMantissa.ofMantissaAndAccuracy]

/-- The exponent of the units that a root is worked out in. -/
def rootPlace (m : ℕ) (e : ℤ) : ℤ :=
  min (e.ediv 2) (Format.binary64.targetExponent ((totalExponent m e + 1).ediv 2))

/-- Twice the exponent of the units leaves room for 52 places of the root. -/
theorem rootPlace_le {m : ℕ} {e : ℤ} (he : -1074 ≤ e) :
    2 * rootPlace m e ≤ e ∧ 2 * rootPlace m e + 104 ≤ m.log2 + e := by
  have htarget : Format.binary64.targetExponent ((totalExponent m e + 1).ediv 2) =
      max ((m.log2 + 2 + e) / 2 - 53) (-1074) := by
    show max ((((m.log2 : ℤ) + 1 + e + 1) / 2) - ((1 + 52 : ℕ) : ℤ))
      (3 - 1024 - ((1 + 52 : ℕ) : ℤ)) = _
    omega
  have hhalf : e.ediv 2 = e / 2 := rfl
  unfold rootPlace
  rw [htarget, hhalf]
  omega

/-- The whole units of a root with 53 places. -/
theorem rootOf_sqrt {M : ℕ} {t : ℤ} {q : ℚ} (hlarge : 2 ^ 104 ≤ M) (hlow : M.sqrt ≤ q)
    (hhigh : q < M.sqrt + 1) (hexact : M - M.sqrt * M.sqrt = 0 ↔ q = M.sqrt)
    (hhalf : (q < M.sqrt + 1 / 2 ∧ M - M.sqrt * M.sqrt ≤ M.sqrt) ∨
      (M.sqrt + 1 / 2 < q ∧ M.sqrt < M - M.sqrt * M.sqrt)) :
    RootOf (M * (2 ^ t) ^ 2) M.sqrt t q := by
  have hroot : 2 ^ 52 ≤ M.sqrt := Nat.le_sqrt'.2 (by rw [← Nat.pow_mul]; exact hlarge)
  have hfloor : M.sqrt ^ 2 ≤ M := Nat.sqrt_le' M
  have hceil : M < (M.sqrt + 1) ^ 2 := Nat.lt_succ_sqrt' M
  generalize M.sqrt = r at *
  have hpos : 0 < r := by omega
  have hsquare : (r : ℚ) ^ 2 = (r * r : ℕ) := by
    push_cast
    ring
  refine ⟨hpos, ?_, ?_, ?_, hlow, hhigh, ?_, ?_⟩
  · have hlog : 52 ≤ r.log2 := (Nat.le_log2 hpos.ne').2 hroot
    rw [place_mul hpos]
    unfold lastPlace
    omega
  · rw [mul_pow]
    gcongr
    exact_mod_cast hfloor
  · rw [mul_pow]
    gcongr
    exact_mod_cast hceil
  · have hle : r * r ≤ M := by rwa [← pow_two]
    rw [← hexact, mul_pow, mul_left_inj' (by positivity), hsquare, Nat.cast_inj]
    omega
  · -- the square of the middle is a quarter above a whole number
    have hmid : ((r : ℚ) + 1 / 2) ^ 2 = (r * r : ℕ) + r + 1 / 4 := by
      rw [← hsquare]
      ring
    rw [mul_pow, mul_lt_mul_iff_left₀ (by positivity), mul_lt_mul_iff_left₀ (by positivity), hmid]
    refine hhalf.imp (And.imp_right fun h => ?_) (And.imp_right fun h => ?_)
    · have hle : (M : ℚ) ≤ (r * r : ℕ) + r := by exact_mod_cast (by omega : M ≤ r * r + r)
      linarith
    · have hle : ((r * r : ℕ) : ℚ) + r + 1 ≤ M := by
        exact_mod_cast (by omega : r * r + r + 1 ≤ M)
      linarith

/-- **A square root** is rounded once. -/
theorem Equals.exists_root (hx : Equals x v) :
    ∃ r t q, RootOf v r t q ∧ x.sqrt.toModel.unpack = nearest .positive (q * 2 ^ t) := by
  obtain ⟨m, e, h, hx, rfl⟩ := hx
  obtain ⟨hle, hroom⟩ := rootPlace_le (m := m) (canonical_of_unpack hx).le
  obtain ⟨t, ht⟩ : ∃ t, rootPlace m e = t := ⟨_, rfl⟩
  obtain ⟨M, hM⟩ : ∃ M, m <<< (e - 2 * t).toNat = M := ⟨_, rfl⟩
  have hsqrt : x.sqrt.toModel.unpack = (Float.Model.pack (roundWithAccuracy Format.binary64
      .positive M.sqrt t (rootAccuracy M.sqrt (M - M.sqrt * M.sqrt)))).unpack := by
    show (Float.Model.pack (UnpackedFloat.sqrt Format.binary64 x.toModel.unpack)).unpack = _
    rw [hx, ← hM, ← ht]
    rfl
  rw [ht] at hle hroom
  -- the mantissa was moved up to an even exponent and to 105 places at least
  have hvalue : (m : ℚ) * 2 ^ e = M * (2 ^ t) ^ 2 := by
    rw [← hM, Nat.shiftLeft_eq]
    push_cast
    rw [mul_assoc, ← zpow_natCast, ← zpow_natCast, ← zpow_mul, ← zpow_add₀ two_ne_zero]
    congr 2
    push_cast
    omega
  have hlarge : 2 ^ 104 ≤ M := by
    calc 2 ^ 104 ≤ 2 ^ (m.log2 + (e - 2 * t).toNat) := Nat.pow_le_pow_right two_pos (by omega)
      _ = 2 ^ m.log2 * 2 ^ (e - 2 * t).toNat := Nat.pow_add ..
      _ ≤ m * 2 ^ (e - 2 * t).toNat := Nat.mul_le_mul_right _ (Nat.log2_self_le h.ne')
      _ = M := by rw [← hM, Nat.shiftLeft_eq]
  obtain ⟨q, hq, hq', hexact, hhalf, htrunc⟩ := truncates_root M.sqrt (M - M.sqrt * M.sqrt)
  have hroot : RootOf (m * 2 ^ e) M.sqrt t q := by
    rw [hvalue]
    exact rootOf_sqrt hlarge hq hq' hexact hhalf
  refine ⟨M.sqrt, t, q, hroot, ?_⟩
  have hpow : (0 : ℚ) < 2 ^ t := by positivity
  have hunits : 0 < (M.sqrt : ℚ) * 2 ^ t := mul_pos (by exact_mod_cast hroot.pos) hpow
  have hstand : (M.sqrt : ℚ) * 2 ^ t ≤ q * 2 ^ t := mul_le_mul_of_nonneg_right hq hpow.le
  rw [hsqrt]
  apply unpack_pack_round .positive (hunits.trans_le hstand)
  · rw [mul_div_cancel_right₀ _ hpow.ne']
    exact htrunc
  · exact hroot.le_place.trans (place_mono hunits hstand)

/-- A double from some whole units on has only whole units. -/
theorem Equals.exists_units {r : ℕ} {t : ℤ} (hy : Equals y c) (hr : 0 < r)
    (hle : r * 2 ^ t ≤ c) (hplace : t ≤ place (r * 2 ^ t)) :
    ∃ k : ℕ, c = k * 2 ^ t := by
  have hle' : t ≤ place c := hplace.trans (place_mono (by positivity) hle)
  obtain ⟨m, e, h, hy, rfl⟩ := hy
  rw [(canonical_of_unpack hy).place_eq] at hle'
  refine ⟨m * 2 ^ (e - t).toNat, ?_⟩
  push_cast
  rw [mul_assoc, ← zpow_natCast, ← zpow_add₀ two_ne_zero]
  congr 2
  omega

/-- **A root does not fall below a double** whose square is no larger. -/
theorem Equals.le_sqrt (hx : Equals x v) (hy : Equals y c) (h : c ^ 2 ≤ v) :
    orderKey y ≤ orderKey x.sqrt := by
  obtain ⟨r, t, q, hroot, hsqrt⟩ := hx.exists_root
  have hpow : (0 : ℚ) < 2 ^ t := by positivity
  have hc : c ≤ q * 2 ^ t := by
    by_contra hlt
    -- the double has whole units, and one more of them than the root
    have hlow : (r : ℚ) * 2 ^ t < c :=
      (mul_le_mul_of_nonneg_right hroot.le_stand hpow.le).trans_lt (not_le.1 hlt)
    obtain ⟨k, rfl⟩ := hy.exists_units hroot.pos hlow.le hroot.le_place
    have hk : r + 1 ≤ k := by exact_mod_cast lt_of_mul_lt_mul_right hlow hpow.le
    have hsquare : ((r + 1 : ℕ) * 2 ^ t : ℚ) ^ 2 ≤ (k * 2 ^ t) ^ 2 := by gcongr
    exact absurd (hroot.lt_ceil.trans_le (hsquare.trans h)) (lt_irrefl _)
  exact orderKey_le_of_nearest hy.pos.le hc hy.unpack_eq hsqrt

/-- **A root does not rise above a double** whose square is no smaller. -/
theorem Equals.sqrt_le (hx : Equals x v) (hy : Equals y c) (h : v ≤ c ^ 2) :
    orderKey x.sqrt ≤ orderKey y := by
  obtain ⟨r, t, q, hroot, hsqrt⟩ := hx.exists_root
  have hpow : (0 : ℚ) < 2 ^ t := by positivity
  have hunits : (r : ℚ) * 2 ^ t ≤ c :=
    (sq_le_sq₀ (by positivity) hy.pos.le).1 (hroot.floor_le.trans h)
  obtain ⟨k, rfl⟩ := hy.exists_units hroot.pos hunits hroot.le_place
  have hc : q * 2 ^ t ≤ k * 2 ^ t := by
    apply mul_le_mul_of_nonneg_right _ hpow.le
    have hk : r ≤ k := by exact_mod_cast le_of_mul_le_mul_right hunits hpow
    rcases hk.lt_or_eq with hlt | rfl
    · -- more whole units than those of the root
      have hsucc : (r : ℚ) + 1 ≤ k := by exact_mod_cast hlt
      exact hroot.stand_lt.le.trans hsucc
    · exact (hroot.exact_iff.1 (le_antisymm h hroot.floor_le)).le
  have hq : (0 : ℚ) ≤ q := (Nat.cast_nonneg r).trans hroot.le_stand
  exact orderKey_le_of_nearest (by positivity) hc hsqrt hy.unpack_eq

/-! ## Roots of small natural numbers -/

theorem sqrt_zero : (Float.ofNat 0).sqrt = 0 := rfl

/-- Between two small roots there are two numbers with a grid of `2 ^ -27`. -/
theorem exists_between_roots (hab : a < b) (hb : b ≤ 2 ^ 50) :
    ∃ n : ℕ, n + 1 ≤ 2 ^ 53 ∧ a * 2 ^ 54 ≤ n ^ 2 ∧ (n + 1) ^ 2 ≤ b * 2 ^ 54 := by
  have hlow : (a * 2 ^ 54).sqrt ^ 2 ≤ a * 2 ^ 54 := Nat.sqrt_le' _
  have hhigh : a * 2 ^ 54 < ((a * 2 ^ 54).sqrt + 1) ^ 2 := Nat.lt_succ_sqrt' _
  have hroot : (a * 2 ^ 54).sqrt < 2 ^ 52 := by
    rw [Nat.sqrt_lt']
    omega
  refine ⟨(a * 2 ^ 54).sqrt + 1, by omega, hhigh.le, ?_⟩
  calc ((a * 2 ^ 54).sqrt + 1 + 1) ^ 2
      = (a * 2 ^ 54).sqrt ^ 2 + 4 * ((a * 2 ^ 54).sqrt + 1) := by ring
    _ ≤ a * 2 ^ 54 + 2 ^ 54 := by omega
    _ ≤ b * 2 ^ 54 := by omega

/-- **Different small natural numbers have different roots**, and the smaller one has the
smaller. -/
theorem sqrt_ofNat_lt (hab : a < b) (hb : b ≤ 2 ^ 50) :
    orderKey (Float.ofNat a).sqrt < orderKey (Float.ofNat b).sqrt := by
  have hbpos : Equals (Float.ofNat b) b := equals_ofNat (by omega) (by omega)
  rcases Nat.eq_zero_or_pos a with rfl | ha
  · have hone : Equals (Float.ofNat 1) (1 : ℕ) := equals_ofNat one_pos (by norm_num)
    have hle : ((1 : ℕ) : ℚ) ^ 2 ≤ b := by exact_mod_cast (by omega : 1 ^ 2 ≤ b)
    rw [sqrt_zero, orderKey_eq_zero_iff.2 rfl]
    exact hone.orderKey_between.1.trans_le (hbpos.le_sqrt hone hle)
  · have hapos : Equals (Float.ofNat a) a := equals_ofNat ha (by omega)
    obtain ⟨n, hn, hlow, hhigh⟩ := exists_between_roots hab hb
    have hnpos : 0 < n := by
      by_contra h0
      obtain rfl : n = 0 := by omega
      omega
    obtain ⟨y₁, hy₁⟩ := exists_equals (t := -27) hnpos (by omega) (by norm_num) (by norm_num)
    obtain ⟨y₂, hy₂⟩ := exists_equals (t := -27) n.succ_pos hn (by norm_num) (by norm_num)
    have hsquare : ∀ k : ℕ, ((k : ℚ) * 2 ^ (-27 : ℤ)) ^ 2 = (k ^ 2 : ℕ) / (2 ^ 54 : ℕ) := by
      intro k
      rw [mul_pow, ← zpow_natCast (2 ^ (-27 : ℤ)), ← zpow_mul, div_eq_mul_inv]
      push_cast
      norm_num
    have hle₁ : (a : ℚ) ≤ (n * 2 ^ (-27 : ℤ)) ^ 2 := by
      rw [hsquare, le_div_iff₀ (by norm_num)]
      exact_mod_cast hlow
    have hle₂ : ((n + 1 : ℕ) * 2 ^ (-27 : ℤ) : ℚ) ^ 2 ≤ b := by
      rw [hsquare, div_le_iff₀ (by norm_num)]
      exact_mod_cast hhigh
    calc orderKey (Float.ofNat a).sqrt ≤ orderKey y₁ := hapos.sqrt_le hy₁ hle₁
      _ < orderKey y₂ := by
        apply hy₁.orderKey_lt hy₂
        push_cast
        gcongr
        exact lt_add_one _
      _ ≤ orderKey (Float.ofNat b).sqrt := hbpos.le_sqrt hy₂ hle₂

end NearestNeighbors.Binary64
