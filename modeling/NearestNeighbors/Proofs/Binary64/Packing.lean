import NearestNeighbors.Proofs.Binary64.Rounding

/-!
# The finite doubles

A finite double has a mantissa of 53 places and an exponent, and its bits give both back.
Above the lowest exponent the first place is in use, so that the bits leave it out.

* `Canonical`: the mantissas and exponents there are; `canonical_of_unpack` finds no
  others.
* `ofUnits_finite`: rounding ends with one of them, or with a zero.
* `unpack_pack_finite`: packing loses nothing but exponents that are too large.
-/

namespace NearestNeighbors.Binary64

open Float.Model Float.Model.UnpackedFloat

variable {s : Sign} {m : Nat} {e : Int} {h : 0 < m}

/-- **The finite doubles**: mantissas have 53 places, all of them in use above the lowest
exponent. -/
structure Canonical (m : Nat) (e : Int) : Prop where
  pos : 0 < m
  lt : m < 2 ^ 53
  le : -1074 ≤ e
  full : 2 ^ 52 ≤ m ∨ e = -1074

/-- Only a number of units that is not zero gives a finite double. -/
theorem ofUnits_finite (s : Sign) {q : Nat} {t : Int} (hpos : 0 < q) (hq : q ≤ 2 ^ 53)
    (ht : -1074 ≤ t) (hfull : 2 ^ 52 ≤ q ∨ t = -1074) :
    ∃ m e h, ofUnits s q t = .finite s m e h ∧ Canonical m e ∧ t ≤ e ∧
      (2 ^ 52 ≤ q → 2 ^ 52 ≤ m) := by
  unfold ofUnits
  rw [dif_neg (Nat.pos_iff_ne_zero.1 hpos)]
  split
  · have hlt : 2 ^ 52 < 2 ^ 53 := Nat.pow_lt_pow_right (by omega) (by omega)
    exact ⟨2 ^ 52, t + 1, Nat.two_pow_pos 52, rfl,
      ⟨Nat.two_pow_pos 52, hlt, by omega, .inl (Nat.le_refl _)⟩, by omega, fun _ => Nat.le_refl _⟩
  · exact ⟨q, t, hpos, rfl, ⟨hpos, by omega, ht, hfull⟩, Int.le_refl t, id⟩

theorem biased_eq (e : Int) :
    e + Format.binary64.exponentBias + Format.binary64.mantissaBitsWithoutImplicit = e + 1075 := by
  show e + ((1023 : Nat) : Int) + ((52 : Nat) : Int) = _
  omega

/-- A mantissa of 52 bits with the leading one in front. -/
theorem toNat_leading_one (v : BitVec 52) : (1#1 ++ v).toNat = 2 ^ 52 + v.toNat := by
  have hlead := Nat.two_pow_add_eq_or_of_lt v.isLt 1
  rw [Nat.mul_one] at hlead
  rw [BitVec.toNat_append, hlead]
  rfl

theorem finite_congr {m' : Nat} {e' : Int} {h' : 0 < m'} (hm : m = m') (he : e = e') :
    UnpackedFloat.finite s m e h = .finite s m' e' h' := by
  subst hm he
  rfl

theorem unpack_normal {b : Nat} (hm : 2 ^ 52 ≤ m) (hlt : m < 2 ^ 53) (hb : 0 < b)
    (hb' : b < 2047) :
    UnpackedFloat.unpack Format.binary64
      (packComponents Format.binary64 s (BitVec.ofNat 11 b) (BitVec.ofNat 52 m)) =
        .finite s m (b - 1075) h := by
  have hmax : BitVec.ofNat 11 b ≠ -1#11 := by
    intro heq
    have := congrArg BitVec.toNat heq
    simp at this
    omega
  have hzero : BitVec.ofNat 11 b ≠ 0#11 := by
    intro heq
    have := congrArg BitVec.toNat heq
    simp at this
    omega
  unfold UnpackedFloat.unpack
  simp only [unpackExponent_packComponents, unpackMantissa_packComponents,
    unpackSign_packComponents, Sign.ofBitVec_toBitVec]
  rw [if_neg hmax, if_neg hzero]
  refine finite_congr ?_ ?_
  · rw [toNat_leading_one, BitVec.toNat_ofNat]
    omega
  · rw [BitVec.toNat_ofNat, Nat.mod_eq_of_lt (by omega)]
    rfl

theorem unpack_subnormal (hm : m < 2 ^ 52) :
    UnpackedFloat.unpack Format.binary64
      (packComponents Format.binary64 s 0#11 (BitVec.ofNat 52 m)) = .finite s m (-1074) h := by
  have hmod : (BitVec.ofNat 52 m).toNat = m := by
    rw [BitVec.toNat_ofNat, Nat.mod_eq_of_lt hm]
  have hne : BitVec.ofNat 52 m ≠ 0#52 := by
    intro heq
    rw [heq] at hmod
    exact Nat.ne_of_lt h hmod
  unfold UnpackedFloat.unpack
  simp only [unpackExponent_packComponents, unpackMantissa_packComponents,
    unpackSign_packComponents, Sign.ofBitVec_toBitVec]
  rw [if_neg (by decide), if_pos trivial, dif_neg hne]
  exact finite_congr hmod rfl

/-- All 53 places of a mantissa are in use when the first one is. -/
theorem log2_add_one_eq_iff (hpos : 0 < m) (hlt : m < 2 ^ 53) :
    m.log2 + 1 = Format.binary64.mantissaBits ↔ 2 ^ 52 ≤ m := by
  have hne : m ≠ 0 := Nat.pos_iff_ne_zero.1 hpos
  have hlog : m.log2 < 53 := (Nat.log2_lt hne).2 hlt
  rw [← Nat.le_log2 hne]
  show m.log2 + 1 = 53 ↔ _
  omega

/-- **Packing loses nothing**: a finite double comes back, unless its exponent is too large. -/
theorem unpack_pack_finite (hc : Canonical m e) :
    UnpackedFloat.unpack Format.binary64 (UnpackedFloat.pack Format.binary64 (.finite s m e h)) =
      if 971 < e then .infinity s else .finite s m e h := by
  obtain ⟨-, hlt, hle, hfull⟩ := hc
  unfold UnpackedFloat.pack
  dsimp only
  rw [biased_eq]
  by_cases hbig : 971 < e
  · rw [if_pos hbig, if_pos (by show 2048 ≤ _; omega)]
    simp [packedInfinity, UnpackedFloat.unpack]
  · rw [if_neg hbig, if_neg (by show ¬ 2048 ≤ _; omega)]
    by_cases hm : 2 ^ 52 ≤ m
    · rw [if_pos ((log2_add_one_eq_iff h hlt).2 hm)]
      rw [unpack_normal (h := h) hm hlt (by omega) (by omega)]
      exact finite_congr rfl (by omega)
    · -- the first place is not in use, so that the exponent is the lowest one
      rw [if_neg fun hlog => hm ((log2_add_one_eq_iff h hlt).1 hlog)]
      rw [unpack_subnormal (h := h) (by omega)]
      exact finite_congr rfl (by omega)

/-- Every double that is finite is one of `Canonical`. -/
theorem canonical_of_unpack {b : BitVec Format.binary64.numBits}
    (hb : UnpackedFloat.unpack Format.binary64 b = .finite s m e h) : Canonical m e := by
  have hlt : (unpackMantissa b).toNat < 2 ^ 52 := (unpackMantissa b).isLt
  unfold UnpackedFloat.unpack at hb
  dsimp only at hb
  split at hb
  · split at hb <;> cases hb
  · split at hb
    · split at hb
      · cases hb
      · rename_i hexp _
        cases hb
        rw [hexp]
        exact ⟨h, by omega, by decide, .inr rfl⟩
    · rename_i hexp
      cases hb
      have hne : (unpackExponent b).toNat ≠ 0 := fun h0 => hexp (BitVec.eq_of_toNat_eq h0)
      have hlead := toNat_leading_one (unpackMantissa b)
      refine ⟨h, ?_, ?_, .inl ?_⟩
      · show (1#1 ++ unpackMantissa b : BitVec (1 + 52)).toNat < 2 ^ 53
        rw [hlead]
        omega
      · show -1074 ≤ ((unpackExponent b).toNat : Int) - 1075
        omega
      · show 2 ^ 52 ≤ (1#1 ++ unpackMantissa b : BitVec (1 + 52)).toNat
        rw [hlead]
        omega

end NearestNeighbors.Binary64
