import NearestNeighbors.Proofs.Binary64.Packing

/-!
# A double is what it unpacks to

Packing undoes unpacking, as there is one NaN only. So two doubles that unpack alike are
the same, bit for bit, and a double is known by its sign, mantissa and exponent.

* `pack_unpack`: the bits come back.
* `eq_of_unpack_eq`: the double does.
* `exponent_le`: finite doubles have no exponent above 971.
* `unpack_neg`: a minus only turns the sign.
-/

namespace NearestNeighbors.Binary64

open Float.Model Float.Model.UnpackedFloat

variable {s : Sign} {m : Nat} {e : Int} {h : 0 < m}

theorem toBitVec_ofBitVec (b : BitVec 1) : (Sign.ofBitVec b).toBitVec = b := by
  revert b
  decide

/-- The three parts of the bits make up the bits. -/
theorem packComponents_unpack (b : BitVec Format.binary64.numBits) :
    packComponents Format.binary64 (Sign.ofBitVec (unpackSign b)) (unpackExponent b)
      (unpackMantissa b) = b := by
  unfold packComponents
  rw [toBitVec_ofBitVec]
  unfold unpackSign unpackExponent unpackMantissa
  ext i hi
  grind

/-- The parts of a normal double, its leading bit left out. -/
theorem pack_normal {E : BitVec 11} {M : BitVec 52} (hE : E ≠ 0#11) (hE' : E ≠ -1#11)
    {h : 0 < (1#1 ++ M : BitVec 53).toNat} :
    UnpackedFloat.pack Format.binary64 (.finite s (1#1 ++ M : BitVec 53).toNat (E.toNat - 1075) h) =
      packComponents Format.binary64 s E M := by
  have hlead := toNat_leading_one M
  have hlt := M.isLt
  have hpos : E.toNat ≠ 0 := fun h0 => hE (BitVec.eq_of_toNat_eq h0)
  have hmax : E.toNat ≠ 2047 := fun h0 => hE' (BitVec.eq_of_toNat_eq h0)
  have hlt' : E.toNat < 2048 := E.isLt
  unfold UnpackedFloat.pack
  dsimp only
  rw [biased_eq, if_neg (by show ¬ 2048 ≤ _; omega),
    if_pos ((log2_add_one_eq_iff h (by omega)).2 (by omega))]
  congr 1
  · refine BitVec.eq_of_toNat_eq ?_
    rw [BitVec.toNat_ofNat]
    omega
  · refine BitVec.eq_of_toNat_eq ?_
    rw [BitVec.toNat_ofNat, hlead]
    omega

theorem pack_subnormal {M : BitVec 52} {h : 0 < M.toNat} :
    UnpackedFloat.pack Format.binary64 (.finite s M.toNat (-1074) h) =
      packComponents Format.binary64 s 0#11 M := by
  have hlt := M.isLt
  unfold UnpackedFloat.pack
  dsimp only
  rw [biased_eq, if_neg (by decide), if_neg fun hlog => ?_]
  · congr 1
    exact (BitVec.ofNat_toNat 52 M).trans (BitVec.setWidth_eq M)
  · have := (log2_add_one_eq_iff h (by omega)).1 hlog
    omega

/-- **Packing undoes unpacking.** -/
theorem pack_unpack {b : BitVec Format.binary64.numBits} (hb : Format.binary64.Valid b) :
    UnpackedFloat.pack Format.binary64 (UnpackedFloat.unpack Format.binary64 b) = b := by
  have hparts := packComponents_unpack b
  unfold UnpackedFloat.unpack
  dsimp only
  split
  · rename_i hexp
    split
    · rename_i hmant
      rw [hexp, hmant] at hparts
      exact hparts
    · rename_i hmant
      exact (hb.eq_packedNaN hexp hmant).symm
  · rename_i hexp
    split
    · rename_i hzero
      rw [hzero] at hparts
      split
      · rename_i hmant
        rw [hmant] at hparts
        exact hparts
      · refine Eq.trans ?_ hparts
        rw [hzero]
        exact pack_subnormal
    · rename_i hzero
      exact (pack_normal hzero hexp).trans hparts

/-- **A double is what it unpacks to.** -/
theorem eq_of_unpack_eq {x y : Float} (h : x.toModel.unpack = y.toModel.unpack) : x = y := by
  have hbits : x.toModel.toBits.toBitVec = y.toModel.toBits.toBitVec := by
    rw [← pack_unpack x.toModel.valid, ← pack_unpack y.toModel.valid]
    exact congrArg (UnpackedFloat.pack Format.binary64) h
  obtain ⟨⟨bits, valid⟩⟩ := x
  obtain ⟨⟨bits', valid'⟩⟩ := y
  have heq : bits = bits' := UInt64.toBitVec_inj.1 hbits
  subst heq
  rfl

/-- No finite double has a larger exponent. -/
theorem exponent_le {x : Float} (hx : x.toModel.unpack = .finite s m e h) : e ≤ 971 := by
  have hc := canonical_of_unpack hx
  by_contra hlt
  have hpack := unpack_pack_finite (s := s) (h := h) hc
  rw [if_pos (not_le.1 hlt), ← hx] at hpack
  have hbits := pack_unpack x.toModel.valid
  have hself := congrArg (UnpackedFloat.unpack Format.binary64) hbits
  cases hx.symm.trans (hself.symm.trans hpack)

/-- A minus turns the sign and leaves all else. -/
theorem unpack_neg (x : Float) : (-x).toModel.unpack = x.toModel.unpack.neg := by
  show UnpackedFloat.unpack Format.binary64
    (UnpackedFloat.pack Format.binary64 x.toModel.unpack.neg) = _
  cases hx : x.toModel.unpack with
  | notANumber => rfl
  | infinity s => cases s <;> rfl
  | zero s => cases s <;> rfl
  | finite s m e h =>
    show UnpackedFloat.unpack Format.binary64
      (UnpackedFloat.pack Format.binary64 (.finite (-s) m e h)) = .finite (-s) m e h
    rw [unpack_pack_finite (canonical_of_unpack hx), if_neg (not_lt.2 (exponent_le hx))]

end NearestNeighbors.Binary64
