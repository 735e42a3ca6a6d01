import NearestNeighbors.Decimal.Shortest
import NearestNeighbors.Proofs.Decimal.Value

/-!
# The shortest decimal reads back

Whatever grid the search for the shortest decimal ends on, what it finds is read as the
double that was to be written. It cannot come away with nothing that reads back: the last
resort denotes the double exactly, and a double is nearest to itself.

* `readsBack_iff`: reading back is a matter of the value.
* `value_exact`, `readsBack_exact`: the last resort.
* `toFloat_shortest`: the shortest decimal.
-/

namespace NearestNeighbors.Decimal

open Float.Model.UnpackedFloat
open Binary64

variable {m : ℕ} {e : ℤ} {s : Sign} {x : Float} {d : Decimal}

/-- A decimal reads back when the double nearest to its value is the one it stands for. -/
theorem readsBack_iff (h : 0 < m) :
    readsBack ⟨m, e⟩ d = true ↔ nearest .positive d.value = .finite .positive m e h := by
  unfold readsBack magnitude?
  rw [beq_iff_eq, unpack_toFloat]
  rcases nearest_cases .positive d.value with heq | heq | ⟨m', e', h', heq⟩
  · rw [heq]
    simp only [Option.some.injEq, Magnitude.mk.injEq, reduceCtorEq, iff_false, not_and]
    omega
  · rw [heq]
    simp
  · rw [heq]
    simp

/-- What is taken from a grid reads back. -/
theorem readsBack_of_onGrid? {a : Magnitude} {grid : ℤ} (h : onGrid? a grid = some d) :
    readsBack a d = true := by
  unfold onGrid? at h
  dsimp only at h
  split at h
  · rename_i hlower hupper
    rw [Option.some.injEq] at h
    subst h
    split_ifs
    · exact hlower
    · exact hupper
  · rename_i hlower _
    cases h
    exact hlower
  · rename_i _ hupper
    cases h
    exact hupper
  · cases h

/-- A grid that is fine enough holds the double itself. -/
theorem value_onGrid {k : ℕ} (hk : -(k : ℤ) ≤ e) :
    value ⟨(gridRatio ⟨m, e⟩ (-k)).1 / (gridRatio ⟨m, e⟩ (-k)).2, -k⟩ = m * 2 ^ e := by
  have hnum : (gridRatio ⟨m, e⟩ (-k)).1 = m * 2 ^ e.toNat * 10 ^ k := by
    show m * 2 ^ e.toNat * 10 ^ (- -(k : ℤ)).toNat = _
    rw [neg_neg, Int.toNat_natCast]
  have hden : (gridRatio ⟨m, e⟩ (-k)).2 = 2 ^ (-e).toNat := by
    show 2 ^ (-e).toNat * 10 ^ (-(k : ℤ)).toNat = _
    rw [show (-(k : ℤ)).toNat = 0 by omega, Nat.pow_zero, Nat.mul_one]
  have hdvd : 2 ^ (-e).toNat ∣ m * 2 ^ e.toNat * 10 ^ k := by
    have htwo : 2 ^ (-e).toNat ∣ 2 ^ k := Nat.pow_dvd_pow 2 (by omega)
    have hten : 2 ^ k ∣ 10 ^ k := pow_dvd_pow_of_dvd (by norm_num) k
    exact (htwo.trans hten).mul_left _
  have hexp : (2 : ℚ) ^ e.toNat / 2 ^ (-e).toNat = 2 ^ e := by
    rw [← zpow_natCast, ← zpow_natCast, ← zpow_sub₀ two_ne_zero]
    congr 1
    omega
  unfold value
  dsimp only
  rw [hnum, hden, Nat.cast_div hdvd (by positivity), zpow_neg, zpow_natCast, ← hexp]
  push_cast
  field_simp

theorem value_exact (he : -1074 ≤ e) : value (exact ⟨m, e⟩) = m * 2 ^ e :=
  value_onGrid (k := 1074) he

theorem readsBack_exact (hc : Canonical m e) (he : e ≤ 971) :
    readsBack ⟨m, e⟩ (exact ⟨m, e⟩) = true := by
  rw [readsBack_iff hc.pos, value_exact hc.le]
  exact nearest_eq_self .positive hc he

theorem readsBack_shortest (hc : Canonical m e) (he : e ≤ 971) :
    readsBack ⟨m, e⟩ (shortest ⟨m, e⟩) = true := by
  unfold shortest
  cases hfound : grids.findSome? (onGrid? ⟨m, e⟩) with
  | none => exact readsBack_exact hc he
  | some d =>
    obtain ⟨grid, -, hgrid⟩ := List.exists_of_findSome?_eq_some hfound
    exact readsBack_of_onGrid? hgrid

/-- **The shortest decimal reads back** as the magnitude of the double. -/
theorem toFloat_shortest {h : 0 < m} (hx : x.toModel.unpack = .finite s m e h) :
    (shortest ⟨m, e⟩).toFloat.toModel.unpack = .finite .positive m e h := by
  rw [unpack_toFloat, ← readsBack_iff h]
  exact readsBack_shortest (canonical_of_unpack hx) (exponent_le hx)

end NearestNeighbors.Decimal
