import NearestNeighbors.Proofs.Binary64.Closest
import NearestNeighbors.Proofs.Distance

/-!
# Distances are symmetric and complete

A difference that is turned round has the same square, whatever is rounded, too large or no
number at all. The lanes see the squares only, so a distance is the same in both directions, bit
for bit. It has no sign, and where the exact sum of the squares fits into 53 places it is the
exact root rounded once, in whatever order the coordinates come.

* `mul_self_sub_comm`, `euclidean_comm`: differences and distances turned round.
* `Fits`, `broadcast_eq_some_iff`, `broadcast_eq_none_iff`: which rows have a distance.
* `sumOfSquares_perm`: the coordinates in another order.
* `distance_laws` (every two rows): when there is no distance, and what it is otherwise.
-/

namespace NearestNeighbors

open Binary64 Float.Model Float.Model.UnpackedFloat

variable {p p' : Lanes} {row row' a b first second : List Float} {zs ys : List ℤ} {s x : Float}

/-! ## Differences turned round -/

/-- A square takes no notice of a sign. -/
theorem mul_neg_neg (u : UnpackedFloat) :
    UnpackedFloat.mul Format.binary64 u.neg u.neg = UnpackedFloat.mul Format.binary64 u u := by
  cases u with
  | notANumber => rfl
  | infinity s => cases s <;> rfl
  | zero s => cases s <;> rfl
  | finite s m e h => cases s <;> rfl

/-- A number that is turned round is rounded to the double turned round, or it is nothing. -/
theorem nearestSigned_neg (v : ℚ) :
    nearestSigned (-v) = nearestSigned v ∨ nearestSigned (-v) = (nearestSigned v).neg := by
  unfold nearestSigned
  rcases lt_trichotomy v 0 with hv | rfl | hv
  · rw [if_neg (by linarith), if_pos hv, ← nearest_neg]
    exact .inr rfl
  · exact .inl (by norm_num)
  · rw [if_pos (by linarith), if_neg (by linarith), ← nearest_neg, neg_neg]
    exact .inr rfl

/-- What is turned round twice is what it was. -/
theorem eq_neg_of_eq_neg {u v : UnpackedFloat} (h : v = u.neg) : u = v.neg := by
  rw [h]
  cases u with
  | notANumber => rfl
  | infinity s => cases s <;> rfl
  | zero s => cases s <;> rfl
  | finite s m e h => cases s <;> rfl

/-- Infinities that are turned round. -/
theorem unpack_pack_infinity_neg (s : Sign) : (Float.Model.pack (.infinity (-s))).unpack =
    (Float.Model.pack (.infinity s)).unpack.neg := by
  cases s <;> rfl

/-- **A difference turned round** is the same or the other way round: in between there is only
one NaN and a zero without a sign. -/
theorem unpack_sub_comm (x y : Float) : (y - x).toModel.unpack = (x - y).toModel.unpack ∨
    (y - x).toModel.unpack = (x - y).toModel.unpack.neg := by
  have hx := unpack_pack_unpack x
  have hy := unpack_pack_unpack y
  have hx' : (Float.Model.pack x.toModel.unpack.neg).unpack = _ := unpack_neg x
  have hy' : (Float.Model.pack y.toModel.unpack.neg).unpack = _ := unpack_neg y
  show (Float.Model.pack (UnpackedFloat.sub Format.binary64 y.toModel.unpack
      x.toModel.unpack)).unpack = (Float.Model.pack (UnpackedFloat.sub Format.binary64
      x.toModel.unpack y.toModel.unpack)).unpack ∨
    (Float.Model.pack (UnpackedFloat.sub Format.binary64 y.toModel.unpack
      x.toModel.unpack)).unpack = (Float.Model.pack (UnpackedFloat.sub Format.binary64
      x.toModel.unpack y.toModel.unpack)).unpack.neg
  generalize x.toModel.unpack = u at *
  generalize y.toModel.unpack = u' at *
  cases u with
  | notANumber => cases u' <;> exact .inl rfl
  | infinity s =>
    cases u' with
    | notANumber => exact .inl rfl
    | infinity s' => cases s <;> cases s' <;> first | exact .inl rfl | exact .inr rfl
    | zero s' => exact .inr (unpack_pack_infinity_neg s)
    | finite s' m' e' h' => exact .inr (unpack_pack_infinity_neg s)
  | zero s =>
    cases u' with
    | notANumber => exact .inl rfl
    | infinity s' => exact .inr (eq_neg_of_eq_neg (unpack_pack_infinity_neg s'))
    | zero s' => cases s <;> cases s' <;> first | exact .inl rfl | exact .inr rfl
    | finite s' m' e' h' =>
      right
      exact hy.trans (eq_neg_of_eq_neg hy')
  | finite s m e h =>
    cases u' with
    | notANumber => exact .inl rfl
    | infinity s' => exact .inr (eq_neg_of_eq_neg (unpack_pack_infinity_neg s'))
    | zero s' =>
      right
      exact hx'.trans (congrArg UnpackedFloat.neg hx.symm)
    | finite s' m' e' h' =>
      have hturn := nearestSigned_neg (s.apply m * 2 ^ e - s'.apply m' * 2 ^ e')
      rw [neg_sub] at hturn
      rw [unpack_pack_sub, unpack_pack_sub]
      exact hturn

/-- **The square of a difference** is the same in both directions. -/
theorem mul_self_sub_comm (x y : Float) : (y - x) * (y - x) = (x - y) * (x - y) := by
  have hsquare : UnpackedFloat.mul Format.binary64 (y - x).toModel.unpack (y - x).toModel.unpack =
      UnpackedFloat.mul Format.binary64 (x - y).toModel.unpack (x - y).toModel.unpack := by
    rcases unpack_sub_comm x y with h | h
    · rw [h]
    · rw [h, mul_neg_neg]
  exact congrArg (fun u => Float.ofModel (Float.Model.pack u)) hsquare

/-! ## Distances turned round -/

/-- The squares that are left over are all that the last part of a sum reads. -/
theorem foldl_congr_squares (hrow : List.Forall₂ (fun a b => a * a = b * b) row row') :
    row.foldl (fun s a => s + a * a) s = row'.foldl (fun s a => s + a * a) s := by
  induction hrow generalizing s with
  | nil => rfl
  | cons hab _ ih => rw [List.foldl_cons, List.foldl_cons, hab, ih]

theorem Lanes.sum_congr (hp : ∀ i : Fin 8, p.get i = p'.get i) : p.sum = p'.sum := by
  have h : ∀ i (hi : i < 8), p[i] = p'[i] := fun i hi => hp ⟨i, hi⟩
  unfold Lanes.sum
  rw [h 0, h 1, h 2, h 3, h 4, h 5, h 6, h 7]

/-- **A sum of squares** reads the squares only. -/
theorem addSquares_congr (hp : ∀ i : Fin 8, p.get i = p'.get i)
    (hrow : List.Forall₂ (fun a b => a * a = b * b) row row') :
    addSquares p row = addSquares p' row' := by
  fun_induction addSquares p row generalizing p' row' with
  | case1 p a b c d e f g h row added =>
    rename_i ih
    simp only [List.forall₂_cons_left_iff] at hrow
    obtain ⟨a', _, ha, ⟨b', _, hb, ⟨c', _, hc, ⟨d', _, hd, ⟨e', _, he, ⟨f', _, hf, ⟨g', _, hg,
      ⟨h', rest, hh, hrest, rfl⟩, rfl⟩, rfl⟩, rfl⟩, rfl⟩, rfl⟩, rfl⟩, rfl⟩ := hrow
    rw [addSquares]
    refine ih (fun i => ?_) hrest
    fin_cases i
    · exact congrArg₂ (· + ·) (hp 0) ha
    · exact congrArg₂ (· + ·) (hp 1) hb
    · exact congrArg₂ (· + ·) (hp 2) hc
    · exact congrArg₂ (· + ·) (hp 3) hd
    · exact congrArg₂ (· + ·) (hp 4) he
    · exact congrArg₂ (· + ·) (hp 5) hf
    · exact congrArg₂ (· + ·) (hp 6) hg
    · exact congrArg₂ (· + ·) (hp 7) hh
  | case2 p row hshort =>
    -- the other row has no eight squares left either
    rw [addSquares, Lanes.sum_congr hp]
    · exact foldl_congr_squares hrow
    · rintro a b c d e f g h rest rfl
      simp only [List.forall₂_cons_right_iff] at hrow
      obtain ⟨_, _, -, ⟨_, _, -, ⟨_, _, -, ⟨_, _, -, ⟨_, _, -, ⟨_, _, -, ⟨_, _, -,
        ⟨_, _, -, -, rfl⟩, rfl⟩, rfl⟩, rfl⟩, rfl⟩, rfl⟩, rfl⟩, rfl⟩ := hrow
      exact hshort _ _ _ _ _ _ _ _ _ rfl

/-- **A distance turned round** is the same. -/
theorem euclidean_comm (first second : List Float) :
    euclidean first second = euclidean second first := by
  have hsquares : ∀ first second : List Float, List.Forall₂ (fun a b => a * a = b * b)
      (List.zipWith (· - ·) first second) (List.zipWith (· - ·) second first) := by
    intro first
    induction first with
    | nil =>
      intro second
      rw [List.zipWith_nil_left, List.zipWith_nil_right]
      exact .nil
    | cons x first ih =>
      intro second
      cases second with
      | nil => exact .nil
      | cons y second => exact .cons (mul_self_sub_comm y x) (ih second)
  exact congrArg Float.sqrt (addSquares_congr (fun _ => rfl) (hsquares first second))

/-! ## Rows that fit -/

/-- **Two rows fit** when they are equally long, or when one of them has one entry, which is then
repeated as often as the other row is long. -/
inductive Fits (a b : List Float) : List Float → List Float → Prop where
  | same (h : a.length = b.length) : Fits a b a b
  | first (x : Float) (h : a = [x]) : Fits a b (List.replicate b.length x) b
  | second (y : Float) (h : b = [y]) : Fits a b a (List.replicate a.length y)

/-- The rows that are compared are those that fit. -/
theorem broadcast_eq_some_iff : broadcast a b = some (first, second) ↔ Fits a b first second := by
  unfold broadcast
  constructor
  · intro h
    split_ifs at h with hlen
    · cases h
      exact .same hlen
    · split at h
      · cases h
        exact .first _ rfl
      · cases h
        exact .second _ rfl
      · cases h
  · intro h
    cases h with
    | same hlen => exact if_pos hlen
    | first x hx =>
      subst hx
      split_ifs with hlen
      · -- one entry beside one entry is repeated once
        rw [← hlen]
        rfl
      · rfl
    | second y hy =>
      subst hy
      split_ifs with hlen
      · rw [hlen]
        rfl
      · split
        · exact absurd rfl hlen
        · rename_i heq
          cases heq
          rfl
        · rename_i _ hnot
          exact absurd rfl (hnot _)

/-- **Two rows do not fit** when their lengths differ and neither is one. -/
theorem broadcast_eq_none_iff :
    broadcast a b = none ↔ a.length ≠ b.length ∧ a.length ≠ 1 ∧ b.length ≠ 1 := by
  constructor
  · intro h
    have hnot : ∀ A B, ¬ Fits a b A B := by
      intro A B hfits
      cases h.symm.trans (broadcast_eq_some_iff.2 hfits)
    refine ⟨fun hlen => hnot _ _ (.same hlen), fun ha => ?_, fun hb => ?_⟩
    · obtain ⟨x, hx⟩ := List.length_eq_one_iff.1 ha
      exact hnot _ _ (.first x hx)
    · obtain ⟨y, hy⟩ := List.length_eq_one_iff.1 hb
      exact hnot _ _ (.second y hy)
  · rintro ⟨hlen, ha, hb⟩
    cases h : broadcast a b with
    | none => rfl
    | some rows =>
      obtain ⟨first, second⟩ := rows
      cases broadcast_eq_some_iff.1 h with
      | same hlen' => exact absurd hlen' hlen
      | first x hx => exact absurd (congrArg List.length hx) ha
      | second y hy => exact absurd (congrArg List.length hy) hb

theorem Fits.symm (h : Fits a b first second) : Fits b a second first := by
  cases h with
  | same h => exact .same h.symm
  | first x h => exact .second x h
  | second y h => exact .first y h

/-- Rows that fit have the distance of the rows that are compared. -/
theorem Fits.distance_eq (h : Fits a b first second) :
    distance a b = some (euclidean first second) := by
  unfold distance
  rw [broadcast_eq_some_iff.2 h]
  rfl

theorem distance_eq_none_iff :
    distance a b = none ↔ a.length ≠ b.length ∧ a.length ≠ 1 ∧ b.length ≠ 1 := by
  unfold distance
  rw [Option.map_eq_none_iff]
  exact broadcast_eq_none_iff

/-- **Distances are symmetric**, where there is one and where there is none. -/
theorem distance_comm (a b : List Float) : distance a b = distance b a := by
  cases h : broadcast a b with
  | none =>
    obtain ⟨hlen, ha, hb⟩ := broadcast_eq_none_iff.1 h
    rw [distance_eq_none_iff.2 ⟨hlen, ha, hb⟩, distance_eq_none_iff.2 ⟨hlen.symm, hb, ha⟩]
  | some rows =>
    have hfits : Fits a b rows.1 rows.2 := broadcast_eq_some_iff.1 h
    rw [hfits.distance_eq, hfits.symm.distance_eq, euclidean_comm]

/-! ## Coordinates in another order -/

/-- **A sum of squares of whole numbers** does not depend on their order, when it is not too
large. -/
theorem sumOfSquares_perm (hrow : Integral row zs) (hle : sumOfSquaresInt zs ≤ 2 ^ 53)
    (hperm : row'.Perm row) : sumOfSquares row' = sumOfSquares row := by
  obtain ⟨zs', hrow', hzs⟩ := List.perm_comp_forall₂ hperm hrow
  have hsum : sumOfSquaresInt zs' = sumOfSquaresInt zs := (hzs.map _).sum_eq
  rw [sumOfSquares_exact hrow' (by rw [hsum]; exact hle), sumOfSquares_exact hrow hle, hsum]

theorem euclidean_perm {first' second' : List Float} (hfirst : Integral first zs)
    (hsecond : Integral second ys) (hle : squaredDistance zs ys ≤ 2 ^ 53)
    (hperm : (first'.zip second').Perm (first.zip second)) :
    euclidean first' second' = euclidean first second := by
  have hzip : ∀ first second : List Float,
      List.zipWith (· - ·) first second = (first.zip second).map fun c => c.1 - c.2 := by
    intro first second
    rw [List.map_zip_eq_zipWith]
    rfl
  have hdiff : (List.zipWith (· - ·) first' second').Perm (List.zipWith (· - ·) first second) := by
    rw [hzip, hzip]
    exact hperm.map _
  unfold euclidean
  rw [sumOfSquares_perm (hfirst.sub hsecond hle) hle hdiff]

/-! ## All rows -/

/-- A double without a sign has the sign bit clear. -/
theorem toBits_lt_of_unsigned (hx : Unsigned x.toModel.unpack) : x.toBits.toNat < signWeight := by
  have hkey := orderKey_nonneg hx
  unfold orderKey at hkey
  dsimp only at hkey
  split at hkey <;> omega

/-- **What a distance of two rows is**: there is none exactly when their lengths differ and
neither is one, it is the same in both directions, a number has no sign, and for whole numbers
it is closest to the exact root, also for the coordinates in any other order. -/
structure DistanceLaws (a b : List Float) : Prop where
  none_iff : distance a b = none ↔ a.length ≠ b.length ∧ a.length ≠ 1 ∧ b.length ≠ 1
  symmetric : distance a b = distance b a
  unsigned : ∀ d, distance a b = some d → d.isNaN = false → d.toBits.toNat < signWeight
  exact_root : ∀ first second zs ys, Fits a b first second → Integral first zs →
    Integral second ys → squaredDistance zs ys ≤ 2 ^ 53 →
    ∃ d, distance a b = some d ∧ Closest √(squaredDistance zs ys) d ∧
      ∀ a' b' first' second', Fits a' b' first' second' →
        (first'.zip second').Perm (first.zip second) → distance a' b' = some d

/-- A root of a small natural number is closest to the exact root. -/
theorem closest_sqrt_ofNat {n : ℕ} (hn : n ≤ 2 ^ 53) : Closest √n (Float.ofNat n).sqrt := by
  rcases Nat.eq_zero_or_pos n with rfl | hpos
  · rw [sqrt_zero, Nat.cast_zero, Real.sqrt_zero]
    exact closest_zero
  · exact_mod_cast (equals_ofNat hpos hn).closest_sqrt

/-- **Distances are symmetric, without a sign and complete**, whatever the two rows. -/
theorem distance_laws (a b : List Float) : DistanceLaws a b := by
  refine ⟨distance_eq_none_iff, distance_comm a b, fun d hd _ => ?_, ?_⟩
  · cases h : broadcast a b with
    | none =>
      unfold distance at hd
      rw [h] at hd
      cases hd
    | some rows =>
      have hfits : Fits a b rows.1 rows.2 := broadcast_eq_some_iff.1 h
      cases hfits.distance_eq.symm.trans hd
      exact toBits_lt_of_unsigned (unsigned_euclidean _ _)
  · intro first second zs ys hfits hfirst hsecond hle
    refine ⟨_, hfits.distance_eq, ?_, fun a' b' first' second' hfits' hperm => ?_⟩
    · rw [euclidean_exact hfirst hsecond hle]
      exact closest_sqrt_ofNat hle
    · rw [hfits'.distance_eq, euclidean_perm hfirst hsecond hle hperm]

end NearestNeighbors
