import NearestNeighbors.Distance
import NearestNeighbors.Proofs.Binary64.Root

/-!
# What a sum of squares comes to

The lanes add the squares of a row in an order of their own, but they add each of them once. So
what holds for zero and for every square, and is kept by sums, holds for the whole sum: it has
no sign, and it is exact where the squares are those of whole numbers and together not too large.

* `Additive`, `addSquares_of_additive`: what sums keep holds for the sum of the lanes.
* `unsigned_euclidean`: distances have no sign.
* `sumOfSquares_exact`, `euclidean_exact`: rows of whole numbers.
* `euclidean_self`: a row and itself.
-/

namespace NearestNeighbors

open Binary64

variable {R : Float → ℕ → Prop} {p : Lanes} {ns : Fin 8 → ℕ} {row first second : List Float}
  {squares : List ℕ} {zs ys : List ℤ} {s : Float} {n : ℕ}

/-! ## The order of the sum -/

/-- What a double says about a natural number, when sums of both keep it. -/
structure Additive (R : Float → ℕ → Prop) : Prop where
  zero : R 0 0
  add : ∀ {x y a b}, R x a → R y b → R (x + y) (a + b)

/-- The sum of the lanes takes each lane once. -/
theorem Lanes.sum_of_additive (hR : Additive R) (hp : ∀ i : Fin 8, R p[i] (ns i)) :
    R p.sum (∑ i, ns i) := by
  have h := hR.add (hR.add (hR.add (hR.add hR.zero (hR.add (hp 0) (hp 4)))
    (hR.add (hp 1) (hp 5))) (hR.add (hp 2) (hp 6))) (hR.add (hp 3) (hp 7))
  have hsum : ∑ i, ns i =
      0 + (ns 0 + ns 4) + (ns 1 + ns 5) + (ns 2 + ns 6) + (ns 3 + ns 7) := by
    rw [Fin.sum_univ_eight]
    omega
  rw [hsum]
  exact h

/-- The squares that are left over follow one by one. -/
theorem foldl_of_additive (hR : Additive R) (hs : R s n)
    (hrow : List.Forall₂ (fun a k => R (a * a) k) row squares) :
    R (row.foldl (fun s a => s + a * a) s) (n + squares.sum) := by
  induction hrow generalizing s n with
  | nil => exact hs
  | cons ha _ ih =>
    rw [List.foldl_cons, List.sum_cons, ← Nat.add_assoc]
    exact ih (hR.add hs ha)

/-- **Each square is added once**, whatever the length of the row. -/
theorem addSquares_of_additive (hR : Additive R) (hp : ∀ i : Fin 8, R p[i] (ns i))
    (hrow : List.Forall₂ (fun a k => R (a * a) k) row squares) :
    R (addSquares p row) (∑ i, ns i + squares.sum) := by
  fun_induction addSquares p row generalizing ns squares with
  | case1 p a b c d e f g h row added =>
    rename_i ih
    simp only [List.forall₂_cons_left_iff] at hrow
    obtain ⟨ka, _, ha, ⟨kb, _, hb, ⟨kc, _, hc, ⟨kd, _, hd, ⟨ke, _, he, ⟨kf, _, hf, ⟨kg, _, hg,
      ⟨kh, rest, hh, hrest, rfl⟩, rfl⟩, rfl⟩, rfl⟩, rfl⟩, rfl⟩, rfl⟩, rfl⟩ := hrow
    -- one more square in each lane
    obtain ⟨ns', hns⟩ : ∃ ns' : Fin 8 → ℕ, ns' = ![ns 0 + ka, ns 1 + kb, ns 2 + kc, ns 3 + kd,
      ns 4 + ke, ns 5 + kf, ns 6 + kg, ns 7 + kh] := ⟨_, rfl⟩
    have hlanes : ∀ i : Fin 8, R added[i] (ns' i) := by
      intro i
      rw [hns]
      fin_cases i
      · exact hR.add (hp 0) ha
      · exact hR.add (hp 1) hb
      · exact hR.add (hp 2) hc
      · exact hR.add (hp 3) hd
      · exact hR.add (hp 4) he
      · exact hR.add (hp 5) hf
      · exact hR.add (hp 6) hg
      · exact hR.add (hp 7) hh
    have hsum : ∑ i, ns i + (ka :: kb :: kc :: kd :: ke :: kf :: kg :: kh :: rest).sum =
        ∑ i, ns' i + rest.sum := by
      rw [hns, Fin.sum_univ_eight, Fin.sum_univ_eight]
      simp only [List.sum_cons, Matrix.cons_val]
      omega
    rw [hsum]
    exact ih hlanes hrest
  | case2 p row hshort =>
    exact foldl_of_additive hR (Lanes.sum_of_additive hR hp) hrow

theorem sumOfSquares_of_additive (hR : Additive R)
    (hrow : List.Forall₂ (fun a k => R (a * a) k) row squares) :
    R (sumOfSquares row) squares.sum := by
  have hp : ∀ i : Fin 8, R (Vector.replicate 8 (0 : Float))[i] 0 := by
    intro i
    fin_cases i <;> exact hR.zero
  have h := addSquares_of_additive hR hp hrow
  rwa [Finset.sum_const_zero, Nat.zero_add] at h

/-! ## Signs -/

/-- A sum of squares has no sign, whatever is lost, too large or no number at all. -/
theorem unsigned_sumOfSquares (row : List Float) : Unsigned (sumOfSquares row).toModel.unpack := by
  have hR : Additive fun x _ => Unsigned x.toModel.unpack := by
    refine ⟨?_, fun hx hy => hx.add hy⟩
    rw [unpack_zero]
    exact .zero
  have hsquares : List.Forall₂ (fun a (_ : ℕ) => Unsigned (a * a).toModel.unpack) row
      (row.map fun _ => 0) := by
    rw [List.forall₂_map_right_iff, List.forall₂_same]
    intro a _
    exact unsigned_mul_self a
  exact sumOfSquares_of_additive hR hsquares

/-- **Distances have no sign.** -/
theorem unsigned_euclidean (first second : List Float) :
    Unsigned (euclidean first second).toModel.unpack :=
  (unsigned_sumOfSquares _).sqrt

/-! ## Rows of whole numbers -/

/-- A row of whole numbers. -/
def Integral (row : List Float) (zs : List ℤ) : Prop :=
  List.Forall₂ (fun x (z : ℤ) => Exactly x z) row zs

/-- The exact sum of the squares of whole numbers. -/
def sumOfSquaresInt (zs : List ℤ) : ℕ := (zs.map fun z => z.natAbs ^ 2).sum

/-- The exact square of the distance of two rows of whole numbers. -/
def squaredDistance (zs ys : List ℤ) : ℕ := sumOfSquaresInt (List.zipWith (· - ·) zs ys)

theorem sq_le_sumOfSquaresInt {z : ℤ} (hz : z ∈ zs) : z.natAbs ^ 2 ≤ sumOfSquaresInt zs :=
  List.single_le_sum (fun _ _ => Nat.zero_le _) _ (List.mem_map_of_mem hz)

/-- **A sum of squares of whole numbers is exact**, when it is not too large. -/
theorem sumOfSquares_exact (hrow : Integral row zs) (hle : sumOfSquaresInt zs ≤ 2 ^ 53) :
    sumOfSquares row = Float.ofNat (sumOfSquaresInt zs) := by
  have hR : Additive fun x n => n ≤ 2 ^ 53 → x = Float.ofNat n := by
    refine ⟨fun _ => rfl, fun {x y a b} hx hy h => ?_⟩
    rw [hx (by omega), hy (by omega)]
    exact ofNat_add h
  apply sumOfSquares_of_additive hR _ hle
  rw [List.forall₂_map_right_iff]
  exact hrow.imp fun x z hx _ => hx.mul_self

/-- The differences of whole numbers are exact, when their squares are not too large. -/
theorem Integral.sub (hfirst : Integral first zs) (hsecond : Integral second ys)
    (hle : squaredDistance zs ys ≤ 2 ^ 53) :
    Integral (List.zipWith (· - ·) first second) (List.zipWith (· - ·) zs ys) := by
  have hsmall : ∀ z ∈ List.zipWith (· - ·) zs ys, z.natAbs ≤ 2 ^ 53 := by
    intro z hz
    calc z.natAbs ≤ z.natAbs ^ 2 := Nat.le_self_pow two_ne_zero _
      _ ≤ squaredDistance zs ys := sq_le_sumOfSquaresInt hz
      _ ≤ 2 ^ 53 := hle
  clear hle
  induction hfirst generalizing second ys with
  | nil => exact .nil
  | cons hx _ ih =>
    cases hsecond with
    | nil => exact .nil
    | cons hy hrest =>
      refine .cons ?_ (ih hrest fun z hz => hsmall z (List.mem_cons_of_mem _ hz))
      exact hx.sub hy (Int.cast_sub _ _).symm (hsmall _ List.mem_cons_self)

/-- **A finite row is at no distance from itself**: the differences are exact, and they are
zeros. -/
theorem euclidean_self (h : ∀ x ∈ row, x.isFinite) : euclidean row row = 0 := by
  have hzeros : Integral (List.zipWith (· - ·) row row) (row.map fun _ => 0) := by
    unfold Integral
    rw [List.zipWith_self, List.forall₂_map_left_iff, List.forall₂_map_right_iff, List.forall₂_same]
    intro x hx
    obtain ⟨v, hv⟩ := exactly_of_isFinite (h x hx)
    exact hv.sub hv (by rw [sub_self, Int.cast_zero]) (by norm_num)
  have hsum : sumOfSquaresInt (row.map fun _ => 0) = 0 := by
    unfold sumOfSquaresInt
    simp
  unfold euclidean
  rw [sumOfSquares_exact hzeros (by rw [hsum]; norm_num), hsum]
  exact sqrt_zero

/-- **A distance of rows of whole numbers** is the root of the exact square. -/
theorem euclidean_exact (hfirst : Integral first zs) (hsecond : Integral second ys)
    (hle : squaredDistance zs ys ≤ 2 ^ 53) :
    euclidean first second = (Float.ofNat (squaredDistance zs ys)).sqrt := by
  unfold euclidean
  rw [sumOfSquares_exact (hfirst.sub hsecond hle) hle]
  rfl

end NearestNeighbors
