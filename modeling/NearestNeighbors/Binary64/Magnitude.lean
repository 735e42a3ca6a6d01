/-!
# The exact value behind a double

A finite double other than a zero is `± m · 2 ^ e` with a positive natural `m`. Whatever
has to be exact (rounding up to a size, choosing digits) works on `m` and `e` with
naturals only.

* `Magnitude`: `m` and `e`; `magnitude?` reads them off a double.
* `Magnitude.ratio`: the same value as a fraction of naturals.
* `ceilingSize`: the least size that is at least a given double.
-/

namespace NearestNeighbors.Binary64

open Float.Model.UnpackedFloat

/-- The number `mantissa · 2 ^ exponent`. -/
structure Magnitude where
  mantissa : Nat
  exponent : Int
  deriving DecidableEq, Repr

/-- The absolute value of a double. Infinities and NaN have none. -/
def magnitude? (x : Float) : Option Magnitude :=
  match x.toModel.unpack with
  | .finite _ m e _ => some ⟨m, e⟩
  | .zero _ => some ⟨0, 0⟩
  | .infinity _ | .notANumber => none

/-- Numerator and denominator; the denominator is a power of two. -/
def Magnitude.ratio (a : Magnitude) : Nat × Nat :=
  (a.mantissa * Nat.pow 2 a.exponent.toNat, Nat.pow 2 (-a.exponent).toNat)

/-- The least natural number that is at least the magnitude. -/
def Magnitude.ceiling (a : Magnitude) : Nat :=
  (a.ratio.1 + (a.ratio.2 - 1)) / a.ratio.2

/-- The largest size, `2 ^ 64 - 1`: sizes are words of 64 bits. -/
def maxSize : Nat := 18446744073709551615

/-- The least size that is at least `x`. What is above the largest size is cut to it; a
negative number and a NaN count as zero. -/
def ceilingSize (x : Float) : Nat :=
  match x.toModel.unpack with
  | .finite .positive m e _ => min (Magnitude.ceiling ⟨m, e⟩) maxSize
  | .infinity .positive => maxSize
  | _ => 0

end NearestNeighbors.Binary64
