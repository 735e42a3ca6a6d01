/-!
# The total order of binary64

A comparison that is `false` both ways on a NaN cannot sort. Sorting here goes by
an integer key, the position of a double in the IEEE total order: `-∞` first, then
the negative numbers, `-0`, `0`, the positive numbers, `+∞`, and last the NaN.

* `orderKey`: the key of a double.
-/

namespace NearestNeighbors.Binary64

/-- The weight of the sign bit, `2 ^ 63`. -/
def signWeight : Nat := 9223372036854775808

/-- The position of `x` in the IEEE total order. Magnitudes are ordered as their
bits are; a set sign bit turns the order round, so that `-0` comes just before `0`. -/
def orderKey (x : Float) : Int :=
  let bits := x.toBits.toNat
  if bits < signWeight then bits else (signWeight : Int) - 1 - bits

end NearestNeighbors.Binary64
