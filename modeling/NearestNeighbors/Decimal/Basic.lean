/-!
# Decimal numbers

A decimal is a natural number of units of a power of ten. It is what a numeral in a
table denotes, and what a double is written as.

* `Decimal.toFloat`: the double nearest to a decimal, ties to even.
-/

namespace NearestNeighbors

/-- The number `digits · 10 ^ exponent`. -/
structure Decimal where
  digits : Nat
  exponent : Int
  deriving DecidableEq, Repr

/-- The nearest double, of two equally near the one with an even mantissa; infinite
when the decimal is too large, zero when it is too small. -/
def Decimal.toFloat (d : Decimal) : Float :=
  Float.ofScientific d.digits (decide (d.exponent < 0)) d.exponent.natAbs

end NearestNeighbors
