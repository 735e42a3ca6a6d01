import NearestNeighbors.Decimal.Shortest

/-!
# Decimals as text

Numbers are written positionally, never with an exponent, however many zeros that
takes.

* `positional`: the digits of a decimal with its point.
* `plainText`: a double by its shortest decimal.
* `fixedText`: a double with a set number of places, rounded from its exact value.
-/

namespace NearestNeighbors.Decimal

open Binary64
open Float.Model.UnpackedFloat

/-- A row of digits with `places` of them after the point, filled up with leading zeros
so that at least one stands before it. No places, no point. -/
def withPoint (digits : List Char) (places : Nat) : List Char :=
  if places = 0 then digits
  else
    let filled := List.replicate (places + 1 - digits.length) '0' ++ digits
    filled.take (filled.length - places) ++ '.' :: filled.drop (filled.length - places)

/-- The positional digits of a decimal. -/
def positional (d : Decimal) : List Char :=
  withPoint (Nat.toDigits 10 d.digits ++ List.replicate d.exponent.toNat '0')
    (-d.exponent).toNat

/-- The quotient rounded to the nearest natural number, a half to the even one. -/
def roundDiv (num den : Nat) : Nat :=
  let q := num / den
  let twice := 2 * (num % den)
  if twice < den ∨ (twice = den ∧ q % 2 = 0) then q else q + 1

/-- The digits of a magnitude with exactly `places` of them after the point. -/
def fixed (places : Nat) (a : Magnitude) : List Char :=
  withPoint (Nat.toDigits 10 (roundDiv (a.ratio.1 * Nat.pow 10 places) a.ratio.2)) places

/-- A minus goes before a negative number. -/
def signed (sign : Sign) (text : List Char) : String :=
  match sign with
  | .negative => String.ofList ('-' :: text)
  | .positive => String.ofList text

/-- The text of a double whose magnitude is written by `digits`. Zeros and infinities
keep their sign, and a NaN has none. -/
def textWith (digits : Magnitude → List Char) (x : Float) : String :=
  match x.toModel.unpack with
  | .finite sign m e _ => signed sign (digits ⟨m, e⟩)
  | .zero sign => signed sign (digits ⟨0, 0⟩)
  | .infinity sign => signed sign "inf".toList
  | .notANumber => "NaN"

/-- The digits of a magnitude by its shortest decimal; a whole number has no point. -/
def plain (a : Magnitude) : List Char :=
  if a.mantissa = 0 then ['0'] else (shortest a).positional

/-- The text of a double by its shortest decimal. -/
def plainText (x : Float) : String := textWith plain x

/-- The text of a double with exactly `places` digits after the point. -/
def fixedText (places : Nat) (x : Float) : String := textWith (fixed places) x

end NearestNeighbors.Decimal
