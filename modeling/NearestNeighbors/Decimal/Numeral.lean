import NearestNeighbors.Decimal.Basic

/-!
# Numerals

The grammar of a number in a table field:

    numeral  = [sign] (word | decimal)
    word     = "inf" | "infinity" | "nan"            in any mixture of cases
    decimal  = (digits ["." [digits]] | "." digits) [("e" | "E") [sign] digits]
    sign     = "+" | "-"

Only the ten ASCII digits count as digits. A numeral has no limit on its length or
on its exponent.

* `Numeral.parse?` reads the whole of a text, or nothing.
* `Numeral.toFloat` is the double it stands for.
-/

namespace NearestNeighbors

/-- The unsigned part of a numeral. -/
inductive Quantity where
  | decimal (value : Decimal)
  | infinity
  | notANumber
  deriving DecidableEq, Repr

/-- A signed quantity. -/
structure Numeral where
  negative : Bool
  quantity : Quantity
  deriving DecidableEq, Repr

namespace Numeral

/-- An ASCII digit. -/
def isDigit (c : Char) : Bool := '0' ≤ c && c ≤ '9'

/-- The value of an ASCII digit. -/
def digitValue (c : Char) : Nat := c.toNat - '0'.toNat

/-- The natural number that a row of digits denotes; the empty row denotes zero. -/
def ofDigits (cs : List Char) : Nat :=
  cs.foldl (fun n c => 10 * n + digitValue c) 0

/-- Takes a sign off the front; `true` is a minus, and no sign is a plus. -/
def splitSign : List Char → Bool × List Char
  | '-' :: cs => (true, cs)
  | '+' :: cs => (false, cs)
  | cs => (false, cs)

/-- The exponent that ends a decimal. No exponent is exponent zero; once the letter
is there, at least one digit follows and nothing else. -/
def parseExponent? : List Char → Option Int
  | [] => some 0
  | c :: cs =>
    if c = 'e' ∨ c = 'E' then
      let (negative, ds) := splitSign cs
      if ds ≠ [] ∧ ds.all isDigit then
        some (if negative then -(ofDigits ds : Int) else ofDigits ds)
      else none
    else none

/-- Takes a point and the digits after it off the front, if there is a point. -/
def splitFraction : List Char → List Char × List Char
  | '.' :: cs => (cs.takeWhile isDigit, cs.dropWhile isDigit)
  | cs => ([], cs)

/-- An unsigned decimal: digits, a fraction, an exponent. At least one digit stands
before the exponent. -/
def parseDecimal? (cs : List Char) : Option Decimal :=
  let whole := cs.takeWhile isDigit
  let (fraction, rest) := splitFraction (cs.dropWhile isDigit)
  if whole = [] ∧ fraction = [] then none
  else
    (parseExponent? rest).map fun exponent =>
      ⟨ofDigits (whole ++ fraction), exponent - fraction.length⟩

/-- A word for a quantity that has no digits. -/
def parseWord? (cs : List Char) : Option Quantity :=
  let word := cs.map Char.toLower
  if word = "inf".toList ∨ word = "infinity".toList then some .infinity
  else if word = "nan".toList then some .notANumber
  else none

/-- Reads all of `text` as a numeral. -/
def parse? (text : String) : Option Numeral :=
  let (negative, cs) := splitSign text.toList
  match parseWord? cs with
  | some quantity => some ⟨negative, quantity⟩
  | none => (parseDecimal? cs).map fun value => ⟨negative, .decimal value⟩

end Numeral

/-- The double nearest to an unsigned quantity. -/
def Quantity.toFloat : Quantity → Float
  | .decimal value => value.toFloat
  | .infinity => 1 / 0
  | .notANumber => 0 / 0

/-- The double nearest to a numeral. A zero and an infinity keep the sign. -/
def Numeral.toFloat (n : Numeral) : Float :=
  if n.negative then -n.quantity.toFloat else n.quantity.toFloat

end NearestNeighbors
