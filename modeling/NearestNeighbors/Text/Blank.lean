/-!
# Blank characters

Two sets of blanks surround a table field. Bytes are trimmed of the five ASCII
blanks; characters are trimmed of the Unicode property `White_Space`.

* `trimWith`: drops what satisfies a test from both ends.
* `isAsciiBlank`, `isBlank`: the two tests.
-/

namespace NearestNeighbors.Text

/-- Drops the longest run of `blank` elements from each end. -/
def trimWith {α : Type} (blank : α → Bool) (l : List α) : List α :=
  ((l.dropWhile blank).reverse.dropWhile blank).reverse

/-- Tab, line feed, form feed, carriage return and space. -/
def isAsciiBlank (b : UInt8) : Bool :=
  b = 9 || b = 10 || b = 12 || b = 13 || b = 32

/-- First and last code points of the ranges that have the property `White_Space`. -/
def blankRanges : List (Nat × Nat) :=
  [(0x9, 0xD), (0x20, 0x20), (0x85, 0x85), (0xA0, 0xA0), (0x1680, 0x1680), (0x2000, 0x200A),
   (0x2028, 0x2029), (0x202F, 0x202F), (0x205F, 0x205F), (0x3000, 0x3000)]

/-- The property `White_Space`. -/
def isBlank (c : Char) : Bool :=
  blankRanges.any fun (first, last) => first ≤ c.toNat && c.toNat ≤ last

/-- A text without the blanks around it. -/
def trim (s : String) : String :=
  String.ofList (trimWith isBlank s.toList)

end NearestNeighbors.Text
