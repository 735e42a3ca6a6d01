/-!
# Word streams

Randomness is a stream of 32-bit words, and a stream is a function of the position: the
words are there whether they are used or not, and two computations that start at the
same position see the same words.

* `wordCount`: the number of different words.
* `Words`: a stream; `rotateLeft` and `rotateRight` turn a word round.
-/

namespace NearestNeighbors.Random

/-- How many words there are, `2 ^ 32`. -/
def wordCount : Nat := 4294967296

/-- A stream of words, by position. -/
abbrev Words := Nat → UInt32

/-- The word with its bits moved up by `k` places, those that fall out at the top coming
in at the bottom. -/
def rotateLeft (x k : UInt32) : UInt32 :=
  (x <<< k) ||| (x >>> (32 - k))

/-- The word with its bits moved down by `k` places, those that fall out at the bottom
coming in at the top. -/
def rotateRight (x k : UInt32) : UInt32 :=
  (x >>> k) ||| (x <<< (32 - k))

end NearestNeighbors.Random
