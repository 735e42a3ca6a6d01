import NearestNeighbors.Random.Words

/-!
# The ChaCha stream

Word `i` of the stream is word `i % 16` of block `i / 16`. A block is a function of the
key and of its own number: twelve rounds turn a matrix of sixteen words over, and the
result is added to what it started from.

* `block`: one block.
* `stream`: the stream of a key.
-/

namespace NearestNeighbors.Random.ChaCha

/-- Four rows of four words. -/
abbrev Block := Vector UInt32 16

/-- A key of 256 bits. -/
abbrev Key := Vector UInt32 8

/-- Adds word `b` to word `a`, then the sum into word `d`, which is turned left. -/
def mix (s : Block) (a b d : Fin 16) (turn : UInt32) : Block :=
  let s := s.set a (s[a] + s[b])
  s.set d (rotateLeft (s[d] ^^^ s[a]) turn)

/-- The quarter round on four words. -/
def quarterRound (s : Block) (a b c d : Fin 16) : Block :=
  let s := mix s a b d 16
  let s := mix s c d b 12
  let s := mix s a b d 8
  mix s c d b 7

/-- A round on the columns and a round on the diagonals. -/
def doubleRound (s : Block) : Block :=
  let s := quarterRound s 0 4 8 12
  let s := quarterRound s 1 5 9 13
  let s := quarterRound s 2 6 10 14
  let s := quarterRound s 3 7 11 15
  let s := quarterRound s 0 5 10 15
  let s := quarterRound s 1 6 11 12
  let s := quarterRound s 2 7 8 13
  quarterRound s 3 4 9 14

/-- The letters of "expand 32-byte k", four to a word. -/
def constants : Vector UInt32 4 := #v[0x61707865, 0x3320646e, 0x79622d32, 0x6b206574]

/-- What block `i` starts from: the constants, the key, and the block number as two
words, the lower one first. The last two words are zero. -/
def initial (key : Key) (i : Nat) : Block :=
  constants ++ key ++ #v[UInt32.ofNat i, UInt32.ofNat (i / wordCount), UInt32.ofNat 0, UInt32.ofNat 0]

/-- Block `i`, by six double rounds. -/
def block (key : Key) (i : Nat) : Block :=
  let start := initial key i
  (Nat.repeat doubleRound 6 start).zipWith (· + ·) start

/-- The stream of a key. -/
def stream (key : Key) : Words := fun i =>
  (block key (i / 16))[i % 16]

end NearestNeighbors.Random.ChaCha
