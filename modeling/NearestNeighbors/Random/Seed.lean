import NearestNeighbors.Random.ChaCha

/-!
# Seeds

A seed is a word of 64 bits. A linear congruential generator stretches it to a key:
each step gives one word, folded and turned by bits of the state itself.

* `key`: the key of a seed.
* `words`: the stream of a seed.
-/

namespace NearestNeighbors.Random.Seed

/-- One step of the generator. -/
def step (s : UInt64) : UInt64 :=
  s * 6364136223846793005 + 11634580027462260723

/-- The word that a state gives. Its five top bits say how far the word is turned. -/
def word (s : UInt64) : UInt32 :=
  rotateRight (((s >>> 18) ^^^ s) >>> 27).toUInt32 (s >>> 59).toUInt32

/-- The key of a seed: the words of the eight states after it. -/
def key (seed : UInt64) : ChaCha.Key :=
  Vector.ofFn fun i => word (Nat.repeat step (i + 1) seed)

/-- The stream of a seed. -/
def words (seed : UInt64) : Words :=
  ChaCha.stream (key seed)

end NearestNeighbors.Random.Seed
