import NearestNeighbors.Random.Draw
import NearestNeighbors.Random.Seed

/-!
# Permutations

A permutation grows from the empty one: number `i` comes in at the end and changes
places with the number at the position that draw `i` names. All later draws leave the
earlier ones alone, so that one more row changes one old position at most.

The draws are those of chunks, whatever the number of rows. A shuffle that leaves the chunks
for `2 ^ 32 - 1` rows and more, and draws each index on its own from 64 bits, makes other
permutations of that many rows: what is said of them here is said of the chunks only.

* `arrange`: the permutation that index draws make.
* `permutation`: the permutation of a seed.
-/

namespace NearestNeighbors

/-- Appends the next number and exchanges it with the one at position `j`. -/
def insertAt (a : Array Nat) (j : Nat) : Array Nat :=
  (a.push a.size).swapIfInBounds a.size j

/-- The arrangement of the numbers below the number of draws. -/
def arrange (draws : List Nat) : List Nat :=
  (draws.foldl insertAt #[]).toList

/-- One more draw inserts one more number. -/
theorem arrange_concat (draws : List Nat) (j : Nat) :
    arrange (draws ++ [j]) = (insertAt (draws.foldl insertAt #[]) j).toList := by
  rw [arrange, List.foldl_append, List.foldl_cons, List.foldl_nil]

/-- The numbers below `samples` in the order of a seed. -/
def permutation (samples : Nat) (seed : UInt64) : List Nat :=
  arrange (Random.draws (Random.Seed.words seed) samples)

end NearestNeighbors
