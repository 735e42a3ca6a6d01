import NearestNeighbors.Random.Words

/-!
# Index draws

The draw for position `i` is a number up to `i`. Draws for neighbouring positions are
taken from one word: a chunk is a number below the product of as many consecutive
radices as stay below `2 ^ 32`, and the draws are its digits to these radices.

* `grow`: how many radices a chunk covers.
* `pick`: a number below a bound, from one word or two.
* `Chunk.draw`: the draw for the next radix.
* `draws`: the draws for the positions below `n`.
-/

namespace NearestNeighbors.Random

/-- Multiplies `bound` by `next` and the numbers after it as long as the product stays
below `2 ^ 32`. The result is the product and the first number left out. -/
def grow (bound next : Nat) : Nat × Nat :=
  if 0 < bound ∧ 1 < next ∧ bound * next < wordCount then grow (bound * next) (next + 1)
  else (bound, next)
termination_by wordCount - bound
decreasing_by
  rename_i h
  have : bound * 2 ≤ bound * next := Nat.mul_le_mul_left _ h.2.1
  omega

/-- A number below `bound` from the words at `position` and after it: the upper half
of the product of `bound` and a word. Where the lower half leaves open whether more
bits would carry into the upper one, a second word decides. The second component is
the position after the words used. -/
def pick (words : Words) (position bound : Nat) : Nat × Nat :=
  let product := (words position).toNat * bound
  let upper := product / wordCount
  let lower := product % wordCount
  if wordCount - bound < lower then
    let more := (words (position + 1)).toNat * bound / wordCount
    (if wordCount ≤ lower + more then upper + 1 else upper, position + 2)
  else (upper, position + 1)

/-- A number that holds the next draws. -/
structure Chunk where
  value : Nat
  /-- The draws it still holds. -/
  left : Nat
  /-- Where the unused words begin. -/
  position : Nat
  deriving DecidableEq, Repr

namespace Chunk

/-- The first draw has no choice and needs no word. -/
def first : Chunk := ⟨0, 1, 0⟩

/-- A chunk for `radix` and the radices after it. -/
def fresh (words : Words) (position radix : Nat) : Chunk :=
  let (bound, next) := grow radix (radix + 1)
  let (value, position) := pick words position bound
  ⟨value, next - radix, position⟩

/-- The draw for `radix` from a chunk that holds one. The last draw is all that is left
of the chunk. -/
def take (c : Chunk) (radix : Nat) : Nat × Chunk :=
  if c.left = 1 then (c.value, { c with left := 0 })
  else (c.value % radix, { c with value := c.value / radix, left := c.left - 1 })

/-- The draw for `radix`, after a new chunk where the old one is used up. -/
def draw (words : Words) (c : Chunk) (radix : Nat) : Nat × Chunk :=
  (if c.left = 0 then fresh words c.position radix else c).take radix

end Chunk

/-- The draws for the positions below `n`, and the chunk after them. -/
def drawing (words : Words) (n : Nat) : Array Nat × Chunk :=
  n.fold (fun i _ (drawn, chunk) =>
      let (j, chunk) := chunk.draw words (i + 1)
      (drawn.push j, chunk))
    (#[], .first)

/-- The draws for the positions below `n`: the one for position `i` is at most `i`. -/
def draws (words : Words) (n : Nat) : List Nat :=
  (drawing words n).1.toList

variable (words : Words) (n : Nat)

theorem drawing_succ : drawing words (n + 1) =
    let (drawn, chunk) := drawing words n
    let (j, chunk) := chunk.draw words (n + 1)
    (drawn.push j, chunk) := by
  rw [drawing, Nat.fold_succ]
  rfl

/-- The draws for the first positions do not depend on how many follow. -/
theorem draws_succ :
    draws words (n + 1) = draws words n ++ [((drawing words n).2.draw words (n + 1)).1] := by
  rw [draws, drawing_succ]
  exact Array.toList_push

theorem length_draws : (draws words n).length = n := by
  induction n with
  | zero => rfl
  | succ n ih => rw [draws_succ, List.length_append, ih, List.length_singleton]

end NearestNeighbors.Random
