import NearestNeighbors.Error

/-!
# Votes

Each label up to the largest one has a counter. The most frequent label wins; of labels
that are equally frequent, the lowest, because a later label takes the lead only with
more votes.

* `tally`: the counters after all votes.
* `leader`: the first label with the highest counter.
* `vote`: the winning label, where the votes can be counted.
-/

namespace NearestNeighbors

/-- The number of counters that fit into memory, `2 ^ 60 - 1`: each has eight bytes, and a
row of them is shorter than `2 ^ 63` bytes. -/
def maxCounters : Nat := 1152921504606846975

/-- One counter for each label up to the largest one; none when nobody votes. -/
def counterCount (labels : List Nat) : Nat :=
  match labels.max? with
  | some l => l + 1
  | none => 0

/-- The counter of a label. -/
def counter (counts : Array Nat) (label : Nat) : Except Failure Nat :=
  match counts[label]? with
  | some n => .ok n
  | none => .error .outOfRange

/-- Counts a vote for `label`. -/
def countVote (counts : Array Nat) (label : Nat) : Except Failure (Array Nat) := do
  let n ← counter counts label
  return counts.setIfInBounds label (n + 1)

/-- The counters after all votes. -/
def tally (labels : List Nat) : Except Failure (Array Nat) :=
  labels.foldlM countVote (Array.replicate (counterCount labels) 0)

/-- The label in the lead after `label`, which has `n` votes, is compared with the one in
the lead before it. -/
def overtake (counts : Array Nat) (best : Nat) : Nat × Nat → Except Failure Nat
  | (n, label) => do
    let most ← counter counts best
    return if most < n then label else best

/-- The first label with the highest counter; label zero when there is no counter. -/
def leader (counts : Array Nat) : Except Failure Nat :=
  counts.toList.zipIdx.foldlM (overtake counts) 0

/-- The winning label. -/
def vote (labels : List Nat) : Except Failure Nat :=
  if maxCounters < counterCount labels then .error .capacity
  else tally labels >>= leader

end NearestNeighbors
