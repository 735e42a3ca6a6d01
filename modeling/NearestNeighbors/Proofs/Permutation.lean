import NearestNeighbors.Permutation

/-!
# An arrangement is a permutation

A number that comes in changes places with one that is there, or with none. So whatever
the draws are, the arrangement holds each number below their count once.

* `arrange_perm`: of any draws.
* `permutation_perm`, `lt_of_mem_permutation`: of the draws of a seed.
-/

namespace NearestNeighbors

theorem swapIfInBounds_perm {α : Type} (a : Array α) (i j : Nat) :
    (a.swapIfInBounds i j).Perm a := by
  unfold Array.swapIfInBounds
  split
  · split
    · exact Array.swap_perm _ _
    · exact .refl a
  · exact .refl a

/-- What comes in is there afterwards, with all that was there before. -/
theorem insertAt_perm (a : Array Nat) (j : Nat) :
    (insertAt a j).toList.Perm (a.toList ++ [a.size]) := by
  have h := (swapIfInBounds_perm (a.push a.size) a.size j).toList
  rwa [Array.toList_push] at h

/-- One draw after the other adds its own number; where it puts the number does not
matter here. -/
theorem foldl_insertAt_perm (draws : List Nat) (a : Array Nat) (n : Nat)
    (ha : a.toList.Perm (List.range n)) :
    (draws.foldl insertAt a).toList.Perm (List.range (n + draws.length)) := by
  induction draws generalizing a n with
  | nil => exact ha
  | cons j draws ih =>
    -- what comes in is the size of the array, so the numbers stay those of a range
    have hsize : a.size = n := by
      rw [← Array.length_toList, ha.length_eq, List.length_range]
    have hstep : (insertAt a j).toList.Perm (List.range (n + 1)) := by
      have h := insertAt_perm a j
      rw [hsize] at h
      rw [List.range_succ]
      exact h.trans (ha.append_right [n])
    have h := ih (insertAt a j) (n + 1) hstep
    rw [List.foldl_cons, List.length_cons]
    rwa [show n + (draws.length + 1) = n + 1 + draws.length by omega]

theorem arrange_perm (draws : List Nat) :
    (arrange draws).Perm (List.range draws.length) := by
  have h := foldl_insertAt_perm draws #[] 0 (.refl [])
  rwa [Nat.zero_add] at h

variable (samples : Nat) (seed : UInt64)

/-- **The permutation of a seed** holds each number below `samples` once. -/
theorem permutation_perm : (permutation samples seed).Perm (List.range samples) := by
  have h := arrange_perm (Random.draws (Random.Seed.words seed) samples)
  rwa [Random.length_draws] at h

theorem length_permutation : (permutation samples seed).length = samples := by
  rw [(permutation_perm samples seed).length_eq, List.length_range]

theorem nodup_permutation : (permutation samples seed).Nodup :=
  (permutation_perm samples seed).nodup_iff.2 List.nodup_range

theorem mem_permutation {samples : Nat} {seed : UInt64} {i : Nat} :
    i ∈ permutation samples seed ↔ i < samples := by
  rw [(permutation_perm samples seed).mem_iff, List.mem_range]

end NearestNeighbors
