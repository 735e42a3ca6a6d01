import NearestNeighbors.Selection

/-!
# Which positions are selected

Sorting only moves the positions, so that the first `k` of them are `k` different
positions of the list.

* `length_smallest`, `nodup_smallest`, `lt_of_mem_smallest`: how many, all different, and
  all inside the list.
-/

namespace NearestNeighbors

variable {k : Nat} {keys : List Int}

/-- The positions in the order of their keys. -/
def sortedPositions (keys : List Int) : List Nat := (keys.zipIdx.mergeSort keyLe).map Prod.snd

/-- They are all positions of the list. -/
theorem sortedPositions_perm (keys : List Int) :
    (sortedPositions keys).Perm (List.range keys.length) := by
  have h := (List.mergeSort_perm keys.zipIdx keyLe).map Prod.snd
  rwa [List.zipIdx_map_snd, ← List.range_eq_range'] at h

theorem smallest_eq_take (k : Nat) (keys : List Int) :
    smallest k keys = (sortedPositions keys).take k :=
  List.map_take

theorem length_smallest (k : Nat) (keys : List Int) :
    (smallest k keys).length = min k keys.length := by
  rw [smallest_eq_take, List.length_take, (sortedPositions_perm keys).length_eq, List.length_range]

theorem nodup_smallest : (smallest k keys).Nodup := by
  rw [smallest_eq_take]
  exact ((sortedPositions_perm keys).nodup_iff.2 List.nodup_range).sublist (List.take_sublist ..)

theorem lt_of_mem_smallest {i : Nat} (h : i ∈ smallest k keys) : i < keys.length := by
  rw [smallest_eq_take] at h
  have hmem := (sortedPositions_perm keys).mem_iff.1 (List.mem_of_mem_take h)
  exact List.mem_range.1 hmem

end NearestNeighbors
