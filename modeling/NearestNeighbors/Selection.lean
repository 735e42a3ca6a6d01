/-!
# The nearest positions

* `smallest`: the positions of the `k` smallest keys. Equal keys are taken in the order
  of their positions.
-/

namespace NearestNeighbors

/-- A key comes before another when it is smaller, or equal and further to the front. -/
def keyLe (a b : Int × Nat) : Bool :=
  a.1 < b.1 || (a.1 = b.1 && a.2 ≤ b.2)

/-- The positions of the `k` smallest keys, the smallest first. -/
def smallest (k : Nat) (keys : List Int) : List Nat :=
  ((keys.zipIdx.mergeSort keyLe).take k).map Prod.snd

end NearestNeighbors
