import NearestNeighbors.Binary64.Magnitude
import NearestNeighbors.Decimal.Basic

/-!
# The shortest decimal that reads back

A double is written with the fewest digits from which it can be read back. The
multiples of a power of ten form a grid; the coarser the grid, the fewer the digits.
`shortest` takes the coarsest grid on which one of the two neighbours of the value
reads back, and on it the neighbour that is nearer. A value exactly in the middle
goes to the upper neighbour.

* `readsBack`: the decimal has the given magnitude as its nearest double.
* `onGrid?`: the nearest neighbour on one grid that reads back.
* `shortest`: the first success from the coarsest grid down.
-/

namespace NearestNeighbors.Decimal

open Binary64

/-- The double nearest to `d` has the magnitude `a`. -/
def readsBack (a : Magnitude) (d : Decimal) : Bool :=
  magnitude? d.toFloat == some a

/-- Numerator and denominator of the magnitude in units of `10 ^ grid`. -/
def gridRatio (a : Magnitude) (grid : Int) : Nat × Nat :=
  (a.ratio.1 * Nat.pow 10 (-grid).toNat, a.ratio.2 * Nat.pow 10 grid.toNat)

/-- The neighbour of `a` on the multiples of `10 ^ grid` that reads back; the nearer one
where both do, and the upper one when they are equally near. -/
def onGrid? (a : Magnitude) (grid : Int) : Option Decimal :=
  let (num, den) := gridRatio a grid
  let lower : Decimal := ⟨num / den, grid⟩
  let upper : Decimal := ⟨num / den + 1, grid⟩
  match readsBack a lower, readsBack a upper with
  | true, true => some (if 2 * (num % den) < den then lower else upper)
  | true, false => some lower
  | false, true => some upper
  | false, false => none

/-- The grids from coarse to fine. No double reaches `10 ^ 309`, and every finite
double lies on the grid of `10 ^ -1074`. -/
def grids : List Int :=
  (List.range 1384).map fun (i : Nat) => 309 - (i : Int)

/-- The finest grid holds every magnitude exactly. -/
def exact (a : Magnitude) : Decimal :=
  ⟨(gridRatio a (-1074)).1 / (gridRatio a (-1074)).2, -1074⟩

/-- The decimal on the coarsest grid that reads back as the magnitude of a double. -/
def shortest (a : Magnitude) : Decimal :=
  (grids.findSome? (onGrid? a)).getD (exact a)

end NearestNeighbors.Decimal
