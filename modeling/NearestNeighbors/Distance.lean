/-!
# Euclidean distance

The distance of two rows is the square root of a sum of squares, in binary64. The sum
of a double arithmetic depends on its order: eight lanes take every eighth square as
long as eight are left, the lanes are added in a fixed order, and the squares left over
follow one by one.

* `sumOfSquares`: the sum.
* `euclidean`: the distance of rows of one length.
* `distance`: the distance of any two rows, where there is one.
-/

namespace NearestNeighbors

/-- Eight partial sums. -/
abbrev Lanes := Vector Float 8

/-- The sum of the lanes: each with the one four places on, then the pairs in order. -/
def Lanes.sum (p : Lanes) : Float :=
  (0 : Float) + (p[0] + p[4]) + (p[1] + p[5]) + (p[2] + p[6]) + (p[3] + p[7])

/-- Adds the squares of a row to the lanes, and the lanes to one another at the end. -/
def addSquares (p : Lanes) : List Float → Float
  | a :: b :: c :: d :: e :: f :: g :: h :: row =>
    let added : Lanes := #v[
      p[0] + a * a, p[1] + b * b, p[2] + c * c, p[3] + d * d,
      p[4] + e * e, p[5] + f * f, p[6] + g * g, p[7] + h * h]
    addSquares added row
  | row => row.foldl (fun s a => s + a * a) p.sum

/-- The sum of the squares of a row. -/
def sumOfSquares (row : List Float) : Float :=
  addSquares (Vector.replicate 8 0) row

/-- The distance of two rows of one length. -/
def euclidean (first second : List Float) : Float :=
  (sumOfSquares (List.zipWith (· - ·) first second)).sqrt

/-- Makes two rows equally long: a row of one entry repeats it as often as the other row
is long. Other rows of different lengths do not fit. -/
def broadcast (first second : List Float) : Option (List Float × List Float) :=
  if first.length = second.length then some (first, second)
  else
    match first, second with
    | [a], second => some (List.replicate second.length a, second)
    | first, [b] => some (first, List.replicate first.length b)
    | _, _ => none

/-- The distance of two rows that fit. -/
def distance (first second : List Float) : Option Float :=
  (broadcast first second).map fun (a, b) => euclidean a b

/-- Rows of one length are taken as they are. -/
theorem distance_of_length_eq {first second : List Float} (h : first.length = second.length) :
    distance first second = some (euclidean first second) := by
  unfold distance broadcast
  rw [if_pos h]
  rfl

end NearestNeighbors
