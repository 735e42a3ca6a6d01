import Mathlib.Data.Nat.Factorial.Basic
import NearestNeighbors.Random.Draw

/-!
# Index draws are in range

A chunk is a number below the product of the radices that it covers, and each draw takes one
radix away from both. So each draw is below its radix, and so is what is left for the last one.
The number itself comes from a word or two: the upper half of a product can be carried into only
where it is not the largest one.

* `grow_eq`, `grow_lt`, `le_grow`: the bound of a chunk.
* `pick_lt`: a number from words is below its bound.
* `Chunk.Holds`, `Chunk.Fresh`: what a chunk holds, and a new one; `Chunk.Holds.draw` is the step.
* `drawing_holds`, `draws_le`: the run, for any stream.
* `drawing_congr`: a run reads the words before the position that it ends at.
-/

namespace NearestNeighbors.Random

variable {words words' : Words} {position bound next radix n : ℕ} {c : Chunk}

/-! ## The bound -/

/-- A product of consecutive numbers, from the first of them. -/
theorem mul_ascFactorial (radix k : ℕ) :
    radix * (radix + 1).ascFactorial k = radix.ascFactorial (k + 1) := by
  rw [Nat.succ_ascFactorial, Nat.ascFactorial_succ]

/-- The bound is multiplied by consecutive numbers. -/
theorem grow_eq (bound next : ℕ) :
    ∃ k, grow bound next = (bound * next.ascFactorial k, next + k) := by
  fun_induction grow bound next with
  | case1 bound next h ih =>
    obtain ⟨k, hk⟩ := ih
    refine ⟨k + 1, ?_⟩
    rw [hk, Nat.mul_assoc, mul_ascFactorial, Nat.add_assoc, Nat.add_comm 1]
  | case2 bound next h => exact ⟨0, by rw [Nat.ascFactorial_zero, Nat.mul_one, Nat.add_zero]⟩

theorem grow_lt (h : bound < wordCount) : (grow bound next).1 < wordCount := by
  fun_induction grow bound next with
  | case1 bound next hgrow ih => exact ih hgrow.2.2
  | case2 bound next hgrow => exact h

/-- The bound could not be multiplied once more. -/
theorem le_grow (hpos : 0 < bound) (hnext : 1 < next) :
    wordCount ≤ (grow bound next).1 * (grow bound next).2 := by
  fun_induction grow bound next with
  | case1 bound next h ih => exact ih (Nat.mul_pos hpos (by omega)) (by omega)
  | case2 bound next h =>
    by_contra hlt
    exact h ⟨hpos, hnext, Nat.not_le.1 hlt⟩

/-! ## A number below the bound -/

/-- **A number from words is below its bound.** A carry comes in only where the lower half of the
product is above `2 ^ 32 - bound`; below the largest upper half there is room for it. -/
theorem pick_lt (hpos : 0 < bound) (hlt : bound < wordCount) :
    (pick words position bound).1 < bound := by
  have hword : (words position).toNat ≤ wordCount - 1 :=
    Nat.le_sub_one_of_lt (words position).toNat_lt
  have hprod : (words position).toNat * bound ≤ (wordCount - 1) * bound :=
    Nat.mul_le_mul_right bound hword
  unfold pick
  dsimp only
  generalize (words position).toNat * bound = product at hprod
  unfold wordCount at *
  split
  · split <;> omega
  · omega

/-- At the edge: the upper half is the second largest, and the carry makes it the largest. -/
example : pick (fun i => if i = 0 then 4294967287 else 4294967295) 0 479001600 =
    (479001599, 2) := by decide

theorem lt_pick_position : position < (pick words position bound).2 := by
  unfold pick
  dsimp only
  split <;> omega

/-- A number depends on the words it uses. -/
theorem pick_congr (h : ∀ p, position ≤ p → p < (pick words position bound).2 →
    words' p = words p) : pick words' position bound = pick words position bound := by
  have hfirst : words' position = words position := h position le_rfl lt_pick_position
  unfold pick at h ⊢
  dsimp only at h ⊢
  rw [hfirst]
  split at h
  · rename_i hmore
    rw [if_pos hmore, if_pos hmore, h (position + 1) (by omega) (by dsimp only; omega)]
  · rename_i hmore
    rw [if_neg hmore, if_neg hmore]

/-! ## Chunks -/

/-- A chunk that has draws left is below the product of their radices, from `radix` on. -/
def Chunk.Holds (c : Chunk) (radix : ℕ) : Prop :=
  0 < c.left → c.value < radix.ascFactorial c.left

/-- **A new chunk** for `radix`: its bound is the product of as many radices, from this one on, as
stay below `2 ^ 32`, and it is below its bound. -/
structure Chunk.Fresh (c : Chunk) (radix : ℕ) : Prop where
  left_pos : 0 < c.left
  grow_eq : grow radix (radix + 1) = (radix.ascFactorial c.left, radix + c.left)
  bound_lt : radix.ascFactorial c.left < wordCount
  le_next : wordCount ≤ radix.ascFactorial (c.left + 1)
  value_lt : c.value < radix.ascFactorial c.left

theorem Chunk.Fresh.holds (h : c.Fresh radix) : c.Holds radix := fun _ => h.value_lt

theorem Chunk.fresh_eq (words : Words) (position radix : ℕ) : Chunk.fresh words position radix =
    ⟨(pick words position (grow radix (radix + 1)).1).1, (grow radix (radix + 1)).2 - radix,
      (pick words position (grow radix (radix + 1)).1).2⟩ := rfl

/-- A chunk that is drawn is a new one, whatever the words are. -/
theorem Chunk.fresh_fresh (hpos : 0 < radix) (hlt : radix < wordCount) :
    (Chunk.fresh words position radix).Fresh radix := by
  obtain ⟨k, hk⟩ := NearestNeighbors.Random.grow_eq radix (radix + 1)
  have hgrow : grow radix (radix + 1) = (radix.ascFactorial (k + 1), radix + (k + 1)) := by
    rw [hk, mul_ascFactorial, Nat.add_assoc, Nat.add_comm 1]
  have hbound : radix.ascFactorial (k + 1) < wordCount := by
    have hgrown : (grow radix (radix + 1)).1 < wordCount := grow_lt hlt
    rwa [hgrow] at hgrown
  have hnext : wordCount ≤ radix.ascFactorial (k + 1 + 1) := by
    have hgrown := le_grow hpos (Nat.lt_add_of_pos_left hpos : 1 < radix + 1)
    rwa [hgrow, Nat.mul_comm, ← Nat.ascFactorial_succ] at hgrown
  have hleft : (Chunk.fresh words position radix).left = k + 1 := by
    rw [fresh_eq, hgrow]
    exact Nat.add_sub_cancel_left ..
  have hvalue : (Chunk.fresh words position radix).value < radix.ascFactorial (k + 1) := by
    obtain ⟨r, rfl⟩ := Nat.exists_eq_add_one.2 hpos
    rw [fresh_eq, hgrow]
    exact pick_lt (Nat.ascFactorial_pos r (k + 1)) hbound
  refine ⟨?_, ?_, ?_, ?_, ?_⟩ <;> rw [hleft]
  · exact Nat.succ_pos k
  · exact hgrow
  · exact hbound
  · exact hnext
  · exact hvalue

/-! ## Draws from a chunk -/

/-- **A draw is below its radix**, also the last one, which is all that is left of the chunk. -/
theorem Chunk.Holds.take_lt (h : c.Holds radix) (hleft : 0 < c.left) :
    (c.take radix).1 < radix := by
  have hvalue : c.value < radix.ascFactorial c.left := h hleft
  unfold Chunk.take
  split
  · rename_i hlast
    rw [hlast, Nat.ascFactorial_succ, Nat.ascFactorial_zero] at hvalue
    dsimp only
    omega
  · apply Nat.mod_lt
    by_contra hzero
    obtain rfl : radix = 0 := by omega
    obtain ⟨k, hk⟩ := Nat.exists_eq_add_one.2 hleft
    rw [hk, Nat.zero_ascFactorial] at hvalue
    omega

/-- A draw leaves the draws for the radices after it. -/
theorem Chunk.Holds.take (h : c.Holds radix) (hleft : 0 < c.left) :
    (c.take radix).2.Holds (radix + 1) := by
  have hvalue : c.value < radix.ascFactorial c.left := h hleft
  unfold Chunk.take
  split
  · intro hnone
    exact absurd hnone (lt_irrefl 0)
  · intro hmore
    obtain ⟨k, hk⟩ := Nat.exists_eq_add_one.2 hleft
    rw [hk, ← mul_ascFactorial] at hvalue
    have hdiv : c.value / radix < (radix + 1).ascFactorial k := Nat.div_lt_of_lt_mul hvalue
    dsimp only at hmore ⊢
    rwa [hk, Nat.add_sub_cancel]

/-- The step: a draw is below its radix, whether it needs a new chunk or not, and leaves a chunk
for the next radix. -/
theorem Chunk.Holds.draw (h : c.Holds radix) (hpos : 0 < radix) (hlt : radix < wordCount) :
    (c.draw words radix).1 < radix ∧ (c.draw words radix).2.Holds (radix + 1) := by
  unfold Chunk.draw
  split
  · have hfresh : (Chunk.fresh words c.position radix).Fresh radix := fresh_fresh hpos hlt
    exact ⟨hfresh.holds.take_lt hfresh.left_pos, hfresh.holds.take hfresh.left_pos⟩
  · rename_i hleft
    exact ⟨h.take_lt (Nat.pos_of_ne_zero hleft), h.take (Nat.pos_of_ne_zero hleft)⟩

/-! ## Runs -/

/-- The draw for the next position, and the chunk after it. -/
theorem chunk_drawing_succ (words : Words) (n : ℕ) :
    (drawing words (n + 1)).2 = ((drawing words n).2.draw words (n + 1)).2 := by
  rw [drawing_succ]

/-- **The run**: after any number of draws the chunk holds those that follow. -/
theorem drawing_holds (words : Words) (hn : n < wordCount) :
    (drawing words n).2.Holds (n + 1) := by
  induction n with
  | zero =>
    intro hleft
    show 0 < Nat.ascFactorial 1 1
    exact Nat.ascFactorial_pos 0 1
  | succ n ih =>
    rw [chunk_drawing_succ]
    exact ((ih (by omega)).draw n.succ_pos hn).2

/-- The draw for position `n` is at most `n`. -/
theorem draw_le (words : Words) (hn : n + 1 < wordCount) :
    ((drawing words n).2.draw words (n + 1)).1 ≤ n := by
  have hholds : (drawing words n).2.Holds (n + 1) := drawing_holds words (by omega)
  exact Nat.le_of_lt_succ (hholds.draw n.succ_pos hn).1

/-- More draws begin with the same ones. -/
theorem draws_take (words : Words) {m : ℕ} (h : m ≤ n) :
    (draws words n).take m = draws words m := by
  induction n with
  | zero =>
    obtain rfl : m = 0 := by omega
    rfl
  | succ n ih =>
    rcases Nat.lt_or_eq_of_le h with hlt | rfl
    · rw [draws_succ, List.take_append_of_le_length (by rw [length_draws]; omega)]
      exact ih (by omega)
    · rw [List.take_of_length_le (Nat.le_of_eq (length_draws words _))]

/-- **Every draw is in range**: the one for position `i` is at most `i`. -/
theorem draws_le (words : Words) (hn : n < wordCount) {i j : ℕ}
    (h : (draws words n)[i]? = some j) : j ≤ i := by
  have hi : i < n := by
    obtain ⟨hi, -⟩ := List.getElem?_eq_some_iff.1 h
    rwa [length_draws] at hi
  -- the draw is the last of those up to its position
  rw [← List.getElem?_take_of_lt (Nat.lt_succ_self i), draws_take words (by omega : i + 1 ≤ n),
    draws_succ, List.getElem?_append_right (Nat.le_of_eq (length_draws words i)), length_draws,
    Nat.sub_self, List.getElem?_cons_zero, Option.some.injEq] at h
  rw [← h]
  exact draw_le words (by omega)

/-! ## The words of a run -/

theorem Chunk.position_take (c : Chunk) (radix : ℕ) : (c.take radix).2.position = c.position := by
  unfold Chunk.take
  split <;> rfl

/-- A draw goes on in the stream or stays where it is. -/
theorem Chunk.position_le_draw (words : Words) (c : Chunk) (radix : ℕ) :
    c.position ≤ (c.draw words radix).2.position := by
  unfold Chunk.draw
  rw [position_take]
  split
  · rw [fresh_eq]
    exact Nat.le_of_lt lt_pick_position
  · exact Nat.le_refl _

/-- A draw depends on the words it uses. -/
theorem Chunk.draw_congr
    (h : ∀ p, c.position ≤ p → p < (c.draw words radix).2.position → words' p = words p) :
    c.draw words' radix = c.draw words radix := by
  unfold Chunk.draw at h ⊢
  rw [position_take] at h
  split at h
  · rename_i hleft
    rw [fresh_eq] at h
    rw [if_pos hleft, if_pos hleft, fresh_eq, fresh_eq, pick_congr h]
  · rename_i hleft
    rw [if_neg hleft, if_neg hleft]

/-- **A run reads the words before the position it ends at**: where another stream has the same
ones, its run is the same. -/
theorem drawing_congr (h : ∀ p < (drawing words n).2.position, words' p = words p) :
    drawing words' n = drawing words n := by
  induction n with
  | zero => rfl
  | succ n ih =>
    rw [chunk_drawing_succ] at h
    have hle := (drawing words n).2.position_le_draw words (n + 1)
    have hrun : drawing words' n = drawing words n := ih fun p hp => h p (by omega)
    have hdraw := Chunk.draw_congr fun p _ => h p
    rw [drawing_succ, drawing_succ, hrun]
    dsimp only
    rw [hdraw]

end NearestNeighbors.Random
