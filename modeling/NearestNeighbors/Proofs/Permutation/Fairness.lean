import NearestNeighbors.Proofs.Permutation.Bijection

/-!
# A shuffle misses and favours no order

The draws that a chunk holds are its digits to the radices that it covers, the lowest first, and
the last of them is what is left. So each number below the product of the radices holds another row
of draws, and there is a number for each row in range. Together with the shuffle itself, which
gives each permutation for one row of draws, no order is missed on the way from chunks to
permutations, and none comes up for more draws than another.

* `Chunk.taken`, `packed`: the draws that a chunk holds, and the number that holds given draws.
* `packed_taken`, `taken_packed`: either undoes the other.
* `draws_add`: the draws of a run are those that its chunks hold.
* `shuffle_bijective` (every size): one row of draws for each permutation, one number for each row.
-/

namespace NearestNeighbors

open NearestNeighbors.Random

variable {c : Chunk} {drawn : List ℕ} {radix position start n m j k r : ℕ}

/-! ## The draws of a chunk -/

/-- The next `k` draws from a chunk, for `radix` and the radices after it. -/
def Random.Chunk.taken (c : Chunk) (radix : ℕ) : ℕ → List ℕ
  | 0 => []
  | k + 1 => (c.take radix).1 :: (c.take radix).2.taken (radix + 1) k

/-- The number that has the given digits, the lowest first, to `radix` and the radices after
it. -/
def packed (radix : ℕ) : List ℕ → ℕ
  | [] => 0
  | j :: drawn => j + radix * packed (radix + 1) drawn

/-- The last draw is all that is left. -/
theorem take_last (value radix start : ℕ) :
    Chunk.take ⟨value, 1, start⟩ radix = (value, ⟨value, 0, start⟩) := rfl

/-- Every other draw is the lowest digit. -/
theorem take_digit (value radix start k : ℕ) : Chunk.take ⟨value, k + 2, start⟩ radix =
    (value % radix, ⟨value / radix, k + 1, start⟩) := rfl

/-- A row of draws is its first draw and a row for the positions after it. -/
theorem cons_mem_drawRows : j :: drawn ∈ drawRows position (n + 1) ↔
    j ≤ position ∧ drawn ∈ drawRows (position + 1) n := by
  unfold drawRows
  simp only [Set.mem_ofPred_eq, List.length_cons, Nat.add_right_cancel_iff, drawnUpTo_cons]
  exact and_left_comm

theorem left_take (h : c.left = k + 1) : (c.take radix).2.left = k := by
  unfold Chunk.take
  split
  · dsimp only
    omega
  · simp [h]

/-- **The draws of a chunk are in range.** -/
theorem taken_mem (hc : c.Holds (position + 1)) (hr : c.left = r) :
    c.taken (position + 1) r ∈ drawRows position r := by
  induction r generalizing c position with
  | zero => exact ⟨rfl, drawnUpTo_nil⟩
  | succ r ih =>
    have hleft : 0 < c.left := by omega
    have hfirst : (c.take (position + 1)).1 < position + 1 := hc.take_lt hleft
    exact cons_mem_drawRows.2 ⟨Nat.le_of_lt_succ hfirst, ih (hc.take hleft) (left_take hr)⟩

/-- **The digits of a row of draws give a number below the product of the radices.** -/
theorem packed_lt (h : drawn ∈ drawRows position r) :
    packed (position + 1) drawn < (position + 1).ascFactorial r := by
  induction drawn generalizing position r with
  | nil =>
    obtain ⟨rfl, -⟩ := h
    exact Nat.ascFactorial_pos position 0
  | cons j drawn ih =>
    obtain ⟨r, rfl⟩ : ∃ r', r = r' + 1 := ⟨_, h.1.symm⟩
    obtain ⟨hj, hdrawn⟩ := cons_mem_drawRows.1 h
    have hrest : packed (position + 1 + 1) drawn + 1 ≤ (position + 1 + 1).ascFactorial r := ih hdrawn
    calc packed (position + 1) (j :: drawn)
        = j + (position + 1) * packed (position + 1 + 1) drawn := rfl
      _ < (position + 1) * (packed (position + 1 + 1) drawn + 1) := by rw [Nat.mul_add_one]; omega
      _ ≤ (position + 1) * (position + 1 + 1).ascFactorial r := Nat.mul_le_mul_left _ hrest
      _ = (position + 1).ascFactorial (r + 1) := mul_ascFactorial _ _

/-- A chunk of the digits holds the row of draws. -/
theorem taken_packed (h : drawn ∈ drawRows position r) :
    Chunk.taken ⟨packed (position + 1) drawn, r, start⟩ (position + 1) r = drawn := by
  induction drawn generalizing position r with
  | nil =>
    obtain ⟨rfl, -⟩ := h
    rfl
  | cons j drawn ih =>
    obtain ⟨r, rfl⟩ : ∃ r', r = r' + 1 := ⟨_, h.1.symm⟩
    obtain ⟨hj, hdrawn⟩ := cons_mem_drawRows.1 h
    cases drawn with
    | nil =>
      obtain rfl : r = 0 := hdrawn.1.symm
      rfl
    | cons j' drawn =>
      obtain ⟨r, rfl⟩ : ∃ r', r = r' + 1 := ⟨_, hdrawn.1.symm⟩
      have hmod : packed (position + 1) (j :: j' :: drawn) % (position + 1) = j := by
        rw [packed, Nat.add_mul_mod_self_left, Nat.mod_eq_of_lt (by omega)]
      have hdiv : packed (position + 1) (j :: j' :: drawn) / (position + 1) =
          packed (position + 1 + 1) (j' :: drawn) := by
        rw [packed, Nat.add_mul_div_left _ _ (by omega), Nat.div_eq_of_lt (by omega), Nat.zero_add]
      rw [Chunk.taken, take_digit, hmod, hdiv]
      exact congrArg (j :: ·) (ih hdrawn)

/-- The digits of the draws that a chunk holds are its number. -/
theorem packed_taken {value : ℕ} (h : value < (position + 1).ascFactorial r) :
    packed (position + 1) (Chunk.taken ⟨value, r, start⟩ (position + 1) r) = value := by
  induction r generalizing position value with
  | zero =>
    rw [Nat.ascFactorial_zero, Nat.lt_one_iff] at h
    rw [h]
    rfl
  | succ r ih =>
    cases r with
    | zero => rw [Chunk.taken, take_last, Chunk.taken, packed, packed, Nat.mul_zero, Nat.add_zero]
    | succ r =>
      have hdiv : value / (position + 1) < (position + 1 + 1).ascFactorial (r + 1) := by
        rw [← mul_ascFactorial] at h
        exact Nat.div_lt_of_lt_mul h
      rw [Chunk.taken, take_digit, packed, ih hdiv, Nat.mod_add_div]

/-- **A number below the product of the radices for a row of draws in range, and the other way
round.** -/
theorem bijOn_taken (position r start : ℕ) :
    Set.BijOn (fun value => Chunk.taken ⟨value, r, start⟩ (position + 1) r)
      {value | value < (position + 1).ascFactorial r} (drawRows position r) := by
  have hinv : Set.InvOn (packed (position + 1))
      (fun value => Chunk.taken ⟨value, r, start⟩ (position + 1) r)
      {value | value < (position + 1).ascFactorial r} (drawRows position r) :=
    ⟨fun value hvalue => packed_taken hvalue, fun drawn hdrawn => taken_packed hdrawn⟩
  refine hinv.bijOn ?_ fun drawn hdrawn => packed_lt hdrawn
  intro value hvalue
  have hholds : Chunk.Holds ⟨value, r, start⟩ (position + 1) := fun _ => hvalue
  exact taken_mem hholds rfl

/-! ## The draws of a run -/

/-- The chunk that is drawn for position `n` where the one before is used up. -/
def nextChunk (words : Words) (n : ℕ) : Chunk :=
  Chunk.fresh words (drawing words n).2.position (n + 1)

/-- From the chunk that the next draw is taken from come all the draws that it holds. -/
theorem draws_add {words : Words}
    (hc : 0 < k → (drawing words n).2.draw words (n + 1) = c.take (n + 1)) (hk : k ≤ c.left) :
    draws words (n + k) = draws words n ++ c.taken (n + 1) k := by
  induction k generalizing n c with
  | zero => simp [Chunk.taken]
  | succ k ih =>
    have hfirst := hc k.succ_pos
    obtain ⟨left, hleft⟩ := Nat.exists_eq_add_one.2 (Nat.lt_of_lt_of_le k.succ_pos hk)
    have hnext : (drawing words (n + 1)).2 = (c.take (n + 1)).2 := by
      rw [chunk_drawing_succ, hfirst]
    have hrest : (c.take (n + 1)).2.left = left := left_take hleft
    have hmore : 0 < k → (drawing words (n + 1)).2.draw words (n + 1 + 1) =
        (c.take (n + 1)).2.take (n + 1 + 1) := by
      intro hpos
      unfold Chunk.draw
      rw [hnext, if_neg (by omega)]
    have hadd : n + (k + 1) = n + 1 + k := by omega
    rw [hadd, ih hmore (by omega), draws_succ, hfirst, Chunk.taken, List.append_assoc,
      List.singleton_append]

/-- **A chunk gives the draws of its digits** to a run, when the one before is used up. -/
theorem draws_nextChunk {words : Words} (hused : (drawing words n).2.left = 0) :
    draws words (n + (nextChunk words n).left) =
      draws words n ++ (nextChunk words n).taken (n + 1) (nextChunk words n).left := by
  refine draws_add (fun _ => ?_) le_rfl
  unfold Chunk.draw nextChunk
  rw [if_pos hused]

/-! ## The shuffle -/

/-- **The shuffle can neither miss nor favour an order.** As a function of its draws it gives each
permutation for one row of draws in range, and the permutation of a seed is what it gives for the
draws of the seed. A chunk for `r` radices gives each row of draws in range for one number below
the product of the radices; and whenever a chunk is used up, the draws that come next are those of
a chunk below the product of its radices. -/
theorem shuffle_bijective (n : ℕ) (hn : n < wordCount - 1) :
    Set.BijOn (exchanges (List.range n) 0) (drawRows 0 n)
      {result | ∃ l, l.Perm (List.range n) ∧ result = .ok l} ∧
    (∀ seed, draws (Seed.words seed) n ∈ drawRows 0 n ∧
      exchanges (List.range n) 0 (draws (Seed.words seed) n) = .ok (permutation n seed)) ∧
    (∀ position r start,
      Set.BijOn (fun value => Chunk.taken ⟨value, r, start⟩ (position + 1) r)
        {value | value < (position + 1).ascFactorial r} (drawRows position r)) ∧
    ∀ words, ∀ m < n, (drawing words m).2.left = 0 →
      (nextChunk words m).Fresh (m + 1) ∧
        draws words (m + (nextChunk words m).left) =
          draws words m ++ (nextChunk words m).taken (m + 1) (nextChunk words m).left := by
  have hlt : n < wordCount := by omega
  refine ⟨bijOn_exchanges n, fun seed => ⟨⟨length_draws _ n, ?_⟩, ?_⟩, bijOn_taken, ?_⟩
  · exact drawnUpTo_drop (Seed.words seed) hlt 0
  · have h : exchanges (arrangedIn (Seed.words seed) n 0) 0 ((draws (Seed.words seed) n).drop 0) =
        .ok (permutation n seed) := exchanges_drop hlt n.zero_le
    rw [arrangedIn_zero] at h
    exact h
  · intro words m hm hused
    exact ⟨Chunk.fresh_fresh m.succ_pos (by omega), draws_nextChunk hused⟩

/-- Three numbers come out in reverse order for some draws, and three draws from some number below
`2 * 3 * 4`. The first chunk is used up by the first draw. -/
theorem shuffle_bijective_three : 3 < wordCount - 1 ∧
    (∃ drawn ∈ drawRows 0 3, exchanges (List.range 3) 0 drawn = .ok [2, 1, 0]) ∧
    [1, 0, 3] ∈ drawRows 1 3 ∧ (∃ value < 24, Chunk.taken ⟨value, 3, 0⟩ 2 3 = [1, 0, 3]) ∧
    (drawing carrying 1).2.left = 0 ∧ (nextChunk carrying 1).Fresh 2 := by
  have h3 : 3 < wordCount - 1 := by decide
  have hmem : [1, 0, 3] ∈ drawRows 1 3 := by
    simp [drawRows, drawnUpTo_cons, drawnUpTo_nil]
  have hused : (drawing carrying 1).2.left = 0 := rfl
  obtain ⟨hlists, -, hchunks, hrun⟩ := shuffle_bijective 3 h3
  refine ⟨h3, hlists.surjOn ⟨[2, 1, 0], by decide, rfl⟩, hmem, ?_, hused, ?_⟩
  · exact (hchunks 1 3 0).surjOn hmem
  · exact (hrun carrying 1 (by decide) hused).1

end NearestNeighbors
