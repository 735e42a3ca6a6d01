import NearestNeighbors.Error
import NearestNeighbors.Except
import NearestNeighbors.Proofs.Permutation
import NearestNeighbors.Proofs.Random.Chunk

/-!
# Shuffling in place

The arrangement that grows number by number is what a shuffle of the full list gives: step `i`
draws a position up to `i` and exchanges it with position `i`, and the numbers behind wait for
their turn. An exchange outside the list would end the shuffle; there is none, whatever the words
of the stream are.

* `exchange`, `Shuffle.step`, `Shuffle.after`: the shuffle in place.
* `exchange_arrange`: an exchange within the first numbers is one more draw.
* `Shuffle.step_arrangedIn`, `Shuffle.after_eq`: the step, and the run from it by induction.
* `Shuffles`: what a shuffle of the numbers below `n` does.
* `shuffle_inRange` (every stream): draws are in range and the result is a permutation.
-/

namespace NearestNeighbors

open NearestNeighbors.Random

/-- The list with the elements at two positions exchanged, both of which it has to have. -/
def exchange {α : Type} (l : List α) (i j : ℕ) : Except Failure (List α) :=
  match l[i]?, l[j]? with
  | some a, some b => .ok ((l.set i b).set j a)
  | _, _ => .error .outOfRange

/-- A shuffle in place under way: the list, and the chunk that the next draws come from. -/
structure Shuffle where
  list : List ℕ
  chunk : Chunk

namespace Shuffle

/-- Step `i`: position `i` changes places with the position that its draw names. -/
def step (words : Words) (s : Shuffle) (i : ℕ) : Except Failure Shuffle := do
  let (j, chunk) := s.chunk.draw words (i + 1)
  let list ← exchange s.list i j
  return ⟨list, chunk⟩

/-- The shuffle of the numbers below `n` after its first steps. -/
def after (words : Words) (n : ℕ) : ℕ → Except Failure Shuffle
  | 0 => .ok ⟨List.range n, .first⟩
  | m + 1 => do
    let s ← after words n m
    s.step words m

end Shuffle

variable {α : Type} {l l' : List α} {i j : ℕ}

/-! ## Exchanges -/

theorem exchange_eq_ok : exchange l i j = .ok l' ↔
    ∃ a b, l[i]? = some a ∧ l[j]? = some b ∧ l' = (l.set i b).set j a := by
  unfold exchange
  split
  · rename_i a b ha hb
    constructor
    · intro h
      cases h
      exact ⟨a, b, ha, hb, rfl⟩
    · rintro ⟨a', b', ha', hb', rfl⟩
      cases ha.symm.trans ha'
      cases hb.symm.trans hb'
      rfl
  · rename_i hnone
    constructor
    · intro h
      cases h
    · rintro ⟨a, b, ha, hb, -⟩
      exact absurd hb (hnone a b ha)

/-- What stands behind does not come into an exchange. -/
theorem exchange_append (h : exchange l i j = .ok l') (rest : List α) :
    exchange (l ++ rest) i j = .ok (l' ++ rest) := by
  obtain ⟨a, b, ha, hb, rfl⟩ := exchange_eq_ok.1 h
  obtain ⟨hi, -⟩ := List.getElem?_eq_some_iff.1 ha
  obtain ⟨hj, -⟩ := List.getElem?_eq_some_iff.1 hb
  refine exchange_eq_ok.2 ⟨a, b, ?_, ?_, ?_⟩
  · rwa [List.getElem?_append_left hi]
  · rwa [List.getElem?_append_left hj]
  · rw [List.set_append_left _ _ hi, List.set_append_left _ _ (by rwa [List.length_set])]

/-- An exchange in an array that has both positions. -/
theorem exchange_toList {a : Array α} (hi : i < a.size) (hj : j < a.size) :
    exchange a.toList i j = .ok (a.swapIfInBounds i j).toList := by
  refine exchange_eq_ok.2 ⟨getElem a i hi, getElem a j hj, ?_, ?_, ?_⟩
  · rw [Array.getElem?_toList, Array.getElem?_eq_getElem hi]
  · rw [Array.getElem?_toList, Array.getElem?_eq_getElem hj]
  · rw [Array.swapIfInBounds_def, dif_pos hi, dif_pos hj, Array.toList_swap]

/-! ## Arrangements in place -/

theorem length_arrange (draws : List ℕ) : (arrange draws).length = draws.length := by
  rw [(arrange_perm draws).length_eq, List.length_range]

/-- **One more draw is an exchange**: the next number in the list changes places with the one at
the position drawn. -/
theorem exchange_arrange {drawn : List ℕ} (h : j ≤ drawn.length) (rest : List ℕ) :
    exchange (arrange drawn ++ drawn.length :: rest) drawn.length j =
      .ok (arrange (drawn ++ [j]) ++ rest) := by
  have hsize : (drawn.foldl insertAt #[]).size = drawn.length := length_arrange drawn
  have hpush : exchange ((drawn.foldl insertAt #[]).push drawn.length).toList drawn.length j =
      .ok (arrange (drawn ++ [j])) := by
    rw [exchange_toList, arrange_concat, insertAt, hsize]
    all_goals
      rw [Array.size_push]
      omega
  rw [Array.toList_push] at hpush
  rw [List.append_cons]
  exact exchange_append hpush rest

/-! ## Runs -/

variable {words : Words} {n m : ℕ}

/-- **The numbers below `n` after `m` draws**: those in front are arranged, and the others stand
where they did. -/
def arrangedIn (words : Words) (n m : ℕ) : List ℕ :=
  arrange (draws words m) ++ List.range' m (n - m)

theorem arrangedIn_zero : arrangedIn words n 0 = List.range n := by
  rw [List.range_eq_range']
  rfl

theorem arrangedIn_self : arrangedIn words n n = arrange (draws words n) := by
  rw [arrangedIn, Nat.sub_self, List.range'_zero, List.append_nil]

/-- The draw for position `m` takes the list one step on. -/
theorem exchange_arrangedIn (hn : n < wordCount) (hm : m < n) :
    exchange (arrangedIn words n m) m ((drawing words m).2.draw words (m + 1)).1 =
      .ok (arrangedIn words n (m + 1)) := by
  have hdraw : ((drawing words m).2.draw words (m + 1)).1 ≤ (draws words m).length := by
    rw [length_draws]
    exact draw_le words (by omega)
  have hnext : List.range' m (n - m) = m :: List.range' (m + 1) (n - (m + 1)) := by
    rw [show n - m = n - (m + 1) + 1 by omega, List.range'_succ]
  have hexchange := exchange_arrange hdraw (List.range' (m + 1) (n - (m + 1)))
  rw [length_draws, ← draws_succ, ← hnext] at hexchange
  exact hexchange

/-- **The step**: no exchange leaves the list. -/
theorem Shuffle.step_arrangedIn (hn : n < wordCount) (hm : m < n) :
    step words ⟨arrangedIn words n m, (drawing words m).2⟩ m =
      .ok ⟨arrangedIn words n (m + 1), (drawing words (m + 1)).2⟩ := by
  unfold Shuffle.step
  rw [chunk_drawing_succ]
  exact bind_eq_ok.2 ⟨_, exchange_arrangedIn hn hm, rfl⟩

/-- **The run**: the first steps of a shuffle depend on the stream and on nothing that comes
later. -/
theorem Shuffle.after_eq (hn : n < wordCount) (hm : m ≤ n) :
    after words n m = .ok ⟨arrangedIn words n m, (drawing words m).2⟩ := by
  induction m with
  | zero =>
    rw [after, arrangedIn_zero]
    rfl
  | succ m ih =>
    rw [after, ih (by omega)]
    exact step_arrangedIn hn hm

/-! ## The shuffle of a stream -/

/-- **The shuffle of the numbers below `n`** over a stream: each step exchanges its position with
one that is not behind it, and after all of them there is the result, which has each number
once. -/
structure Shuffles (words : Words) (n : ℕ) (result : List ℕ) : Prop where
  step : ∀ i < n, ∃ s s', Shuffle.after words n i = .ok s ∧ s.step words i = .ok s' ∧
    Shuffle.after words n (i + 1) = .ok s' ∧
      ∃ j ≤ i, j = (s.chunk.draw words (i + 1)).1 ∧ exchange s.list i j = .ok s'.list
  ends : ∃ s, Shuffle.after words n n = .ok s ∧ s.list = result
  perm : result.Perm (List.range n)

theorem shuffles_arrange (hn : n < wordCount) : Shuffles words n (arrange (draws words n)) where
  step := by
    intro i hi
    refine ⟨_, _, Shuffle.after_eq hn (Nat.le_of_lt hi), Shuffle.step_arrangedIn hn hi,
      Shuffle.after_eq hn hi, _, draw_le words (by omega), rfl, exchange_arrangedIn hn hi⟩
  ends := ⟨_, Shuffle.after_eq hn le_rfl, arrangedIn_self⟩
  perm := by
    have hperm := arrange_perm (draws words n)
    rwa [length_draws] at hperm

/-- **A shuffle stays in range.** A chunk that is drawn for any radix up to `n` has the product of
this radix and those after it as its bound, which is below `2 ^ 32`, and is below its bound. From a
chunk below the product of its radices each draw is below its own radix, and leaves such a chunk;
so does the last one, which is the chunk itself. So the shuffle of the numbers below `n` goes
through over every stream and gives a permutation, and over the stream of a seed it gives that of
the seed. -/
theorem shuffle_inRange (n : ℕ) (hn : n < wordCount - 1) :
    (∀ words position radix, 0 < radix → radix ≤ n →
      (Chunk.fresh words position radix).Fresh radix) ∧
    (∀ (c : Chunk) radix, c.Holds radix → 0 < c.left →
      (c.take radix).1 < radix ∧ (c.take radix).2.Holds (radix + 1) ∧
        (c.left = 1 → (c.take radix).1 = c.value)) ∧
    (∀ words, Shuffles words n (arrange (draws words n))) ∧
    ∀ seed, Shuffles (Seed.words seed) n (permutation n seed) := by
  have hlt : n < wordCount := by omega
  refine ⟨?_, ?_, fun words => shuffles_arrange hlt, fun seed => shuffles_arrange hlt⟩
  · intro words position radix hpos hle
    exact Chunk.fresh_fresh hpos (by omega)
  · intro c radix hholds hleft
    refine ⟨hholds.take_lt hleft, hholds.take hleft, fun hlast => ?_⟩
    unfold Chunk.take
    rw [if_pos hlast]

/-- A stream whose words are carried into where they may be, at the edge where this gives the
largest number below the bound of the second chunk. -/
def carrying : Words := fun i => if i % 2 = 0 then 4294967287 else 4294967295

/-- Thirteen numbers, which take a draw from a third chunk. -/
theorem shuffle_inRange_carrying : 13 < wordCount - 1 ∧
    (Chunk.fresh carrying 0 2).Fresh 2 ∧ Shuffles carrying 13 (arrange (draws carrying 13)) ∧
      Shuffles (Seed.words 42) 13 (permutation 13 42) := by
  have h13 : 13 < wordCount - 1 := by decide
  obtain ⟨hfresh, -, hwords, hseed⟩ := shuffle_inRange 13 h13
  exact ⟨h13, hfresh carrying 0 2 (by decide) (by decide), hwords carrying, hseed 42⟩

end NearestNeighbors
