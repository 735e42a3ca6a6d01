import NearestNeighbors.Proofs.Permutation.InPlace

/-!
# More numbers

The permutation of one number more is the old one with the number at its end, but for one exchange
of this last position with another. Between the permutations of fewer and of more numbers there is
one such exchange for each number that comes in. The draws come from the front of the stream, and
how many numbers there are to be makes no difference to those of the first ones, not even within
a chunk.

* `exchanges`: exchanges at one position after the other.
* `exchanges_drop`: the draws that are left take the list to the end.
* `permutation_grows` (every seed and size): one number more, any more numbers, and the words of
  the first ones.
-/

namespace NearestNeighbors

open NearestNeighbors.Random

/-- Exchanges `position` with the first of the positions drawn, the position after it with the
second, and so on. -/
def exchanges {α : Type} (l : List α) (position : ℕ) : List ℕ → Except Failure (List α)
  | [] => .ok l
  | j :: drawn => do
    let l ← exchange l position j
    exchanges l (position + 1) drawn

/-- No position that is drawn, for `position` and those after it, is behind its own. -/
def DrawnUpTo (position : ℕ) (drawn : List ℕ) : Prop :=
  ∀ r j, drawn[r]? = some j → j ≤ position + r

variable {words : Words} {drawn more : List ℕ} {n m j position : ℕ}

/-! ## Draws in range -/

theorem drawnUpTo_nil : DrawnUpTo position [] := fun _ _ h => nomatch h

theorem drawnUpTo_cons :
    DrawnUpTo position (j :: drawn) ↔ j ≤ position ∧ DrawnUpTo (position + 1) drawn := by
  constructor
  · intro h
    refine ⟨h 0 j rfl, fun r j' hj' => ?_⟩
    have hle : j' ≤ position + (r + 1) := h (r + 1) j' hj'
    omega
  · rintro ⟨hj, h⟩ (_ | r) j' hj'
    · cases hj'
      exact hj
    · have hle : j' ≤ position + 1 + r := h r j' hj'
      omega

theorem drawnUpTo_concat : DrawnUpTo position (drawn ++ [j]) ↔
    DrawnUpTo position drawn ∧ j ≤ position + drawn.length := by
  induction drawn generalizing position with
  | nil => simp [drawnUpTo_cons, drawnUpTo_nil]
  | cons i drawn ih =>
    rw [List.cons_append, drawnUpTo_cons, drawnUpTo_cons, ih, and_assoc, List.length_cons,
      Nat.add_right_comm, Nat.add_assoc]

theorem drawnUpTo_drop (words : Words) (hn : n < wordCount) (m : ℕ) :
    DrawnUpTo m ((draws words n).drop m) := by
  intro r j h
  rw [List.getElem?_drop] at h
  exact draws_le words hn h

/-! ## Exchanges -/

/-- **Draws are exchanges**: from the arrangement of some draws, each further draw in range takes
the next number in. -/
theorem exchanges_arrange (h : DrawnUpTo drawn.length more) :
    exchanges (arrange drawn ++ List.range' drawn.length more.length) drawn.length more =
      .ok (arrange (drawn ++ more)) := by
  induction more generalizing drawn with
  | nil =>
    rw [List.length_nil, List.range'_zero, List.append_nil, List.append_nil]
    rfl
  | cons j more ih =>
    obtain ⟨hj, hmore⟩ := drawnUpTo_cons.1 h
    have hlen : (drawn ++ [j]).length = drawn.length + 1 := List.length_append
    rw [← hlen] at hmore
    have hrest := ih hmore
    rw [hlen, ← List.append_cons] at hrest
    rw [List.length_cons, List.range'_succ]
    exact bind_eq_ok.2 ⟨_, exchange_arrange hj _, hrest⟩

/-- **The draws that are left** take the numbers to the end of the shuffle, from any step. -/
theorem exchanges_drop (hn : n < wordCount) (hm : m ≤ n) :
    exchanges (arrangedIn words n m) m ((draws words n).drop m) =
      .ok (arrange (draws words n)) := by
  have hlen : (draws words m).length = m := length_draws words m
  have hleft : ((draws words n).drop m).length = n - m := by rw [List.length_drop, length_draws]
  have hrange : DrawnUpTo (draws words m).length ((draws words n).drop m) := by
    rw [hlen]
    exact drawnUpTo_drop words hn m
  have hsplit : draws words m ++ (draws words n).drop m = draws words n := by
    rw [← draws_take words hm, List.take_append_drop]
  have h := exchanges_arrange hrange
  rw [hleft, hlen, hsplit] at h
  exact h

/-- Streams with the same words before the end of a run have the same first steps. -/
theorem Shuffle.after_congr {words' : Words} (hn : n < wordCount) (hm : m ≤ n)
    (h : ∀ p < (drawing words m).2.position, words' p = words p) :
    after words' n m = .ok ⟨arrangedIn words n m, (drawing words m).2⟩ := by
  have hrun : drawing words' m = drawing words m := drawing_congr h
  rw [after_eq hn hm, arrangedIn, draws, hrun]
  rfl

/-- **The permutation grows by exchanges.** One number more comes in at the end and changes places
with one that is there, or with none. From the permutation of any fewer numbers, those that are
missing come in by as many exchanges, each of the next position with one that is not behind it.
And after its first steps the shuffle of any more numbers has them arranged and the others where
they stood, has drawn the same words, and is decided by them. -/
theorem permutation_grows (seed : UInt64) (n : ℕ) (hn : n + 1 < wordCount - 1) :
    (∃ j ≤ n, exchange (permutation n seed ++ [n]) n j = .ok (permutation (n + 1) seed)) ∧
    (∀ m ≤ n, ∃ drawn, drawn.length = n - m ∧ DrawnUpTo m drawn ∧
      exchanges (permutation m seed ++ List.range' m (n - m)) m drawn =
        .ok (permutation n seed)) ∧
    ∀ m ≤ n, ∃ chunk : Chunk, ∀ n', m ≤ n' → n' < wordCount - 1 → ∀ words : Words,
      (∀ p < chunk.position, words p = Seed.words seed p) →
        Shuffle.after words n' m = .ok ⟨permutation m seed ++ List.range' m (n' - m), chunk⟩ := by
  refine ⟨?_, ?_, ?_⟩
  · have hdraw := draw_le (Seed.words seed) (by omega : n + 1 < wordCount)
    have hstep : exchange (arrangedIn (Seed.words seed) (n + 1) n) n
        ((drawing (Seed.words seed) n).2.draw (Seed.words seed) (n + 1)).1 =
          .ok (arrangedIn (Seed.words seed) (n + 1) (n + 1)) :=
      exchange_arrangedIn (by omega) n.lt_succ_self
    rw [arrangedIn_self, arrangedIn, Nat.add_sub_cancel_left] at hstep
    exact ⟨_, hdraw, hstep⟩
  · intro m hm
    refine ⟨(draws (Seed.words seed) n).drop m, ?_, ?_, ?_⟩
    · rw [List.length_drop, length_draws]
    · exact drawnUpTo_drop (Seed.words seed) (by omega) m
    · exact exchanges_drop (by omega) hm
  · intro m hm
    exact ⟨_, fun n' hle hn' words h => Shuffle.after_congr (by omega) hle h⟩

/-- Six numbers, the last of which are in the middle of a chunk. -/
theorem permutation_grows_six : 6 + 1 < wordCount - 1 ∧
    (∃ j ≤ 6, exchange (permutation 6 42 ++ [6]) 6 j = .ok (permutation 7 42)) ∧
    ∃ drawn, drawn.length = 2 ∧ DrawnUpTo 4 drawn ∧
      exchanges (permutation 4 42 ++ [4, 5]) 4 drawn = .ok (permutation 6 42) := by
  have h6 : 6 + 1 < wordCount - 1 := by decide
  obtain ⟨hone, hmore, -⟩ := permutation_grows 42 6 h6
  exact ⟨h6, hone, hmore 4 (by decide)⟩

end NearestNeighbors
