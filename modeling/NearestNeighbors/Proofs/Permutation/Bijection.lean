import Mathlib.Data.Set.Function
import NearestNeighbors.Proofs.Permutation.Growth

/-!
# Every permutation has one row of draws

A shuffle can be undone. The last exchange put the largest number at the position that was drawn,
so the draw can be read off the list, and the same exchange once more takes the largest number back
to the end. What is in front of it is the list before the last draw. So no two rows of draws give
one list, and each permutation comes from some row.

* `exchange_symm`, `exchange_perm`: an exchange undoes itself and keeps the elements.
* `drawRows`: the rows of draws in range.
* `arrange_injOn`, `exists_arrange`: the last draw is undone, and from it all of them by induction.
* `bijOn_exchanges`: the shuffle in place as a function of its draws.
-/

namespace NearestNeighbors

open NearestNeighbors.Random

variable {α : Type} {l l' : List α} {drawn : List ℕ} {i j n position : ℕ}

/-! ## An exchange undone -/

/-- An exchange keeps the elements. -/
theorem exchange_perm (h : exchange l i j = .ok l') : l'.Perm l := by
  obtain ⟨a, b, ha, hb, -⟩ := exchange_eq_ok.1 h
  obtain ⟨hi, -⟩ := List.getElem?_eq_some_iff.1 ha
  obtain ⟨hj, -⟩ := List.getElem?_eq_some_iff.1 hb
  have hswap : exchange l i j = .ok (l.toArray.swapIfInBounds i j).toList :=
    exchange_toList (a := l.toArray) hi hj
  cases h.symm.trans hswap
  exact (swapIfInBounds_perm l.toArray i j).toList

/-- The two elements have changed places. -/
theorem getElem?_exchange (h : exchange l i j = .ok l') : l'[i]? = l[j]? ∧ l'[j]? = l[i]? := by
  obtain ⟨a, b, ha, hb, rfl⟩ := exchange_eq_ok.1 h
  obtain ⟨hi, -⟩ := List.getElem?_eq_some_iff.1 ha
  obtain ⟨hj, -⟩ := List.getElem?_eq_some_iff.1 hb
  rw [ha, hb, List.getElem?_set, List.getElem?_set, List.getElem?_set]
  by_cases hij : i = j
  · subst hij
    cases ha.symm.trans hb
    simp [hi]
  · simp [hi, hj, Ne.symm hij]

/-- **An exchange undoes itself.** -/
theorem exchange_symm (h : exchange l i j = .ok l') : exchange l' i j = .ok l := by
  obtain ⟨a, b, ha, hb, hset⟩ := exchange_eq_ok.1 h
  obtain ⟨hib, hja⟩ := getElem?_exchange h
  refine exchange_eq_ok.2 ⟨b, a, hib.trans hb, hja.trans ha, ?_⟩
  apply List.ext_getElem?
  intro r
  rw [hset]
  -- the two elements that moved are back, and the others never moved
  by_cases hj : j = r
  · subst hj
    obtain ⟨hlt, hget⟩ := List.getElem?_eq_some_iff.1 hb
    simp [hlt, hget]
  · rw [List.getElem?_set_ne hj]
    by_cases hi : i = r
    · subst hi
      obtain ⟨hlt, hget⟩ := List.getElem?_eq_some_iff.1 ha
      simp [hlt, hget]
    · simp [List.getElem?_set_ne hi, List.getElem?_set_ne hj]

/-! ## Rows of draws -/

/-- **The rows of `n` draws** for the positions from `position` on, each in its range. -/
def drawRows (position n : ℕ) : Set (List ℕ) :=
  {drawn | drawn.length = n ∧ DrawnUpTo position drawn}

/-- A row in front of its last draw, and the last draw. -/
theorem mem_drawRows_succ : drawn ∈ drawRows position (n + 1) ↔
    ∃ front j, front ∈ drawRows position n ∧ j ≤ position + n ∧ drawn = front ++ [j] := by
  constructor
  · rintro ⟨hlen, h⟩
    have hne : drawn ≠ [] := List.ne_nil_of_length_eq_add_one hlen
    have hsplit := (List.dropLast_concat_getLast hne).symm
    have hfront : drawn.dropLast.length = n := by rw [List.length_dropLast, hlen]; rfl
    rw [hsplit, drawnUpTo_concat, hfront] at h
    exact ⟨_, _, ⟨hfront, h.1⟩, h.2, hsplit⟩
  · rintro ⟨front, j, ⟨rfl, h⟩, hj, rfl⟩
    exact ⟨List.length_append, drawnUpTo_concat.2 ⟨h, hj⟩⟩

/-! ## The last draw undone -/

/-- The last draw, on a row of draws for the numbers before. -/
theorem exchange_arrange_concat {front : List ℕ} (hfront : front ∈ drawRows 0 n) (hj : j ≤ n) :
    exchange (arrange front ++ [n]) n j = .ok (arrange (front ++ [j])) := by
  obtain ⟨rfl, -⟩ := hfront
  have h := exchange_arrange hj []
  rwa [List.append_nil] at h

/-- The largest number stands at the position that was drawn for it. -/
theorem getElem?_arrange_concat {front : List ℕ} (hfront : front ∈ drawRows 0 n) (hj : j ≤ n) :
    (arrange (front ++ [j]))[j]? = some n := by
  have hlen : (arrange front).length = n := by rw [length_arrange, hfront.1]
  rw [(getElem?_exchange (exchange_arrange_concat hfront hj)).2]
  simp [← hlen]

/-- **Different rows of draws give different lists.** -/
theorem arrange_injOn (n : ℕ) : Set.InjOn arrange (drawRows 0 n) := by
  induction n with
  | zero =>
    intro drawn hdrawn drawn' hdrawn' _
    rw [List.eq_nil_of_length_eq_zero hdrawn.1, List.eq_nil_of_length_eq_zero hdrawn'.1]
  | succ n ih =>
    intro drawn hdrawn drawn' hdrawn' heq
    obtain ⟨front, j, hfront, hj, rfl⟩ := mem_drawRows_succ.1 hdrawn
    obtain ⟨front', j', hfront', hj', rfl⟩ := mem_drawRows_succ.1 hdrawn'
    rw [Nat.zero_add] at hj hj'
    have hget := getElem?_arrange_concat hfront hj
    have hget' := getElem?_arrange_concat hfront' hj'
    have hnodup : (arrange (front ++ [j])).Nodup := (arrange_perm _).nodup_iff.2 List.nodup_range
    obtain rfl : j = j' := by
      obtain ⟨hlt, -⟩ := List.getElem?_eq_some_iff.1 hget
      rw [← heq, ← hget] at hget'
      exact (List.getElem?_inj hlt hnodup).1 hget'.symm
    -- the last exchange once more leads back to the lists before it
    have hback := exchange_symm (exchange_arrange_concat hfront hj)
    have hback' := exchange_symm (exchange_arrange_concat hfront' hj)
    rw [heq, hback', Except.ok.injEq, List.append_left_inj] at hback
    rw [ih hfront hfront' hback.symm]

/-- **Each permutation is what some row of draws gives.** -/
theorem exists_arrange {l : List ℕ} (h : l.Perm (List.range n)) :
    ∃ drawn ∈ drawRows 0 n, arrange drawn = l := by
  induction n generalizing l with
  | zero => exact ⟨[], ⟨rfl, drawnUpTo_nil⟩, (List.perm_nil.1 h).symm⟩
  | succ n ih =>
    have hlen : l.length = n + 1 := by rw [h.length_eq, List.length_range]
    obtain ⟨j, hj, hjn⟩ := List.getElem_of_mem (h.mem_iff.2 (List.mem_range.2 n.lt_succ_self))
    -- the largest number goes to the end, and the rest is a permutation of its own
    obtain ⟨l', hl'⟩ : ∃ l', exchange l n j = .ok l' :=
      ⟨_, exchange_eq_ok.2 ⟨_, _, List.getElem?_eq_getElem (by omega),
        List.getElem?_eq_getElem hj, rfl⟩⟩
    have hend : l'[n]? = some n := by
      rw [(getElem?_exchange hl').1, List.getElem?_eq_getElem hj, hjn]
    have hlen' : l'.length = n + 1 := by rw [(exchange_perm hl').length_eq, hlen]
    have hsplit : l' = l'.take n ++ [n] := by
      calc l' = l'.take (n + 1) := (List.take_of_length_le hlen'.le).symm
        _ = l'.take n ++ [n] := by rw [List.take_add_one, hend, Option.toList_some]
    have hperm : (l'.take n).Perm (List.range n) := by
      have hfull := (exchange_perm hl').trans h
      rw [hsplit, List.range_succ] at hfull
      exact (List.perm_append_right_iff [n]).1 hfull
    obtain ⟨front, hfront, harr⟩ := ih hperm
    have hjle : j ≤ n := by omega
    refine ⟨front ++ [j], mem_drawRows_succ.2 ⟨front, j, hfront, by omega, rfl⟩, ?_⟩
    have hlast := exchange_arrange_concat hfront hjle
    rw [harr, ← hsplit, exchange_symm hl'] at hlast
    exact (Except.ok.inj hlast).symm

/-- **The shuffle as a function of its draws.** It gives a list for each row of draws in range, and
each permutation for one row. -/
theorem bijOn_exchanges (n : ℕ) : Set.BijOn (exchanges (List.range n) 0) (drawRows 0 n)
    {result | ∃ l, l.Perm (List.range n) ∧ result = .ok l} := by
  have harrange : ∀ drawn ∈ drawRows 0 n,
      exchanges (List.range n) 0 drawn = .ok (arrange drawn) := by
    rintro drawn ⟨rfl, hdrawn⟩
    have h : exchanges (arrange [] ++ List.range' 0 drawn.length) 0 drawn =
        .ok (arrange ([] ++ drawn)) := exchanges_arrange hdrawn
    rw [List.range_eq_range']
    exact h
  refine ⟨?_, ?_, ?_⟩
  · rintro drawn hdrawn
    refine ⟨_, ?_, harrange drawn hdrawn⟩
    have hperm := arrange_perm drawn
    rwa [hdrawn.1] at hperm
  · intro drawn hdrawn drawn' hdrawn' heq
    rw [harrange drawn hdrawn, harrange drawn' hdrawn'] at heq
    exact arrange_injOn n hdrawn hdrawn' (Except.ok.inj heq)
  · rintro _ ⟨l, hl, rfl⟩
    obtain ⟨drawn, hdrawn, rfl⟩ := exists_arrange hl
    exact ⟨drawn, hdrawn, harrange drawn hdrawn⟩

end NearestNeighbors
