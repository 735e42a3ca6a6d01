import Mathlib.Order.Defs.LinearOrder
import NearestNeighbors.Except
import NearestNeighbors.Vote

/-!
# Who wins a vote

The counters are wide enough for the labels they were made for, so that counting and
comparing never leaves them; and the label that comes out is the most frequent one, the
lowest where several are equally frequent.

* `tally_ok`: after all votes each counter holds the number of its votes.
* `leader_ok`: the leader of a row of counters leads all of them.
* `tally_leader_ok`: the leader after all votes wins.
* `Wins.unique`: no two labels win one vote.
* `vote_cases`: a vote is won, or it has a label too large to be counted.
-/

namespace NearestNeighbors

/-- **The winner of a vote.** -/
structure Wins (labels : List Nat) (l : Nat) : Prop where
  mem : l ∈ labels
  most : ∀ x, labels.count x ≤ labels.count l
  lowest : ∀ x, labels.count x = labels.count l → l ≤ x

/-- Of the labels below `n`, none has more votes than `best`, and none before it as many. -/
def Leads (votes : Nat → Nat) (n best : Nat) : Prop :=
  ∀ l < n, votes l < votes best ∨ votes l = votes best ∧ best ≤ l

variable {labels : List Nat} {counts : Array Nat}

theorem counterCount_le {b : Nat} : counterCount labels ≤ b ↔ ∀ l ∈ labels, l < b := by
  unfold counterCount
  cases h : labels.max? with
  | none =>
    rw [List.max?_eq_none_iff] at h
    subst h
    simp
  | some m =>
    obtain ⟨hm, hle⟩ := List.max?_eq_some_iff.1 h
    exact ⟨fun hb l hl => Nat.lt_of_le_of_lt (hle l hl) hb, fun hb => hb m hm⟩

theorem lt_counterCount {l : Nat} (h : l ∈ labels) : l < counterCount labels :=
  counterCount_le.1 (Nat.le_refl _) l h

/-! ## Counting -/

theorem counter_ok {l : Nat} (h : l < counts.size) : counter counts l = .ok (counts.getD l 0) := by
  unfold counter
  rw [Array.getElem?_eq_getElem h, Array.getD_eq_getD_getElem?, Array.getElem?_eq_getElem h]
  rfl

/-- One vote raises one counter. -/
theorem countVote_ok {l : Nat} (h : l < counts.size) :
    ∃ counts', countVote counts l = .ok counts' ∧ counts'.size = counts.size ∧
      ∀ x, counts'.getD x 0 = counts.getD x 0 + if x = l then 1 else 0 := by
  refine ⟨counts.setIfInBounds l (counts.getD l 0 + 1), ?_, Array.size_setIfInBounds, ?_⟩
  · unfold countVote
    rw [counter_ok h]
    rfl
  · intro x
    rw [Array.getD_eq_getD_getElem?, Array.getD_eq_getD_getElem?, Array.getElem?_setIfInBounds]
    by_cases hx : x = l
    · subst hx
      simp [h]
    · simp [hx, Ne.symm hx]

theorem foldlM_countVote_ok (h : ∀ l ∈ labels, l < counts.size) :
    ∃ counts', labels.foldlM countVote counts = .ok counts' ∧ counts'.size = counts.size ∧
      ∀ x, counts'.getD x 0 = counts.getD x 0 + labels.count x := by
  induction labels generalizing counts with
  | nil => exact ⟨counts, rfl, rfl, fun x => rfl⟩
  | cons l labels ih =>
    obtain ⟨counts₁, h₁, hsize₁, hget₁⟩ := countVote_ok (h l List.mem_cons_self)
    have hrest : ∀ x ∈ labels, x < counts₁.size := by
      intro x hx
      rw [hsize₁]
      exact h x (List.mem_cons_of_mem _ hx)
    obtain ⟨counts₂, h₂, hsize₂, hget₂⟩ := ih hrest
    refine ⟨counts₂, ?_, hsize₂.trans hsize₁, fun x => ?_⟩
    · rw [List.foldlM_cons, bind_eq_ok]
      exact ⟨counts₁, h₁, h₂⟩
    · rw [hget₂, hget₁, List.count_cons]
      by_cases hx : x = l
      · subst hx
        simp; omega
      · simp [hx, Ne.symm hx]

/-- Counting stays within the counters, and each one ends with the number of its votes. -/
theorem tally_ok (labels : List Nat) :
    ∃ counts, tally labels = .ok counts ∧ counts.size = counterCount labels ∧
      ∀ l, counts.getD l 0 = labels.count l := by
  have hlt : ∀ l ∈ labels, l < (Array.replicate (counterCount labels) 0).size := by
    intro l hl
    rw [Array.size_replicate]
    exact lt_counterCount hl
  obtain ⟨counts, h, hsize, hget⟩ := foldlM_countVote_ok hlt
  refine ⟨counts, h, hsize.trans Array.size_replicate, fun l => ?_⟩
  rw [hget, Array.getD_eq_getD_getElem?, Array.getElem?_replicate]
  split <;> simp

/-! ## The leader -/

/-- One more label takes the lead, or leaves it as it is. -/
theorem Leads.succ {votes : Nat → Nat} {n best : Nat} (hle : best ≤ n) (h : Leads votes n best) :
    (if votes best < votes n then n else best) ≤ n ∧
      Leads votes (n + 1) (if votes best < votes n then n else best) := by
  refine ⟨by split <;> omega, fun l hl => ?_⟩
  rcases Nat.lt_succ_iff_lt_or_eq.1 hl with hln | rfl
  · have := h l hln
    split <;> omega
  · split <;> omega

/-- The labels from position `n` on, compared in turn with the leader of those before. -/
theorem foldlM_overtake_ok {rest : List Nat} {n best : Nat} (hrest : counts.toList.drop n = rest)
    (hsize : best < counts.size) (hle : best ≤ n) (h : Leads (counts.getD · 0) n best) :
    ∃ l, (rest.zipIdx n).foldlM (overtake counts) best = .ok l ∧
      Leads (counts.getD · 0) counts.size l := by
  -- the leader of the labels before position `n` is carried along
  induction rest generalizing n best with
  | nil =>
    rw [List.drop_eq_nil_iff, Array.length_toList] at hrest
    exact ⟨best, rfl, fun l hl => h l (by omega)⟩
  | cons c rest ih =>
    have hn : n < counts.size := by
      have := congrArg List.length hrest
      simp only [List.length_drop, Array.length_toList, List.length_cons] at this
      omega
    have hc : counts.getD n 0 = c := by
      have := congrArg List.head? hrest
      rw [List.head?_drop, Array.getElem?_toList, List.head?_cons] at this
      rw [Array.getD_eq_getD_getElem?, this, Option.getD_some]
    have htail : counts.toList.drop (n + 1) = rest := by
      rw [← List.tail_drop, hrest, List.tail_cons]
    have hstep : overtake counts best (c, n) =
        .ok (if counts.getD best 0 < counts.getD n 0 then n else best) := by
      unfold overtake
      rw [counter_ok hsize, hc]
      rfl
    obtain ⟨hle', hnext⟩ := h.succ hle
    obtain ⟨l, hl, hlead⟩ := ih htail (Nat.lt_of_le_of_lt hle' hn) (Nat.le_succ_of_le hle') hnext
    refine ⟨l, ?_, hlead⟩
    rw [List.zipIdx_cons, List.foldlM_cons, bind_eq_ok]
    exact ⟨_, hstep, hl⟩

/-- Comparing stays within the counters, and the leader leads all of them. -/
theorem leader_ok (h : 0 < counts.size) :
    ∃ l, leader counts = .ok l ∧ Leads (counts.getD · 0) counts.size l :=
  foldlM_overtake_ok (List.drop_zero ..) h (Nat.le_refl 0) fun l hl => absurd hl (Nat.not_lt_zero l)

/-! ## The vote -/

/-- **One label wins.** -/
theorem Wins.unique {l l' : Nat} (h : Wins labels l) (h' : Wins labels l') : l = l' := by
  have hcount : labels.count l = labels.count l' := Nat.le_antisymm (h'.most l) (h.most l')
  exact Nat.le_antisymm (h.lowest l' hcount.symm) (h'.lowest l hcount)

/-- The leader of the counters of a vote wins it. -/
theorem Leads.wins {l : Nat} (hne : labels ≠ [])
    (h : Leads (fun x => labels.count x) (counterCount labels) l) : Wins labels l := by
  simp only [Leads] at h
  obtain ⟨x, hx⟩ := List.exists_mem_of_ne_nil labels hne
  have hpos : 0 < labels.count l := by
    have := List.count_pos_iff.2 hx
    have := h x (lt_counterCount hx)
    omega
  -- labels from the last counter on have no votes
  have hcases : ∀ y, labels.count y < labels.count l ∨
      labels.count y = labels.count l ∧ l ≤ y := by
    intro y
    by_cases hy : y ∈ labels
    · exact h y (lt_counterCount hy)
    · left
      rw [List.count_eq_zero_of_not_mem hy]
      exact hpos
  refine ⟨List.count_pos_iff.1 hpos, fun y => ?_, fun y hy => ?_⟩
  · have := hcases y
    omega
  · have := hcases y
    omega

/-- **Counting and comparing stay within the counters**, and the leader wins. -/
theorem tally_leader_ok (hne : labels ≠ []) :
    ∃ counts l, tally labels = .ok counts ∧ leader counts = .ok l ∧ Wins labels l := by
  obtain ⟨counts, htally, hsize, hget⟩ := tally_ok labels
  have hpos : 0 < counts.size := by
    obtain ⟨x, hx⟩ := List.exists_mem_of_ne_nil labels hne
    have := lt_counterCount hx
    omega
  obtain ⟨l, hl, hlead⟩ := leader_ok hpos
  rw [hsize] at hlead
  exact ⟨counts, l, htally, hl, Leads.wins hne (by simpa only [hget] using hlead)⟩

/-- **A vote is won**, unless a label in it is too large to be counted. -/
theorem vote_cases (hne : labels ≠ []) :
    (∃ l, vote labels = .ok l ∧ Wins labels l) ∨
      vote labels = .error .capacity ∧ ∃ l ∈ labels, maxCounters ≤ l := by
  unfold vote
  by_cases hcap : maxCounters < counterCount labels
  · right
    refine ⟨if_pos hcap, ?_⟩
    by_contra hall
    have hle : counterCount labels ≤ maxCounters :=
      counterCount_le.2 fun l hl => Nat.not_le.1 fun h => hall ⟨l, hl, h⟩
    omega
  · left
    obtain ⟨counts, l, htally, hl, hwins⟩ := tally_leader_ok hne
    refine ⟨l, ?_, hwins⟩
    rw [if_neg hcap, bind_eq_ok]
    exact ⟨counts, htally, hl⟩

/-- **A label that is too large** is not counted, and no vote with it. -/
theorem vote_of_large {l : Nat} (hl : l ∈ labels) (h : maxCounters ≤ l) :
    vote labels = .error .capacity :=
  if_pos (Nat.lt_of_le_of_lt h (lt_counterCount hl))

end NearestNeighbors
