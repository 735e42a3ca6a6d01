import NearestNeighbors.Proofs.Classifier.Voters

/-!
# The order of the training set

Rows that are equally near count in the order of the training set. This order decides which rows
vote only where the cut between the voters and the other rows goes between two rows at one
distance. Where it does not, the training set in any order has the same voters, and ties among
them, or among the others, make no difference.

* `ClearCut`: the last voter is nearer than the first row that does not vote.
* `ClearCut.ne`: then no voter is as near as another row.
* `predict_reordered` (every order): the training set in another order gives the same label.
-/

namespace NearestNeighbors.Model

open Binary64

variable {t : Matrix} {query : List Float} {labels order : List ℕ} {k : ℕ} {N : Finset ℕ}

/-- **The cut behind the `k` nearest rows is clear**: there are no more rows, or the `k`-th
smallest distance and the one after it differ. -/
def ClearCut (t : Matrix) (query : List Float) (k : ℕ) : Prop :=
  k = t.size ∨ (sortedDistances t query)[k - 1]? ≠ (sortedDistances t query)[k]?

/-- **No row in front of a clear cut is as near as one behind it.** -/
theorem ClearCut.ne (h : ClearCut t query k) (hpos : 1 ≤ k) (hq : query.length = t.cols)
    (hN : Nearest t query k N) {i j : ℕ} (hi : i ∈ N) (hj : j < t.size) (hjN : j ∉ N) :
    (keysTo t query)[i]? ≠ (keysTo t query)[j]? := by
  -- the row `j` is one more than the nearest ones, so the cut has two sides
  have hlt : k < t.size := by
    have hsub : insert j N ⊆ Finset.range t.size := by
      intro r hr
      rcases Finset.mem_insert.1 hr with rfl | hr
      · exact Finset.mem_range.2 hj
      · exact Finset.mem_range.2 (hN.lt_size r hr)
    have hcard := Finset.card_le_card hsub
    rwa [Finset.card_insert_of_notMem hjN, hN.card_eq, Finset.card_range] at hcard
  have hlen := length_sortedDistances t query
  obtain ⟨d, hd⟩ : ∃ d, (sortedDistances t query)[k - 1]? = some d :=
    ⟨_, List.getElem?_eq_getElem (by omega)⟩
  obtain ⟨d', hd'⟩ : ∃ d', (sortedDistances t query)[k]? = some d' :=
    ⟨_, List.getElem?_eq_getElem (by omega)⟩
  have hne : d ≠ d' := by
    rcases h with rfl | h
    · exact absurd hlt (lt_irrefl _)
    · rw [hd, hd'] at h
      exact fun heq => h (congrArg some heq)
  intro heq
  obtain ⟨b, hb⟩ : ∃ b, (keysTo t query)[j]? = some b :=
    ⟨_, List.getElem?_eq_getElem (by rwa [length_keysTo])⟩
  have hbd : b ≤ orderKey d := hN.key_le hq hd hi (heq.trans hb)
  have hdb : orderKey d' ≤ b := hN.le_key hq hd' hjN hb
  have hdd : orderKey d ≤ orderKey d' :=
    le_of_pairwise (sortedDistances_pairwise t query) (getElem?_orderKeys hd)
      (getElem?_orderKeys hd') (Nat.sub_le k 1)
  exact hne (orderKey_injective (by omega))

/-- **The order of the training set matters only for a tie at the cut.** The rows of a training set
in any order, each with its label, make a training set that can be fitted as well; and where the
cut is clear, a query is predicted the same label by both. -/
theorem predict_reordered (hlen : t.size = labels.length) (hpos : 1 ≤ k) (hle : k ≤ t.size)
    (hlabels : ∀ l ∈ labels, l < maxCounters) (hq : query.length = t.cols)
    (horder : order.Perm (List.range t.size)) (hcut : ClearCut t query k) :
    ∃ s m m' l, Side.select t labels order = .ok s ∧ (new k).fit t labels = (.ok (), m) ∧
      (new k).fit s.features s.labels = (.ok (), m') ∧
      m.predict query = .ok l ∧ m'.predict query = .ok l := by
  have hmem : ∀ {i}, i ∈ order ↔ i < t.size := by
    intro i
    rw [horder.mem_iff, List.mem_range]
  obtain ⟨s, hs⟩ := Side.select_of_lt hlen fun i hi => hmem.1 hi
  have hwf := fitted_wellFormed hlen hpos hle
  obtain ⟨N, hN⟩ := hwf.poll rfl hq
  obtain ⟨m', hfit', hsame⟩ := hwf.keeps_select rfl hq hN.nearest hs
    (horder.nodup_iff.2 List.nodup_range) (fun i hi => hmem.2 (hN.nearest.lt_size i hi))
    fun i hi j hj hjN heq => absurd heq (hcut.ne hpos hq hN.nearest hi (hmem.1 hj) hjN)
  obtain ⟨l, hl, -⟩ := hwf.predict_ok rfl hq hlabels
  exact ⟨s, _, m', l, hs, fit_eq_ok_iff.2 ⟨hlen, hpos, hle, rfl⟩, hfit', hl, hsame.trans hl⟩

/-- The three points nearest to `1` are nearer than the fourth, and two of them are at one
distance. -/
theorem clearCut_fourPoints : ClearCut fourPoints [1] 3 := by
  refine .inr fun heq => ?_
  have hkeys := congrArg (Option.map orderKey) heq
  rw [← List.getElem?_map, ← List.getElem?_map, sortedKeys_fourPoints] at hkeys
  exact absurd hkeys (by decide)

/-- The four points backwards: the two that are equally near change places, and both vote. -/
theorem predict_reordered_fourPoints : ClearCut fourPoints [1] 3 ∧
    ∃ s m m' l, Side.select fourPoints [5, 7, 7, 5] [3, 2, 1, 0] = .ok s ∧
      (new 3).fit fourPoints [5, 7, 7, 5] = (.ok (), m) ∧
      (new 3).fit s.features s.labels = (.ok (), m') ∧
      m.predict [1] = .ok l ∧ m'.predict [1] = .ok l :=
  ⟨clearCut_fourPoints, predict_reordered rfl (by decide) (by decide) (by decide) rfl (by decide)
    clearCut_fourPoints⟩

end NearestNeighbors.Model
