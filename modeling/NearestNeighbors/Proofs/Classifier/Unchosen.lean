import NearestNeighbors.Proofs.Classifier.Voters

/-!
# Rows that are not chosen

The rows that a query is compared with are all of the training set, but only those that it chooses
have a say. The labels of the others do not matter, nor do their positions, and they may as well
be missing; and further rows at the end change nothing unless one of them is nearer than the last
row that is chosen.

* `keeps_relabelled`, `keeps_thinned`, `keeps_extended`: the three changes of a training set.
* `unchosen_irrelevant` (every fitted model): each of them keeps the answer to a query.
-/

namespace NearestNeighbors.Model

open Binary64

variable {m m₀ : Model} {t t' : Matrix} {query : List Float} {labels labels' kept : List ℕ}
  {more : List (List Float)} {N : Finset ℕ} {d : Float} {i j : ℕ}

/-- Other labels for rows that are not chosen. -/
theorem WellFormed.keeps_relabelled (h : m.WellFormed) (ht : m.features = some t)
    (hq : query.length = t.cols) (hN : Nearest t query m.neighbors N)
    (hlen : labels'.length = m.labels.length) (hsame : ∀ i ∈ N, labels'[i]? = m.labels[i]?) :
    m.Keeps query t labels' := by
  have hsize : t.size = labels'.length := by rw [hlen, h.aligned t ht]
  exact h.keeps_of_votes ht hq hN rfl hsize hN (votesFor_congr hsame)

theorem idxOf_lt_of_pairwise (h : kept.Pairwise (· < ·)) (hi : i ∈ kept) (hj : j ∈ kept)
    (hij : i < j) : kept.idxOf i < kept.idxOf j := by
  by_contra hle
  have hji : j ≤ i := le_of_pairwise (h.imp le_of_lt) (List.getElem?_idxOf hj)
    (List.getElem?_idxOf hi) (not_lt.1 hle)
  omega

/-- Fewer rows, with those that are chosen among them. -/
theorem WellFormed.keeps_thinned (h : m.WellFormed) (ht : m.features = some t)
    (hq : query.length = t.cols) (hN : Nearest t query m.neighbors N)
    (hkept : kept.Sublist (List.range t.size)) (hmem : ∀ i ∈ N, i ∈ kept) :
    ∃ s, Side.select t m.labels kept = .ok s ∧ m.Keeps query s.features s.labels := by
  obtain ⟨s, hs⟩ := Side.select_of_lt (h.aligned t ht).symm fun i hi =>
    List.mem_range.1 (hkept.subset hi)
  have hlt : kept.Pairwise (· < ·) := List.pairwise_lt_range.sublist hkept
  refine ⟨s, hs, h.keeps_select ht hq hN hs (List.nodup_range.sublist hkept) hmem ?_⟩
  -- the rows that are left keep their order
  intro i hi j hj _ _ hij
  exact idxOf_lt_of_pairwise hlt (hmem i hi) hj hij

/-- More rows at the end, none of them in front of the last one that is chosen. -/
theorem WellFormed.keeps_extended (h : m.WellFormed) (ht : m.features = some t)
    (hq : query.length = t.cols) (hN : Nearest t query m.neighbors N)
    (hd : (sortedDistances t query)[m.neighbors - 1]? = some d) (hcols : t'.cols = t.cols)
    (hrows : t'.rows = t.rows ++ more) (hlen : more.length = labels'.length)
    (hfar : ∀ row ∈ more, ¬ TotalLt (euclidean row query) d) :
    m.Keeps query t' (m.labels ++ labels') := by
  have hkeys : keysTo t' query =
      keysTo t query ++ more.map fun row => orderKey (euclidean row query) := by
    unfold keysTo
    rw [hrows, List.map_append]
  have hforemost : Foremost (keysTo t' query) m.neighbors N := by
    rw [hkeys]
    apply ((nearest_iff_foremost hq).1 hN).append
    intro i hi a ha b hb
    obtain ⟨row, hrow, rfl⟩ := List.mem_map.1 hb
    have hle : orderKey d ≤ orderKey (euclidean row query) := by
      rw [← not_lt, ← totalLt_iff]
      exact hfar row hrow
    exact (hN.key_le hq hd hi ha).trans hle
  have hsize : t'.size = (m.labels ++ labels').length := by
    rw [Matrix.size, hrows, List.length_append, List.length_append, h.aligned t ht, hlen]
    rfl
  refine h.keeps_of_votes ht hq hN hcols hsize
    ((nearest_iff_foremost (hq.trans hcols.symm)).2 hforemost) (votesFor_congr ?_)
  intro i hi
  have hlt := hN.lt_size i hi
  rw [List.getElem?_append_left (by rwa [h.aligned t ht])]

/-- **Rows that are not chosen have no say.** For every query of the right length there are the rows
that a fitted model chooses, and the distance of the last one of them. The query comes to the same,
be it a label or a failure, after a fit of the model to other labels for the rows that are not
chosen, to fewer rows with those that are chosen among them, and to more rows that stand at the end
and are not nearer than the last row that is chosen. -/
theorem unchosen_irrelevant (hfit : m₀.fit t labels = (.ok (), m)) (hq : query.length = t.cols) :
    ∃ chosen d, nearest t m₀.neighbors query = .ok chosen ∧ chosen.length = m₀.neighbors ∧
      (sortedDistances t query)[m₀.neighbors - 1]? = some d ∧
      (∀ labels' : List ℕ, labels'.length = labels.length →
        (∀ i ∈ chosen, labels'[i]? = labels[i]?) → m.Keeps query t labels') ∧
      (∀ kept : List ℕ, kept.Sublist (List.range t.size) → (∀ i ∈ chosen, i ∈ kept) →
        ∃ s, Side.select t labels kept = .ok s ∧ m.Keeps query s.features s.labels) ∧
      ∀ (t' : Matrix) more (labels' : List ℕ), t'.cols = t.cols → t'.rows = t.rows ++ more →
        more.length = labels'.length → (∀ row ∈ more, ¬ TotalLt (euclidean row query) d) →
          m.Keeps query t' (labels ++ labels') := by
  obtain ⟨hlen, hpos, hle, rfl⟩ := fit_eq_ok_iff.1 hfit
  have hwf := fitted_wellFormed hlen hpos hle
  obtain ⟨chosen, votes, hb⟩ := hwf.ballot rfl hq
  have hN := nearest_toFinset hq hle hb.nearest_eq
  obtain ⟨d, hd⟩ : ∃ d, (sortedDistances t query)[m₀.neighbors - 1]? = some d :=
    ⟨_, List.getElem?_eq_getElem (by rw [length_sortedDistances]; omega)⟩
  have hmem : ∀ {i}, i ∈ chosen.toFinset → i ∈ chosen := List.mem_toFinset.1
  refine ⟨chosen, d, hb.nearest_eq, hb.length_positions, hd, ?_, ?_, ?_⟩
  · intro labels' hlen' hsame
    exact hwf.keeps_relabelled rfl hq hN hlen' fun i hi => hsame i (hmem hi)
  · intro kept hkept hchosen
    exact hwf.keeps_thinned rfl hq hN hkept fun i hi => hchosen i (hmem hi)
  · intro t' more labels' hcols hrows hlen' hfar
    exact hwf.keeps_extended rfl hq hN hd hcols hrows hlen' hfar

/-- The four points, and one more that is as near to `1` as two of them. -/
def fivePoints : Matrix := ⟨1, [[0], [1], [2], [4], [2]], by decide⟩

/-- The first two of four points are chosen. The label of the third may be one that cannot be
counted, the third may be missing, and a fifth at the distance of the first changes nothing. -/
theorem unchosen_irrelevant_fourPoints : ∃ m,
    (new 2).fit fourPoints [5, 7, 5, 7] = (.ok (), m) ∧
      m.Keeps [1] fourPoints [5, 7, maxCounters, 7] ∧
      (∃ s, Side.select fourPoints [5, 7, 5, 7] [0, 1, 3] = .ok s ∧
        m.Keeps [1] s.features s.labels) ∧
      m.Keeps [1] fivePoints [5, 7, 5, 7, 7] := by
  have hq : [(1 : Float)].length = fourPoints.cols := rfl
  have hfit : (new 2).fit fourPoints [5, 7, 5, 7] =
      (.ok (), ⟨2, some fourPoints, [5, 7, 5, 7]⟩) := rfl
  obtain ⟨chosen, d, hchosen, -, hd, hrelabelled, hthinned, hextended⟩ :=
    unchosen_irrelevant hfit hq
  have hmem : ∀ i ∈ chosen, i = 0 ∨ i = 1 := by
    intro i hi
    have hfirst := (nearest_iff_foremost hq).1 nearest_fourPoints
    have hfound := (nearest_iff_foremost hq).1 (nearest_toFinset hq (by decide) hchosen)
    rw [← List.mem_toFinset, hfirst.unique hfound] at hi
    simpa using hi
  have hkey : orderKey d = 4607182418800017408 := by
    have h := getElem?_orderKeys hd
    rw [sortedKeys_fourPoints] at h
    exact (Option.some.inj h).symm
  refine ⟨_, hfit, hrelabelled _ rfl ?_, hthinned [0, 1, 3] (by decide) ?_,
    hextended fivePoints [[2]] [7] rfl rfl rfl ?_⟩
  · intro i hi
    rcases hmem i hi with rfl | rfl <;> rfl
  · intro i hi
    rcases hmem i hi with rfl | rfl <;> decide
  · have hfifth : orderKey (euclidean [2] [1]) = 4607182418800017408 := by decide +kernel
    simp [totalLt_iff, hfifth, hkey]

end NearestNeighbors.Model
