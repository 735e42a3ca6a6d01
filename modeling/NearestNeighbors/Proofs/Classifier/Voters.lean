import NearestNeighbors.Proofs.Classifier.Nearest
import NearestNeighbors.Proofs.Split.Partition

/-!
# Only the voters count

What a query comes to depends on how many of the nearest rows have each label, and on nothing else:
neither on the positions of these rows nor on what else is in the training set. So a training set
gives the answer of another one when its nearest rows are the same rows at other positions.

* `Poll.predict_eq`: the same votes give the same answer, be it a label or a failure.
* `Keeps`, `WellFormed.keeps_of_votes`: training sets that keep an answer.
* `sortedDistances`, `Nearest.key_le`, `Nearest.le_key`: the distances on either side of the cut.
* `WellFormed.keeps_select`: rows that are selected from a training set, the nearest among them.
-/

namespace NearestNeighbors.Model

open Binary64

variable {m m' : Model} {t t' : Matrix} {query : List Float} {labels labels' order : List ℕ}
  {i k l l' : ℕ} {N N' : Finset ℕ} {d : Float} {a : ℤ}

/-! ## Votes -/

theorem votesFor_pos : 0 < votesFor labels N l ↔ ∃ i ∈ N, labels[i]? = some l := by
  unfold votesFor
  rw [Finset.card_pos, Finset.filter_nonempty_iff]

/-- Rows that are moved have the votes that they had. -/
theorem votesFor_image {f : ℕ → ℕ} (hf : Set.InjOn f N)
    (h : ∀ i ∈ N, labels'[f i]? = labels[i]?) (l : ℕ) :
    votesFor labels' (N.image f) l = votesFor labels N l := by
  unfold votesFor
  rw [Finset.filter_image, Finset.card_image_of_injOn]
  · congr 1
    apply Finset.filter_congr
    intro i hi
    rw [h i hi]
  · intro i hi j hj
    exact hf (Finset.mem_filter.1 hi).1 (Finset.mem_filter.1 hj).1

/-- Rows that keep their labels have the votes that they had. -/
theorem votesFor_congr (h : ∀ i ∈ N, labels'[i]? = labels[i]?) (l : ℕ) :
    votesFor labels' N l = votesFor labels N l := by
  have himage := votesFor_image (f := id) (Set.injOn_id _) h l
  rwa [Finset.image_id] at himage

/-- **One label is elected.** -/
theorem Elected.unique (h : Elected labels N l) (h' : Elected labels N l') : l = l' := by
  have hvotes : votesFor labels N l = votesFor labels N l' := le_antisymm (h'.most l) (h.most l')
  exact le_antisymm (h.lowest l' hvotes.symm) (h'.lowest l hvotes)

theorem Elected.congr (hv : ∀ x, votesFor labels' N' x = votesFor labels N x)
    (h : Elected labels N l) : Elected labels' N' l := by
  refine ⟨?_, fun x => ?_, fun x hx => h.lowest x ?_⟩
  · rw [← votesFor_pos, hv, votesFor_pos]
    exact h.occurs
  · rw [hv, hv]
    exact h.most x
  · rw [← hv, ← hv, hx]

/-- **The same votes give the same answer**, also when they cannot be counted. -/
theorem Poll.predict_eq (h : Poll m t query N) (h' : Poll m' t' query N')
    (hv : ∀ x, votesFor m'.labels N' x = votesFor m.labels N x) :
    m'.predict query = m.predict query := by
  -- each label that is among the votes of the one is among those of the other
  have hmem : ∀ x, (∃ i ∈ N', m'.labels[i]? = some x) ↔ ∃ i ∈ N, m.labels[i]? = some x := by
    intro x
    rw [← votesFor_pos, hv, votesFor_pos]
  rcases h.ends with ⟨l, hl, helected, hall⟩ | ⟨hcap, i, hi, l, hil, hlarge⟩
  · rcases h'.ends with ⟨l', hl', helected', -⟩ | ⟨-, i', hi', l', hil', hlarge'⟩
    · rw [hl, hl', helected'.unique (helected.congr hv)]
    · obtain ⟨i, hi, hil⟩ := (hmem l').1 ⟨i', hi', hil'⟩
      exact absurd (hall i hi l' hil) (not_lt.2 hlarge')
  · rcases h'.ends with ⟨l', -, -, hall'⟩ | ⟨hcap', -⟩
    · obtain ⟨i', hi', hil'⟩ := (hmem l).2 ⟨i, hi, hil⟩
      exact absurd (hall' i' hi' l hil') (not_lt.2 hlarge)
    · rw [hcap, hcap']

/-! ## Training sets that keep an answer -/

/-- **A training set keeps the answer** of a model to a query: the model can be fitted to it, and
then the query comes to what it came to before. -/
def Keeps (m : Model) (query : List Float) (t' : Matrix) (labels' : List ℕ) : Prop :=
  ∃ m', m.fit t' labels' = (.ok (), m') ∧ m'.predict query = m.predict query

theorem Nearest.le_size (h : Nearest t query k N) : k ≤ t.size := by
  have hsub : N ⊆ Finset.range t.size := fun i hi => Finset.mem_range.2 (h.lt_size i hi)
  have hcard := Finset.card_le_card hsub
  rwa [h.card_eq, Finset.card_range] at hcard

/-- The nearest rows are the voters, and there are no others. -/
theorem WellFormed.poll_of_nearest (h : m.WellFormed) (ht : m.features = some t)
    (hq : query.length = t.cols) (hN : Nearest t query m.neighbors N) : Poll m t query N := by
  obtain ⟨N', hN'⟩ := h.poll ht hq
  have hkeys := (nearest_iff_foremost hq).1 hN
  rwa [hkeys.unique ((nearest_iff_foremost hq).1 hN'.nearest)] at hN'

/-- A training set with the same votes keeps the answer. -/
theorem WellFormed.keeps_of_votes (h : m.WellFormed) (ht : m.features = some t)
    (hq : query.length = t.cols) (hN : Nearest t query m.neighbors N) (hcols : t'.cols = t.cols)
    (hlen : t'.size = labels'.length) (hN' : Nearest t' query m.neighbors N')
    (hv : ∀ x, votesFor labels' N' x = votesFor m.labels N x) : m.Keeps query t' labels' := by
  have hpos := h.one_le t ht
  have hwf' := fitted_wellFormed hlen hpos hN'.le_size
  have hpoll := h.poll_of_nearest ht hq hN
  have hpoll' := hwf'.poll_of_nearest rfl (hq.trans hcols.symm) hN'
  exact ⟨_, fit_eq_ok_iff.2 ⟨hlen, hpos, hN'.le_size, rfl⟩, hpoll.predict_eq hpoll' hv⟩

/-! ## The cut -/

/-- **The distances of the training rows** to a query, in the total order. -/
def sortedDistances (t : Matrix) (query : List Float) : List Float :=
  (t.rows.map (euclidean · query)).mergeSort fun x y => orderKey x ≤ orderKey y

theorem length_sortedDistances (t : Matrix) (query : List Float) :
    (sortedDistances t query).length = t.size := by
  unfold sortedDistances
  rw [List.length_mergeSort, List.length_map]
  rfl

/-- The keys of the sorted distances are those of the rows. -/
theorem sortedDistances_perm (t : Matrix) (query : List Float) :
    ((sortedDistances t query).map orderKey).Perm (keysTo t query) := by
  have h := (List.mergeSort_perm (t.rows.map (euclidean · query))
    fun x y => orderKey x ≤ orderKey y).map orderKey
  rwa [List.map_map] at h

theorem sortedDistances_pairwise (t : Matrix) (query : List Float) :
    ((sortedDistances t query).map orderKey).Pairwise (· ≤ ·) := by
  have h : (sortedDistances t query).Pairwise fun x y => decide (orderKey x ≤ orderKey y) := by
    apply List.pairwise_mergeSort
    · intro x y z hxy hyz
      simp only [decide_eq_true_eq] at hxy hyz ⊢
      exact hxy.trans hyz
    · intro x y
      simp only [Bool.or_eq_true, decide_eq_true_eq]
      exact le_total _ _
  rw [List.pairwise_map]
  exact h.imp of_decide_eq_true

/-- The keys of the sorted distances of four points. -/
theorem sortedKeys_fourPoints : (sortedDistances fourPoints [1]).map orderKey =
    [0, 4607182418800017408, 4607182418800017408, 4613937818241073152] := by
  have hperm := sortedDistances_perm fourPoints [1]
  rw [keysTo_fourPoints] at hperm
  apply List.Perm.eq_of_pairwise _ (sortedDistances_pairwise fourPoints [1]) (by decide)
  · exact hperm.trans (by decide)
  · intro a b _ _
    exact le_antisymm

theorem getElem?_orderKeys (h : (sortedDistances t query)[i]? = some d) :
    ((sortedDistances t query).map orderKey)[i]? = some (orderKey d) := by
  rw [List.getElem?_map, h]
  rfl

/-- No nearest row is behind the `k`-th smallest distance. -/
theorem Nearest.key_le (h : Nearest t query k N) (hq : query.length = t.cols)
    (hd : (sortedDistances t query)[k - 1]? = some d) (hi : i ∈ N)
    (ha : (keysTo t query)[i]? = some a) : a ≤ orderKey d :=
  ((nearest_iff_foremost hq).1 h).le_sorted (sortedDistances_perm t query)
    (sortedDistances_pairwise t query) hi ha (getElem?_orderKeys hd)

/-- No other row is in front of the distance after it. -/
theorem Nearest.le_key (h : Nearest t query k N) (hq : query.length = t.cols)
    (hd : (sortedDistances t query)[k]? = some d) (hi : i ∉ N)
    (ha : (keysTo t query)[i]? = some a) : orderKey d ≤ a :=
  ((nearest_iff_foremost hq).1 h).sorted_le (sortedDistances_perm t query)
    (sortedDistances_pairwise t query) hi ha (getElem?_orderKeys hd)

/-! ## Rows that are selected -/

/-- The keys of rows that are selected. -/
theorem selectAt_keysTo (h : t.select order = .ok t') (query : List Float) :
    selectAt (keysTo t query) order = .ok (keysTo t' query) :=
  selectAt_map _ (Matrix.select_eq_ok.1 h).2

/-- **Rows that are selected keep the answer**, when the nearest rows are among them and stay in
front of all rows that are equally near. -/
theorem WellFormed.keeps_select (h : m.WellFormed) (ht : m.features = some t)
    (hq : query.length = t.cols) (hN : Nearest t query m.neighbors N) {s : Side}
    (hs : Side.select t m.labels order = .ok s) (hnodup : order.Nodup)
    (hmem : ∀ i ∈ N, i ∈ order)
    (hties : ∀ i ∈ N, ∀ j ∈ order, j ∉ N → (keysTo t query)[i]? = (keysTo t query)[j]? → i < j →
      order.idxOf i < order.idxOf j) :
    m.Keeps query s.features s.labels := by
  obtain ⟨hfeatures, hlabels, -⟩ := Side.select_eq_ok.1 hs
  obtain ⟨hcols, hrows⟩ := Matrix.select_eq_ok.1 hfeatures
  have hlen : s.features.size = s.labels.length :=
    (length_selectAt hrows).trans (length_selectAt hlabels).symm
  have hforemost := ((nearest_iff_foremost hq).1 hN).select (selectAt_keysTo hfeatures query)
    hnodup hmem hties
  refine h.keeps_of_votes ht hq hN hcols hlen
    ((nearest_iff_foremost (hq.trans hcols.symm)).2 hforemost) ?_
  apply votesFor_image
  · intro i hi j _ heq
    exact (List.idxOf_inj (hmem i hi)).1 heq
  · intro i hi
    obtain ⟨l, hl, hil⟩ := getElem?_selectAt hlabels (List.getElem?_idxOf (hmem i hi))
    rw [hl, hil]

end NearestNeighbors.Model
