import NearestNeighbors.Proofs.Binary64.TotalOrder
import NearestNeighbors.Proofs.Classifier.Query
import NearestNeighbors.Proofs.Ranking

/-!
# The nearest rows elect the label

A query has one set of `k` nearest training rows: of two rows the one at the smaller distance is
nearer, in the total order of doubles, and of two at one distance the one further to the front.
These rows elect the label, each with one vote, and the labels of all other rows do not matter.

* `Closer`, `Nearest`: which of two rows is nearer, and the rows nearest to a query.
* `votesFor`, `Elected`: how many rows have a label, and the label that most of them have.
* `WellFormed.poll`: the nearest rows are the voters.
* `predict_elected` (every fitted model): the nearest rows elect the label, unless one of their
  labels is too large to be counted.
-/

namespace NearestNeighbors.Model

open Binary64

variable {m m₀ : Model} {t : Matrix} {query : List Float} {labels votes : List ℕ} {k : ℕ}
  {N : Finset ℕ}

/-! ## Nearest rows -/

/-- Row `i` is closer to the query than row `j`: its distance comes first in the total order, or
both distances are the same and `i` is further to the front. -/
def Closer (t : Matrix) (query : List Float) (i j : ℕ) : Prop :=
  ∃ row row' d d', t.rows[i]? = some row ∧ t.rows[j]? = some row' ∧
    distance row query = some d ∧ distance row' query = some d' ∧
      (TotalLt d d' ∨ d = d' ∧ i < j)

/-- **The nearest rows**: `k` of them, and each is closer than any other row. -/
structure Nearest (t : Matrix) (query : List Float) (k : ℕ) (N : Finset ℕ) : Prop where
  lt_size : ∀ i ∈ N, i < t.size
  card_eq : N.card = k
  closer : ∀ i ∈ N, ∀ j < t.size, j ∉ N → Closer t query i j

/-- The place of each training row in the order of distances. -/
def keysTo (t : Matrix) (query : List Float) : List ℤ :=
  t.rows.map fun row => orderKey (euclidean row query)

theorem length_keysTo (t : Matrix) (query : List Float) : (keysTo t query).length = t.size :=
  List.length_map _

/-- The closer row is the one with the key before. -/
theorem closer_iff_before (hq : query.length = t.cols) {i j : ℕ} :
    Closer t query i j ↔ Before (keysTo t query) i j := by
  have hdist : ∀ {n : ℕ} {row}, t.rows[n]? = some row →
      distance row query = some (euclidean row query) := by
    intro n row hrow
    exact distance_of_length_eq ((t.length_row row (List.mem_of_getElem? hrow)).trans hq.symm)
  unfold Before keysTo
  constructor
  · rintro ⟨row, row', d, d', hrow, hrow', hd, hd', hlt⟩
    rw [hdist hrow] at hd
    rw [hdist hrow'] at hd'
    cases hd
    cases hd'
    refine ⟨_, _, ?_, ?_, hlt.imp totalLt_iff.1 ?_⟩
    · rw [List.getElem?_map, hrow]
      rfl
    · rw [List.getElem?_map, hrow']
      rfl
    · rintro ⟨heq, hij⟩
      exact ⟨by rw [heq], hij⟩
  · rintro ⟨a, b, ha, hb, hlt⟩
    rw [List.getElem?_map, Option.map_eq_some_iff] at ha hb
    obtain ⟨row, hrow, rfl⟩ := ha
    obtain ⟨row', hrow', rfl⟩ := hb
    refine ⟨row, row', _, _, hrow, hrow', hdist hrow, hdist hrow', hlt.imp totalLt_iff.2 ?_⟩
    rintro ⟨heq, hij⟩
    exact ⟨orderKey_injective heq, hij⟩

/-- The nearest rows are those with the foremost keys. -/
theorem nearest_iff_foremost (hq : query.length = t.cols) :
    Nearest t query k N ↔ Foremost (keysTo t query) k N := by
  have hlen := length_keysTo t query
  constructor
  · rintro ⟨hlt, hcard, hcloser⟩
    refine ⟨fun i hi => by rw [hlen]; exact hlt i hi, hcard, fun i hi j hj hnot => ?_⟩
    rw [hlen] at hj
    exact (closer_iff_before hq).1 (hcloser i hi j hj hnot)
  · rintro ⟨hlt, hcard, hbefore⟩
    refine ⟨fun i hi => by rw [← hlen]; exact hlt i hi, hcard, fun i hi j hj hnot => ?_⟩
    rw [← hlen] at hj
    exact (closer_iff_before hq).2 (hbefore i hi j hj hnot)

/-! ## Elections -/

/-- How many of the rows `N` have the label `l`. -/
def votesFor (labels : List ℕ) (N : Finset ℕ) (l : ℕ) : ℕ :=
  (N.filter fun i => labels[i]? = some l).card

/-- **The rows `N` elect the label `l`**: one of them has it, no label is more frequent among
them, and every label that is as frequent is no lower. -/
structure Elected (labels : List ℕ) (N : Finset ℕ) (l : ℕ) : Prop where
  occurs : ∃ i ∈ N, labels[i]? = some l
  most : ∀ x, votesFor labels N x ≤ votesFor labels N l
  lowest : ∀ x, votesFor labels N x = votesFor labels N l → l ≤ x

/-- The votes at different positions are those of the rows at these positions. -/
theorem count_eq_votesFor {positions : List ℕ} (hnodup : positions.Nodup)
    (h : selectAt labels positions = .ok votes) (l : ℕ) :
    votes.count l = votesFor labels positions.toFinset l := by
  have hfilter : (positions.filter fun i => labels[i]? = some l).toFinset =
      positions.toFinset.filter fun i => labels[i]? = some l := by
    ext i
    simp
  calc votes.count l = (votes.map some).count (some l) :=
        (List.count_map_of_injective votes some (Option.some_injective ℕ) l).symm
    _ = (positions.map (labels[·]?)).count (some l) := by rw [selectAt_eq_ok.1 h]
    _ = (positions.filter fun i => labels[i]? = some l).length := by
      rw [List.count_eq_countP, List.countP_map, List.countP_eq_length_filter]
      congr 1
      apply List.filter_congr
      intro i _
      simp only [Function.comp_apply, beq_eq_decide]
    _ = votesFor labels positions.toFinset l := by
      unfold votesFor
      rw [← hfilter, List.toFinset_card_of_nodup (hnodup.filter _)]

theorem mem_selectAt_iff {positions : List ℕ} (h : selectAt labels positions = .ok votes) {l : ℕ} :
    l ∈ votes ↔ ∃ i ∈ positions.toFinset, labels[i]? = some l := by
  have hmem : l ∈ votes ↔ some l ∈ votes.map some := by simp
  rw [hmem, ← selectAt_eq_ok.1 h, List.mem_map]
  simp only [List.mem_toFinset]

/-- The winner of the votes is elected. -/
theorem elected_of_wins {positions : List ℕ} (hnodup : positions.Nodup)
    (h : selectAt labels positions = .ok votes) {l : ℕ} (hl : Wins votes l) :
    Elected labels positions.toFinset l := by
  refine ⟨(mem_selectAt_iff h).1 hl.mem, fun x => ?_, fun x hx => hl.lowest x ?_⟩
  · rw [← count_eq_votesFor hnodup h, ← count_eq_votesFor hnodup h]
    exact hl.most x
  · rw [count_eq_votesFor hnodup h, count_eq_votesFor hnodup h, hx]

/-! ## Queries -/

/-- **The nearest rows are the voters.** -/
structure Poll (m : Model) (t : Matrix) (query : List Float) (N : Finset ℕ) : Prop where
  nearest : Nearest t query m.neighbors N
  ends : (∃ l, m.predict query = .ok l ∧ Elected m.labels N l ∧
      ∀ i ∈ N, ∀ l', m.labels[i]? = some l' → l' < maxCounters) ∨
    m.predict query = .error .capacity ∧ ∃ i ∈ N, ∃ l, m.labels[i]? = some l ∧ maxCounters ≤ l

/-- The nearest rows are at the smallest keys. -/
theorem nearest_eq_ok {positions : List ℕ} (hq : query.length = t.cols) :
    nearest t k query = .ok positions ↔ positions = smallest k (keysTo t query) := by
  have hnearest : nearest t k query = .ok (smallest k (keysTo t query)) := by
    unfold nearest
    rw [distanceKeys_ok hq]
    rfl
  rw [hnearest, Except.ok.injEq, eq_comm]

theorem Ballot.positions_eq {positions : List ℕ} (hb : Ballot m t query positions votes)
    (hq : query.length = t.cols) : positions = smallest m.neighbors (keysTo t query) :=
  (nearest_eq_ok hq).1 hb.nearest_eq

/-- The positions that a query comes up with are those of the nearest rows. -/
theorem nearest_toFinset {positions : List ℕ} (hq : query.length = t.cols) (hk : k ≤ t.size)
    (h : nearest t k query = .ok positions) : Nearest t query k positions.toFinset := by
  rw [nearest_iff_foremost hq, (nearest_eq_ok hq).1 h]
  apply smallest_foremost
  rwa [length_keysTo]

theorem WellFormed.poll (h : m.WellFormed) (ht : m.features = some t)
    (hq : query.length = t.cols) : ∃ N, Poll m t query N := by
  obtain ⟨positions, votes, hb⟩ := h.ballot ht hq
  refine ⟨positions.toFinset, ⟨nearest_toFinset hq (h.le_size t ht) hb.nearest_eq, ?_⟩⟩
  rw [hb.predict_eq]
  rcases hb.ends with ⟨l, hl, hwins⟩ | ⟨hcap, l, hl, hlarge⟩
  · refine .inl ⟨l, hl, elected_of_wins hb.nodup hb.selectAt_eq hwins, ?_⟩
    intro i hi l' hl'
    by_contra hlarge
    have hmem := (mem_selectAt_iff hb.selectAt_eq).2 ⟨i, hi, hl'⟩
    cases hl.symm.trans (vote_of_large hmem (not_lt.1 hlarge))
  · obtain ⟨i, hi, hil⟩ := (mem_selectAt_iff hb.selectAt_eq).1 hl
    exact .inr ⟨hcap, i, hi, l, hil, hlarge⟩

/-- **A prediction is the vote of the nearest rows.** A query of the right length has one set of
nearest rows. They elect the label that is predicted when all their labels can be counted, and
only when one of them cannot is there no prediction. -/
theorem predict_elected (hfit : m₀.fit t labels = (.ok (), m)) (hq : query.length = t.cols) :
    (∃! N, Nearest t query m₀.neighbors N) ∧
      ∀ N, Nearest t query m₀.neighbors N →
        ((∀ i ∈ N, ∀ l, labels[i]? = some l → l < maxCounters) →
          ∃ l, m.predict query = .ok l ∧ Elected labels N l) ∧
        ((∃ i ∈ N, ∃ l, labels[i]? = some l ∧ maxCounters ≤ l) →
          m.predict query = .error .capacity) := by
  obtain ⟨hlen, hpos, hle, rfl⟩ := fit_eq_ok_iff.1 hfit
  have hwf := fitted_wellFormed hlen hpos hle
  obtain ⟨N, hN⟩ := hwf.poll rfl hq
  have hunique : ∀ N', Nearest t query m₀.neighbors N' → N' = N := by
    intro N' hN'
    exact ((nearest_iff_foremost hq).1 hN.nearest).unique ((nearest_iff_foremost hq).1 hN')
  refine ⟨⟨N, hN.nearest, hunique⟩, fun N' hN' => ?_⟩
  rw [hunique N' hN']
  rcases hN.ends with ⟨l, hl, helected, hall⟩ | ⟨hcap, i, hi, l, hil, hlarge⟩
  · refine ⟨fun _ => ⟨l, hl, helected⟩, ?_⟩
    rintro ⟨i, hi, l', hil, hlarge⟩
    exact absurd (hall i hi l' hil) (not_lt.2 hlarge)
  · refine ⟨fun hall => ?_, fun _ => hcap⟩
    exact absurd (hall i hi l hil) (not_lt.2 hlarge)

/-- Four training rows with one measurement each. -/
def fourPoints : Matrix := ⟨1, [[0], [1], [2], [4]], by decide⟩

/-- The first and the third of them are at one distance from `1`. -/
theorem keysTo_fourPoints : keysTo fourPoints [1] =
    [4607182418800017408, 0, 4607182418800017408, 4613937818241073152] := by
  decide +kernel

/-- The second row is nearest to `1`. Of the first and the third, which are at one distance, the
first is nearer. -/
theorem nearest_fourPoints : Nearest fourPoints [1] 2 {0, 1} := by
  apply (nearest_iff_foremost rfl).2
  rw [keysTo_fourPoints]
  refine ⟨by decide, rfl, ?_⟩
  intro i hi j (hj : j < 4) hrest
  have hi' : i = 0 ∨ i = 1 := by simpa using hi
  have hj' : j = 2 ∨ j = 3 := by
    simp only [Finset.mem_insert, Finset.mem_singleton, not_or] at hrest
    omega
  rcases hi' with rfl | rfl <;> rcases hj' with rfl | rfl <;> exact ⟨_, _, rfl, rfl, by decide⟩

/-- The label of the third row is too large to be counted, and it does not matter. That of the
second row does. -/
theorem predict_elected_fourPoints :
    (∃ m l, (Model.new 2).fit fourPoints [0, 1, maxCounters, 1] = (.ok (), m) ∧
      m.predict [1] = .ok l ∧ Elected [0, 1, maxCounters, 1] {0, 1} l) ∧
    ∃ m, (Model.new 2).fit fourPoints [0, maxCounters, 1, 1] = (.ok (), m) ∧
      m.predict [1] = .error .capacity := by
  have hfit : ∀ labels : List ℕ, labels.length = 4 →
      (Model.new 2).fit fourPoints labels = (.ok (), ⟨2, some fourPoints, labels⟩) := by
    intro labels hlen
    exact fit_eq_ok_iff.2 ⟨hlen.symm, by decide, by decide, rfl⟩
  have hq : [(1 : Float)].length = fourPoints.cols := rfl
  constructor
  · obtain ⟨-, hall⟩ := predict_elected (hfit [0, 1, maxCounters, 1] rfl) hq
    obtain ⟨l, hl, helected⟩ := (hall {0, 1} nearest_fourPoints).1 (by simp [maxCounters])
    exact ⟨_, l, hfit _ rfl, hl, helected⟩
  · obtain ⟨-, hall⟩ := predict_elected (hfit [0, maxCounters, 1, 1] rfl) hq
    have hcap := (hall {0, 1} nearest_fourPoints).2 ⟨1, by simp, maxCounters, rfl, le_rfl⟩
    exact ⟨_, hfit _ rfl, hcap⟩

end NearestNeighbors.Model
