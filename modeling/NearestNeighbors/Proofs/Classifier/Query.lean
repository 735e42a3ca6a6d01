import NearestNeighbors.Classifier
import NearestNeighbors.Proofs.Selection
import NearestNeighbors.Proofs.Vote

/-!
# The state of a classifier and what a query comes to

A model is well formed when it has no labels before it is fitted, and afterwards one
label for each row and no more voters than rows. Then a query of the right length never
leaves a list: its distances are those of rows of its own length, the voters have labels,
and the labels have counters.

* `fit_cases`, `fit_eq_ok_iff`: the four ways a fit can end, and the good one.
* `fit_wellFormed`: a fitted model is well formed, whatever it was before.
* `WellFormed.ballot`: the course of a query in a well-formed model.
* `WellFormed.predict_cases`, `WellFormed.mem_labels`: how a query can end.
* `WellFormed.predict_ok`: a query for which all votes can be counted.
-/

namespace NearestNeighbors.Model

variable {m m₀ : Model} {t : Matrix} {query : List Float} {labels : List Nat}

/-! ## Fitting -/

/-- **The four ways a fit can end.** The model it starts from gives its neighbours only. -/
theorem fit_cases (m : Model) (features : Matrix) (labels : List Nat) :
    (features.size ≠ labels.length ∧ m.fit features labels =
        (.error (.lengthMismatch features.size labels.length), .new m.neighbors)) ∨
      (features.size = labels.length ∧ features.size = 0 ∧
        m.fit features labels = (.error .empty, .new m.neighbors)) ∨
      (features.size = labels.length ∧ features.size ≠ 0 ∧
        (m.neighbors = 0 ∨ features.size < m.neighbors) ∧ m.fit features labels =
          (.error (.invalidNeighbors m.neighbors features.size), .new m.neighbors)) ∨
      (features.size = labels.length ∧ 1 ≤ m.neighbors ∧ m.neighbors ≤ features.size ∧
        m.fit features labels = (.ok (), ⟨m.neighbors, some features, labels⟩)) := by
  have hfit : m.fit features labels =
      if features.size ≠ labels.length then
        (.error (.lengthMismatch features.size labels.length), .new m.neighbors)
      else if features.size = 0 then (.error .empty, .new m.neighbors)
      else if m.neighbors = 0 ∨ features.size < m.neighbors then
        (.error (.invalidNeighbors m.neighbors features.size), .new m.neighbors)
      else (.ok (), ⟨m.neighbors, some features, labels⟩) := rfl
  rw [hfit]
  by_cases hlen : features.size = labels.length
  · rw [if_neg fun h => h hlen]
    by_cases hzero : features.size = 0
    · exact .inr (.inl ⟨hlen, hzero, if_pos hzero⟩)
    · rw [if_neg hzero]
      by_cases hk : m.neighbors = 0 ∨ features.size < m.neighbors
      · exact .inr (.inr (.inl ⟨hlen, hzero, hk, if_pos hk⟩))
      · exact .inr (.inr (.inr ⟨hlen, by omega, by omega, if_neg hk⟩))
  · exact .inl ⟨hlen, if_pos hlen⟩

/-- **A fitted model** keeps the training set. -/
theorem fit_eq_ok_iff : m₀.fit t labels = (.ok (), m) ↔
    t.size = labels.length ∧ 1 ≤ m₀.neighbors ∧ m₀.neighbors ≤ t.size ∧
      m = ⟨m₀.neighbors, some t, labels⟩ := by
  rcases fit_cases m₀ t labels with
    ⟨hlen, h⟩ | ⟨-, hzero, h⟩ | ⟨-, -, hk, h⟩ | ⟨hlen, hpos, hle, h⟩
  · rw [h]
    exact iff_of_false (fun h' => by cases h') fun h' => hlen h'.1
  · rw [h]
    exact iff_of_false (fun h' => by cases h') fun h' => by omega
  · rw [h]
    exact iff_of_false (fun h' => by cases h') fun h' => by omega
  · rw [h, Prod.mk.injEq, eq_comm (a := (⟨m₀.neighbors, some t, labels⟩ : Model))]
    exact ⟨fun h' => ⟨hlen, hpos, hle, h'.2⟩, fun h' => ⟨rfl, h'.2.2.2⟩⟩

/-! ## The invariant -/

/-- **A model is well formed**: what its three fields have to do with one another. -/
structure WellFormed (m : Model) : Prop where
  unfitted : m.features = none → m.labels = []
  aligned : ∀ t, m.features = some t → m.labels.length = t.size
  one_le : ∀ t, m.features = some t → 1 ≤ m.neighbors
  le_size : ∀ t, m.features = some t → m.neighbors ≤ t.size

theorem new_wellFormed (k : Nat) : (new k).WellFormed :=
  ⟨fun _ => rfl, fun _ h => (nomatch h), fun _ h => (nomatch h), fun _ h => (nomatch h)⟩

/-- A training set that passes the checks of a fit makes a well-formed model. -/
theorem fitted_wellFormed {k : Nat} {labels : List Nat} (hlen : t.size = labels.length)
    (hpos : 1 ≤ k) (hle : k ≤ t.size) : WellFormed ⟨k, some t, labels⟩ := by
  refine ⟨nofun, fun t' ht => ?_, fun _ _ => hpos, fun t' ht => ?_⟩
  · cases ht
    exact hlen.symm
  · cases ht
    exact hle

/-- Fitting makes a model well formed, also when it fails. -/
theorem fit_wellFormed (m : Model) (features : Matrix) (labels : List Nat) :
    (m.fit features labels).2.WellFormed := by
  rcases fit_cases m features labels with
    ⟨-, h⟩ | ⟨-, -, h⟩ | ⟨-, -, -, h⟩ | ⟨hlen, hpos, hle, h⟩
  · rw [h]; exact new_wellFormed _
  · rw [h]; exact new_wellFormed _
  · rw [h]; exact new_wellFormed _
  · rw [h]
    exact fitted_wellFormed hlen hpos hle

/-! ## Queries -/

theorem predict_unfitted (h : m.features = none) :
    m.predict query = .error (.error .notFitted) := by
  unfold predict
  rw [h]

theorem predict_of_length_ne (h : m.features = some t) (hq : query.length ≠ t.cols) :
    m.predict query = .error (.error (.dimensionMismatch t.cols query.length)) := by
  unfold predict
  rw [h]
  exact if_pos hq

theorem predict_of_length_eq (h : m.features = some t) (hq : query.length = t.cols) :
    m.predict query =
      nearest t m.neighbors query >>= fun positions => selectAt m.labels positions >>= vote := by
  unfold predict
  rw [h]
  exact if_neg fun h => h hq

/-- The distances of the training rows to a query of their length. -/
theorem distanceKeys_ok (hq : query.length = t.cols) :
    distanceKeys t query = .ok (t.rows.map fun row => Binary64.orderKey (euclidean row query)) := by
  unfold distanceKeys
  rw [mapM_eq_ok, List.map_map]
  apply List.map_congr_left
  intro row hrow
  rw [distance_of_length_eq ((t.length_row row hrow).trans hq.symm)]
  rfl

/-- The rows nearest to a query of their length: as many as asked for, where there are as
many, all different and all in the matrix. -/
theorem nearest_ok {k : Nat} (hq : query.length = t.cols) (hk : k ≤ t.size) :
    ∃ positions, nearest t k query = .ok positions ∧ positions.length = k ∧
      positions.Nodup ∧ ∀ i ∈ positions, i < t.size := by
  refine ⟨_, bind_eq_ok.2 ⟨_, distanceKeys_ok hq, rfl⟩, ?_, nodup_smallest, fun i hi => ?_⟩
  · rw [length_smallest, List.length_map]
    exact Nat.min_eq_left hk
  · have := lt_of_mem_smallest hi
    rwa [List.length_map] at this

/-- **The course of a query**: the rows it is compared with, who votes and how, and that
the vote ends with a winner or is too large to be counted. -/
structure Ballot (m : Model) (t : Matrix) (query : List Float) (positions votes : List Nat) :
    Prop where
  length_row : ∀ row ∈ t.rows, row.length = query.length
  nearest_eq : nearest t m.neighbors query = .ok positions
  nodup : positions.Nodup
  length_positions : positions.length = m.neighbors
  lt_length : ∀ i ∈ positions, i < m.labels.length
  selectAt_eq : selectAt m.labels positions = .ok votes
  length_votes : votes.length = m.neighbors
  counted : ∃ counts l, tally votes = .ok counts ∧ leader counts = .ok l
  predict_eq : m.predict query = vote votes
  ends : (∃ l, vote votes = .ok l ∧ Wins votes l) ∨
    vote votes = .error .capacity ∧ ∃ l ∈ votes, maxCounters ≤ l

/-- A query of the right length takes its course in a well-formed model. -/
theorem WellFormed.ballot (h : m.WellFormed) (ht : m.features = some t)
    (hq : query.length = t.cols) : ∃ positions votes, Ballot m t query positions votes := by
  obtain ⟨positions, hnear, hlen, hnodup, hlt⟩ := nearest_ok hq (h.le_size t ht)
  have hin : ∀ i ∈ positions, i < m.labels.length := by
    intro i hi
    rw [h.aligned t ht]
    exact hlt i hi
  obtain ⟨votes, hvotes⟩ := selectAt_of_lt hin
  have hlenv : votes.length = m.neighbors := (length_selectAt hvotes).trans hlen
  have hpredict : m.predict query = vote votes := by
    rw [predict_of_length_eq ht hq, hnear]
    show selectAt m.labels positions >>= vote = _
    rw [hvotes]
    rfl
  -- one row at least has a vote, so there is a winner
  have hne : votes ≠ [] := by
    intro hnil
    have := h.one_le t ht
    rw [hnil, List.length_nil] at hlenv
    omega
  obtain ⟨counts, l, htally, hl, -⟩ := tally_leader_ok hne
  exact ⟨positions, votes, {
    length_row := fun row hrow => (t.length_row row hrow).trans hq.symm
    nearest_eq := hnear
    nodup := hnodup
    length_positions := hlen
    lt_length := hin
    selectAt_eq := hvotes
    length_votes := hlenv
    counted := ⟨counts, l, htally, hl⟩
    predict_eq := hpredict
    ends := vote_cases hne }⟩

/-- The votes are for labels of the training set. -/
theorem Ballot.mem_labels {positions votes : List Nat} (h : Ballot m t query positions votes) :
    ∀ l ∈ votes, l ∈ m.labels :=
  fun _ hl => mem_of_mem_selectAt h.selectAt_eq hl

/-- A query that takes its course ends with a label or cannot be counted: no other failure
is left. -/
theorem Ballot.predict_cases {positions votes : List Nat} (h : Ballot m t query positions votes) :
    (∃ l ∈ votes, m.predict query = .ok l) ∨ m.predict query = .error .capacity := by
  rw [h.predict_eq]
  rcases h.ends with ⟨l, hl, hwins⟩ | ⟨hcap, -⟩
  · exact .inl ⟨l, hwins.mem, hl⟩
  · exact .inr hcap

/-- The three states in which a query finds a well-formed model. -/
theorem WellFormed.predict_cases (h : m.WellFormed) (query : List Float) :
    (m.features = none ∧ m.predict query = .error (.error .notFitted)) ∨
      (∃ t, m.features = some t ∧ query.length ≠ t.cols ∧
        m.predict query = .error (.error (.dimensionMismatch t.cols query.length))) ∨
      ∃ t positions votes, m.features = some t ∧ query.length = t.cols ∧
        Ballot m t query positions votes := by
  cases ht : m.features with
  | none => exact .inl ⟨rfl, predict_unfitted ht⟩
  | some t =>
    by_cases hq : query.length = t.cols
    · obtain ⟨positions, votes, hb⟩ := h.ballot ht hq
      exact .inr (.inr ⟨t, positions, votes, rfl, hq, hb⟩)
    · exact .inr (.inl ⟨t, rfl, hq, predict_of_length_ne ht hq⟩)

/-- **What is predicted is a label of the training set.** -/
theorem WellFormed.mem_labels (h : m.WellFormed) {l : Nat} (hl : m.predict query = .ok l) :
    l ∈ m.labels := by
  rcases h.predict_cases query with ⟨-, hp⟩ | ⟨t, -, -, hp⟩ | ⟨t, positions, votes, -, -, hb⟩
  · cases hp.symm.trans hl
  · cases hp.symm.trans hl
  · rcases hb.predict_cases with ⟨l', hl', hp⟩ | hp
    · cases hp.symm.trans hl
      exact hb.mem_labels l hl'
    · cases hp.symm.trans hl

/-- **A query ends with a label of the training set** when all of them can be counted. -/
theorem WellFormed.predict_ok (h : m.WellFormed) (ht : m.features = some t)
    (hq : query.length = t.cols) (hlabels : ∀ l ∈ m.labels, l < maxCounters) :
    ∃ l, m.predict query = .ok l ∧ l ∈ m.labels := by
  obtain ⟨positions, votes, hb⟩ := h.ballot ht hq
  rw [hb.predict_eq]
  rcases hb.ends with ⟨l, hl, hwins⟩ | ⟨-, l, hl, hbig⟩
  · exact ⟨l, hl, hb.mem_labels l hwins.mem⟩
  · -- a vote that cannot be counted would be for a label with no counter
    have := hlabels l (hb.mem_labels l hl)
    omega

end NearestNeighbors.Model
