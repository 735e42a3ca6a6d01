import NearestNeighbors.Proofs.Classifier.Query

/-!
# Many queries and their score

A batch asks one query after the other, so it succeeds when each of them does. The score
compares what comes out with what is expected, position by position.

* `WellFormed.predictBatch_ok`: a batch of rows that are as long as the training rows.
* `WellFormed.mem_labels_of_batch`: what any batch of a well-formed model gives.
* `predictBatch_of_rows`: a batch whose rows are known one by one.
* `hits_eq_countP`: the hits by position.
* `score_ok`: the score of a batch that succeeds.
-/

namespace NearestNeighbors.Model

variable {m : Model} {t features : Matrix} {predictions labels : List Nat}

/-- **A batch gives one label for each row**, all of them from the training set. -/
theorem WellFormed.predictBatch_ok (h : m.WellFormed) (ht : m.features = some t)
    (hcols : features.cols = t.cols) (hlabels : ∀ l ∈ m.labels, l < maxCounters) :
    ∃ predictions, m.predictBatch features = .ok predictions ∧
      predictions.length = features.size ∧ ∀ l ∈ predictions, l ∈ m.labels := by
  apply mapM_ok_of_forall
  intro row hrow
  have hq : row.length = t.cols := (features.length_row row hrow).trans hcols
  exact h.predict_ok ht hq hlabels

/-- What a batch gives are labels of the training set. -/
theorem WellFormed.mem_labels_of_batch (h : m.WellFormed)
    (hp : m.predictBatch features = .ok predictions) : ∀ l ∈ predictions, l ∈ m.labels := by
  intro l hl
  have hrows : Except.ok l ∈ features.rows.map m.predict := by
    rw [mapM_eq_ok.1 hp]
    exact List.mem_map_of_mem hl
  obtain ⟨row, -, hrow⟩ := List.mem_map.1 hrows
  exact h.mem_labels hrow

/-- A batch gives the labels that its rows are predicted one by one. -/
theorem predictBatch_of_rows (hlen : features.size = labels.length)
    (h : ∀ (i : Nat) (row : List Float), features.rows[i]? = some row →
      ∃ l, labels[i]? = some l ∧ m.predict row = .ok l) :
    m.predictBatch features = .ok labels := by
  apply mapM_eq_ok.2
  apply List.ext_getElem?
  intro i
  rw [List.getElem?_map, List.getElem?_map]
  cases hrow : features.rows[i]? with
  | none =>
    have hi : labels.length ≤ i := hlen ▸ List.getElem?_eq_none_iff.1 hrow
    rw [List.getElem?_eq_none hi]
    rfl
  | some row =>
    obtain ⟨l, hil, hl⟩ := h i row hrow
    rw [hil, Option.map_some, Option.map_some, hl]

/-- The hits are the positions at which both lists have the same label. -/
theorem hits_eq_countP (h : predictions.length = labels.length) :
    hits predictions labels =
      (List.range labels.length).countP fun r => predictions[r]? = labels[r]? := by
  induction predictions generalizing labels with
  | nil =>
    cases labels with
    | nil => rfl
    | cons l labels => cases h
  | cons p predictions ih =>
    cases labels with
    | nil => cases h
    | cons l labels =>
      have hrest := ih (Nat.succ.inj h)
      unfold hits at hrest ⊢
      rw [List.zip_cons_cons, List.countP_cons, hrest, List.length_cons,
        List.range_succ_eq_map, List.countP_cons, List.countP_map]
      simp only [List.getElem?_cons_zero, Option.some.injEq, Function.comp_def,
        List.getElem?_cons_succ]

theorem score_ok (hlen : features.size = labels.length) (hne : labels ≠ [])
    (hp : m.predictBatch features = .ok predictions) :
    m.score features labels =
      .ok (Float.ofNat (hits predictions labels) / Float.ofNat labels.length) := by
  have hempty : ¬ labels.isEmpty := fun h => hne (List.isEmpty_iff.1 h)
  unfold score
  rw [if_neg fun h => h hlen, if_neg hempty, hp]
  rfl

end NearestNeighbors.Model
