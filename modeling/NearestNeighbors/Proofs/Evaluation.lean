import NearestNeighbors.Proofs.Classifier.Batch
import NearestNeighbors.Proofs.Dataset
import NearestNeighbors.Proofs.Split.Partition

/-!
# Learning from one side of a split and testing on the other

What one stage leaves behind is what the next one asks for: the sides of a split have as
many labels as rows and neither is empty, the test side is as wide as the train side, and
labels of species can all be counted.

* `SplitOutcome`: how splitting a data set ends.
* `Split.Usable`: what a split brings to the model.
* `Scored`, `Evaluation`: what a model finds out, and how it learns from a split.
* `Dataset.WellFormed.split_outcome`, `Dataset.WellFormed.usable`,
  `Split.Usable.evaluation`: how these follow from one another.
-/

namespace NearestNeighbors

variable {d : Dataset} {fraction : Float} {seed : UInt64} {split : Split}

/-! ## Splitting -/

/-- **How splitting a data set ends**: it fails for the fraction or, the fraction being
right, for an empty train side. -/
structure SplitOutcome (d : Dataset) (fraction : Float) (result : Except Failure Split) :
    Prop where
  invalidTestFraction_iff : ∀ x, result = .error (.error (.invalidTestFraction x)) ↔
    x = fraction ∧ InvalidFraction fraction
  degenerateSplit_iff : ∀ samples train test,
    result = .error (.error (.degenerateSplit samples train test)) ↔
      ¬ InvalidFraction fraction ∧ d.size - testSize d.size fraction = 0 ∧
        samples = d.size ∧ train = 0 ∧ test = testSize d.size fraction
  ok : ¬ InvalidFraction fraction → 0 < d.size - testSize d.size fraction →
    ∃ split, result = .ok split

theorem Dataset.WellFormed.split_outcome (hd : d.WellFormed) (fraction : Float) (seed : UInt64) :
    SplitOutcome d fraction (trainTestSplit d.features d.labels fraction seed) := by
  have hsize : d.features.size = d.size := hd.size_eq
  have hfail : ∀ e, splitSizes d.size fraction = .error e →
      trainTestSplit d.features d.labels fraction seed = .error (.error e) := by
    intro e he
    rw [← hsize] at he
    exact trainTestSplit_of_sizes_error hd.size_eq he
  rcases splitSizes_cases d.size fraction with
    ⟨hf, hs⟩ | ⟨hf, htrain, hs⟩ | ⟨hf, htrain, hs⟩
  · rw [hfail _ hs]
    exact {
      invalidTestFraction_iff := by
        intro x
        constructor
        · intro h
          cases h
          exact ⟨rfl, hf⟩
        · rintro ⟨rfl, -⟩
          rfl
      degenerateSplit_iff := fun _ _ _ => iff_of_false nofun fun h => h.1 hf
      ok := fun h => absurd hf h }
  · rw [hfail _ hs]
    exact {
      invalidTestFraction_iff := fun _ => iff_of_false nofun fun h => hf h.2
      degenerateSplit_iff := by
        intro samples train test
        constructor
        · intro h
          cases h
          exact ⟨hf, htrain, rfl, rfl, rfl⟩
        · rintro ⟨-, -, rfl, rfl, rfl⟩
          rfl
      ok := fun _ h => by omega }
  · rw [← hsize] at hs
    obtain ⟨split, hsplit, -⟩ := trainTestSplit_of_sizes seed hd.size_eq hs
    rw [hsplit]
    exact {
      invalidTestFraction_iff := fun _ => iff_of_false nofun fun h => hf h.2
      degenerateSplit_iff := fun _ _ _ => iff_of_false nofun fun h => by omega
      ok := fun _ _ => ⟨split, rfl⟩ }

/-! ## Learning -/

/-- **What a model finds out about the test side**: a label for each row, all of them
labels of the train side, and the part of them that is as expected. -/
structure Scored (m : Model) (split : Split) (predictions : List Nat) : Prop where
  predictBatch_eq : m.predictBatch split.test.features = .ok predictions
  length_predictions : predictions.length = split.test.indices.length
  lt_three : ∀ l ∈ predictions, l < 3
  mem_train : ∀ l ∈ predictions, l ∈ split.train.labels
  score_eq : m.score split.test.features split.test.labels = .ok (
    Float.ofNat ((List.range split.test.indices.length).countP fun r =>
      predictions[r]? = split.test.labels[r]?) / Float.ofNat split.test.indices.length)

/-- **How a model with `k` neighbours learns from a split**: it can be fitted unless no
row or more rows than there are should vote, and then it scores. -/
structure Evaluation (k : Nat) (split : Split) : Prop where
  fit_error_iff : ∀ e, ((Model.new k).fit split.train.features split.train.labels).1 = .error e ↔
    (k = 0 ∨ split.train.indices.length < k) ∧ e = .invalidNeighbors k split.train.indices.length
  scored : ∀ m, (Model.new k).fit split.train.features split.train.labels = (.ok (), m) →
    ∃ predictions, Scored m split predictions

/-- What a split of a well-formed data set brings to the next stage. -/
structure Split.Usable (split : Split) : Prop where
  train_size : split.train.features.size = split.train.indices.length
  train_labels : split.train.labels.length = split.train.indices.length
  train_pos : 0 < split.train.indices.length
  test_size : split.test.features.size = split.test.indices.length
  test_labels : split.test.labels.length = split.test.indices.length
  test_pos : 0 < split.test.indices.length
  cols_eq : split.test.features.cols = split.train.features.cols
  label_lt : ∀ l ∈ split.train.labels, l < 3

theorem Dataset.WellFormed.usable (hd : d.WellFormed)
    (h : trainTestSplit d.features d.labels fraction seed = .ok split) : split.Usable := by
  obtain ⟨hlen, sizes, hsizes, htrain, htest⟩ := trainTestSplit_eq_ok_iff.1 h
  obtain ⟨hpos, hpos', hadd⟩ := splitSizes_ok hsizes
  have hpart := Split.partitions_of_select hlen hadd htrain htest
  exact {
    train_size := hpart.train.size_eq
    train_labels := hpart.train.length_labels
    train_pos := by rw [hpart.length_train]; exact hpos
    test_size := hpart.test.size_eq
    test_labels := hpart.test.length_labels
    test_pos := by rw [hpart.length_test]; exact hpos'
    cols_eq := hpart.test.cols_eq.trans hpart.train.cols_eq.symm
    label_lt := fun l hl =>
      hd.label_lt l (mem_of_mem_selectAt (Side.select_eq_ok.1 htrain).2.1 hl) }

namespace Split.Usable

/-- A model fitted on the train side scores on the test side. -/
theorem scored (hs : split.Usable) {k : Nat} (hpos : 1 ≤ k)
    (hle : k ≤ split.train.features.size) :
    ∃ predictions, Scored ⟨k, some split.train.features, split.train.labels⟩ split predictions := by
  have hwf : Model.WellFormed ⟨k, some split.train.features, split.train.labels⟩ :=
    Model.fitted_wellFormed (hs.train_size.trans hs.train_labels.symm) hpos hle
  have hcounted : ∀ l ∈ split.train.labels, l < maxCounters := by
    intro l hl
    exact Nat.lt_trans (hs.label_lt l hl) (by decide)
  obtain ⟨predictions, hp, hlen, hmem⟩ := hwf.predictBatch_ok rfl hs.cols_eq hcounted
  have hne : split.test.labels ≠ [] := by
    intro h
    have hlabels := hs.test_labels
    rw [h, List.length_nil] at hlabels
    have := hs.test_pos
    omega
  have hscore := Model.score_ok (hs.test_size.trans hs.test_labels.symm) hne hp
  rw [Model.hits_eq_countP ((hlen.trans hs.test_size).trans hs.test_labels.symm),
    hs.test_labels] at hscore
  exact ⟨predictions, {
    predictBatch_eq := hp
    length_predictions := hlen.trans hs.test_size
    lt_three := fun l hl => hs.label_lt l (hmem l hl)
    mem_train := hmem
    score_eq := hscore }⟩

theorem evaluation (hs : split.Usable) (k : Nat) : Evaluation k split := by
  have hlabels := hs.train_labels
  have hsize := hs.train_size
  have hrows := hs.train_pos
  rcases Model.fit_cases (.new k) split.train.features split.train.labels with
    ⟨hlen, -⟩ | ⟨-, hzero, -⟩ | ⟨-, -, hk, h⟩ | ⟨-, hpos, hle, h⟩
  -- rows and labels of the train side are equally many, and there is one
  · exact absurd (hsize.trans hlabels.symm) hlen
  · omega
  · rw [hsize] at hk h
    refine ⟨fun e => ?_, fun m hm => ?_⟩
    · rw [h]
      constructor
      · intro he
        cases he
        exact ⟨hk, rfl⟩
      · rintro ⟨-, rfl⟩
        rfl
    · cases h.symm.trans hm
  · refine ⟨fun e => ?_, fun m hm => ?_⟩
    · rw [h]
      refine iff_of_false nofun fun hfail => ?_
      have hk := hfail.1
      have hpos : 1 ≤ k := hpos
      have hle : k ≤ split.train.features.size := hle
      omega
    · cases h.symm.trans hm
      exact hs.scored hpos hle

end Split.Usable

end NearestNeighbors
