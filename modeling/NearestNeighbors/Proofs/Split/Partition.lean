import NearestNeighbors.Proofs.Matrix
import NearestNeighbors.Proofs.Permutation
import NearestNeighbors.Proofs.Split.Sizes

/-!
# A split is a partition of the data set

The two sides take the permutation of the rows apart, so that each row is on one side and
once there. A row brings its label along: on either side rows, labels and positions are
three selections at the same positions.

* `Side.Aligned`: the three lists of a side fit together and come from the data set.
* `Split.Partitions`: what the two sides have to do with the data set and one another.
* `trainTestSplit_eq_ok_iff`: how a split comes about.
* `trainTestSplit_partition` (every data set): when a split fails, and that it is a
  partition when it does not.
-/

namespace NearestNeighbors

variable {features : Matrix} {labels indices : List Nat} {fraction : Float} {seed : UInt64}

/-! ## Sides -/

namespace Side

/-- The rows of a side, each with its label. -/
def pairs (s : Side) : List (List Float × Nat) := s.features.rows.zip s.labels

/-- **A side fits together**: row `r` and label `r` are those that the data set has at
position `r` of the indices. -/
structure Aligned (features : Matrix) (labels : List Nat) (s : Side) : Prop where
  cols_eq : s.features.cols = features.cols
  size_eq : s.features.size = s.indices.length
  length_labels : s.labels.length = s.indices.length
  row_eq : ∀ r i : Nat, s.indices[r]? = some i →
    ∃ row, s.features.rows[r]? = some row ∧ features.rows[i]? = some row
  label_eq : ∀ r i : Nat, s.indices[r]? = some i →
    ∃ label, s.labels[r]? = some label ∧ labels[i]? = some label

theorem select_eq_ok {s : Side} :
    select features labels indices = .ok s ↔ features.select indices = .ok s.features ∧
      selectAt labels indices = .ok s.labels ∧ s.indices = indices := by
  unfold select
  rw [bind_eq_ok]
  constructor
  · rintro ⟨rows, hrows, h⟩
    obtain ⟨chosen, hchosen, h⟩ := bind_eq_ok.1 h
    cases h
    exact ⟨hrows, hchosen, rfl⟩
  · rintro ⟨hrows, hchosen, rfl⟩
    exact ⟨s.features, hrows, bind_eq_ok.2 ⟨s.labels, hchosen, rfl⟩⟩

/-- Positions inside the data set make a side. -/
theorem select_of_lt (hlen : features.size = labels.length)
    (h : ∀ i ∈ indices, i < features.size) : ∃ s, select features labels indices = .ok s := by
  obtain ⟨rows, hrows⟩ := selectAt_of_lt (l := features.rows) h
  obtain ⟨chosen, hchosen⟩ := selectAt_of_lt (l := labels) fun i hi => hlen ▸ h i hi
  have hlength : ∀ row ∈ rows, row.length = features.cols := by
    intro row hrow
    exact features.length_row row (mem_of_mem_selectAt hrows hrow)
  exact ⟨⟨⟨features.cols, rows, hlength⟩, chosen, indices⟩,
    select_eq_ok.2 ⟨Matrix.select_eq_ok.2 ⟨rfl, hrows⟩, hchosen, rfl⟩⟩

theorem select_aligned {s : Side} (h : select features labels indices = .ok s) :
    s.Aligned features labels := by
  obtain ⟨hfeatures, hchosen, rfl⟩ := select_eq_ok.1 h
  obtain ⟨hcols, hrows⟩ := Matrix.select_eq_ok.1 hfeatures
  exact {
    cols_eq := hcols
    size_eq := length_selectAt hrows
    length_labels := length_selectAt hchosen
    row_eq := fun _ _ hi => getElem?_selectAt hrows hi
    label_eq := fun _ _ hi => getElem?_selectAt hchosen hi }

/-- The pairs of a side are a selection from the pairs of the data set. -/
theorem selectAt_pairs {s : Side} (h : select features labels indices = .ok s) :
    selectAt (features.rows.zip labels) indices = .ok s.pairs := by
  obtain ⟨hfeatures, hchosen, -⟩ := select_eq_ok.1 h
  exact selectAt_zip (Matrix.select_eq_ok.1 hfeatures).2 hchosen

end Side

/-! ## Splits -/

theorem cutAt_eq_ok {α : Type} {l first rest : List α} {n : Nat} :
    cutAt l n = .ok (first, rest) ↔ n ≤ l.length ∧ first = l.take n ∧ rest = l.drop n := by
  unfold cutAt
  split
  · rename_i hle
    rw [Except.ok.injEq, Prod.mk.injEq]
    exact ⟨fun h => ⟨hle, h.1.symm, h.2.symm⟩, fun h => ⟨h.2.1.symm, h.2.2.symm⟩⟩
  · rename_i hle
    exact iff_of_false nofun fun h => hle h.1

/-- **How a split comes about**: the sides are those at the first positions of the
permutation and at the others. -/
theorem trainTestSplit_eq_ok_iff {split : Split} :
    trainTestSplit features labels fraction seed = .ok split ↔
      features.size = labels.length ∧ ∃ sizes, splitSizes features.size fraction = .ok sizes ∧
        Side.select features labels ((permutation features.size seed).drop sizes.test) =
          .ok split.train ∧
        Side.select features labels ((permutation features.size seed).take sizes.test) =
          .ok split.test := by
  unfold trainTestSplit
  by_cases hlen : features.size = labels.length
  · rw [if_neg fun h => h hlen, bind_eq_ok]
    constructor
    · rintro ⟨sizes, hsizes, h⟩
      obtain ⟨⟨first, rest⟩, hcut, h⟩ := bind_eq_ok.1 h
      obtain ⟨train, htrain, h⟩ := bind_eq_ok.1 h
      obtain ⟨test, htest, h⟩ := bind_eq_ok.1 h
      cases h
      obtain ⟨-, rfl, rfl⟩ := cutAt_eq_ok.1 hcut
      exact ⟨hlen, sizes, orFail_eq_ok.1 hsizes, htrain, htest⟩
    · rintro ⟨-, sizes, hsizes, htrain, htest⟩
      -- the sizes add up, so the cut lies inside the permutation
      have hle : sizes.test ≤ (permutation features.size seed).length := by
        rw [length_permutation]
        have := splitSizes_ok hsizes
        omega
      refine ⟨sizes, orFail_eq_ok.2 hsizes, bind_eq_ok.2 ⟨_, cutAt_eq_ok.2 ⟨hle, rfl, rfl⟩, ?_⟩⟩
      exact bind_eq_ok.2 ⟨split.train, htrain, bind_eq_ok.2 ⟨split.test, htest, rfl⟩⟩
  · rw [if_pos hlen]
    exact iff_of_false nofun fun h => hlen h.1

/-- **A split is a partition** of a data set in sides of the given sizes. -/
structure Split.Partitions (features : Matrix) (labels : List Nat) (seed : UInt64)
    (sizes : SplitSizes) (split : Split) : Prop where
  indices_eq : split.test.indices ++ split.train.indices = permutation features.size seed
  length_test : split.test.indices.length = sizes.test
  length_train : split.train.indices.length = sizes.train
  /-- Each row is on one side, and once there; no other position is on any. -/
  count_indices : ∀ i, split.train.indices.count i + split.test.indices.count i =
    if i < features.size then 1 else 0
  train : split.train.Aligned features labels
  test : split.test.Aligned features labels
  pairs_perm : (split.train.pairs ++ split.test.pairs).Perm (features.rows.zip labels)

/-- A permutation that is cut in two gives a partition. -/
theorem Split.partitions_of_select {split : Split} {sizes : SplitSizes}
    (hlen : features.size = labels.length)
    (hadd : sizes.train + sizes.test = features.size)
    (htrain : Side.select features labels ((permutation features.size seed).drop sizes.test) =
      .ok split.train)
    (htest : Side.select features labels ((permutation features.size seed).take sizes.test) =
      .ok split.test) : split.Partitions features labels seed sizes := by
  have hdrop : split.train.indices = (permutation features.size seed).drop sizes.test :=
    (Side.select_eq_ok.1 htrain).2.2
  have htake : split.test.indices = (permutation features.size seed).take sizes.test :=
    (Side.select_eq_ok.1 htest).2.2
  have hindices : split.test.indices ++ split.train.indices = permutation features.size seed := by
    rw [hdrop, htake, List.take_append_drop]
  have hzip : (features.rows.zip labels).length = features.size := by
    rw [List.length_zip, ← hlen]
    exact Nat.min_self _
  refine ⟨hindices, ?_, ?_, fun i => ?_, Side.select_aligned htrain, Side.select_aligned htest, ?_⟩
  · rw [htake, List.length_take, length_permutation]
    omega
  · rw [hdrop, List.length_drop, length_permutation]
    omega
  · rw [Nat.add_comm, ← List.count_append, hindices]
    simp only [List.Nodup.count (nodup_permutation _ seed), mem_permutation]
  · -- both sides together are one selection, at all positions of the permutation
    have hall := selectAt_append (Side.selectAt_pairs htest) (Side.selectAt_pairs htrain)
    rw [List.take_append_drop] at hall
    have hperm := permutation_perm features.size seed
    rw [← hzip] at hperm
    exact List.perm_append_comm.trans (selectAt_perm (hzip ▸ hperm) hall)

/-- Sizes that are right make a split. -/
theorem trainTestSplit_of_sizes (seed : UInt64) {sizes : SplitSizes}
    (hlen : features.size = labels.length)
    (hsizes : splitSizes features.size fraction = .ok sizes) :
    ∃ split, trainTestSplit features labels fraction seed = .ok split ∧
      split.Partitions features labels seed sizes := by
  have hdrop : ∀ i ∈ (permutation features.size seed).drop sizes.test, i < features.size := by
    intro i hi
    exact mem_permutation.1 (List.mem_of_mem_drop hi)
  have htake : ∀ i ∈ (permutation features.size seed).take sizes.test, i < features.size := by
    intro i hi
    exact mem_permutation.1 (List.mem_of_mem_take hi)
  obtain ⟨train, htrain⟩ := Side.select_of_lt hlen hdrop
  obtain ⟨test, htest⟩ := Side.select_of_lt hlen htake
  exact ⟨⟨train, test⟩, trainTestSplit_eq_ok_iff.2 ⟨hlen, sizes, hsizes, htrain, htest⟩,
    Split.partitions_of_select hlen (splitSizes_ok hsizes).2.2 htrain htest⟩

theorem trainTestSplit_of_sizes_error {e : Error} (hlen : features.size = labels.length)
    (h : splitSizes features.size fraction = .error e) :
    trainTestSplit features labels fraction seed = .error (.error e) := by
  unfold trainTestSplit
  rw [if_neg fun hne => hne hlen, h]
  rfl

/-- The positions on either side depend on the number of rows, the fraction and the seed. -/
theorem indices_eq_of_size_eq {features' : Matrix} {labels' : List Nat} {split split' : Split}
    (hsize : features'.size = features.size)
    (h : trainTestSplit features labels fraction seed = .ok split)
    (h' : trainTestSplit features' labels' fraction seed = .ok split') :
    split'.train.indices = split.train.indices ∧ split'.test.indices = split.test.indices := by
  obtain ⟨-, sizes, hsizes, htrain, htest⟩ := trainTestSplit_eq_ok_iff.1 h
  obtain ⟨-, sizes', hsizes', htrain', htest'⟩ := trainTestSplit_eq_ok_iff.1 h'
  -- rows and labels do not come into the sizes or into the permutation
  rw [hsize, hsizes] at hsizes'
  cases hsizes'
  rw [(Side.select_eq_ok.1 htrain').2.2, (Side.select_eq_ok.1 htest').2.2, hsize,
    (Side.select_eq_ok.1 htrain).2.2, (Side.select_eq_ok.1 htest).2.2]
  exact ⟨rfl, rfl⟩

/-- **Every split is a lossless partition.** Rows and labels that are not equally many are
refused whatever the fraction is; otherwise a split fails as its sizes do; otherwise there
is one, it is a partition of the data set, and its positions are those of any other data
set with as many rows. -/
theorem trainTestSplit_partition (features : Matrix) (labels : List Nat) (fraction : Float)
    (seed : UInt64) :
    let result := trainTestSplit features labels fraction seed
    (features.size ≠ labels.length →
      result = .error (.error (.lengthMismatch features.size labels.length))) ∧
    (features.size = labels.length →
      (∀ failure, result = .error failure ↔
        ∃ e, failure = .error e ∧ splitSizes features.size fraction = .error e) ∧
      ∀ sizes, splitSizes features.size fraction = .ok sizes →
        ∃ split, result = .ok split ∧ split.Partitions features labels seed sizes ∧
          ∀ features' labels' split', features'.size = features.size →
            trainTestSplit features' labels' fraction seed = .ok split' →
            split'.train.indices = split.train.indices ∧
              split'.test.indices = split.test.indices) := by
  intro result
  refine ⟨fun hlen => if_pos hlen, fun hlen => ⟨fun failure => ?_, fun sizes hsizes => ?_⟩⟩
  · cases hs : splitSizes features.size fraction with
    | error e =>
      have hresult : result = .error (.error e) := trainTestSplit_of_sizes_error hlen hs
      rw [hresult]
      constructor
      · intro h
        cases h
        exact ⟨e, rfl, rfl⟩
      · rintro ⟨_, rfl, h⟩
        cases h
        rfl
    | ok sizes =>
      obtain ⟨split, hsplit, -⟩ := trainTestSplit_of_sizes seed hlen hs
      have hresult : result = .ok split := hsplit
      rw [hresult]
      exact iff_of_false nofun fun ⟨_, _, h⟩ => nomatch h
  · obtain ⟨split, hsplit, hpart⟩ := trainTestSplit_of_sizes seed hlen hsizes
    exact ⟨split, hsplit, hpart,
      fun _ _ _ hsize h' => indices_eq_of_size_eq hsize hsplit h'⟩

end NearestNeighbors
