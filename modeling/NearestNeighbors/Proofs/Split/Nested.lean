import NearestNeighbors.Proofs.Split.Partition

/-!
# Splits at two fractions are nested

The permutation does not know the fraction, so a larger fraction, which gives no smaller test
side, cuts the same permutation further on: the rows between the two cuts move from the front of
the train side to the end of the test side, and nothing else happens.

* `Side.Joins`: a side that is two sides one after the other.
* `Split.Nested`: what the splits at two fractions have to do with one another.
* `trainTestSplit_nested` (every data set and seed): splits are nested, and the split at a
  smaller fraction succeeds.
-/

namespace NearestNeighbors

variable {f₁ f₂ : Float} {features : Matrix} {labels : List Nat} {seed : UInt64}

/-! ## Sides -/

/-- A side has the rows of one side and after them those of another. -/
structure Side.Joins (s first second : Side) : Prop where
  cols_first : s.features.cols = first.features.cols
  cols_second : s.features.cols = second.features.cols
  rows_eq : s.features.rows = first.features.rows ++ second.features.rows
  labels_eq : s.labels = first.labels ++ second.labels
  indices_eq : s.indices = first.indices ++ second.indices

/-- Selecting at two rows of positions in turn. -/
theorem Side.select_joins {first second s : Side} {indices indices' : List Nat}
    (hfirst : select features labels indices = .ok first)
    (hsecond : select features labels indices' = .ok second)
    (hs : select features labels (indices ++ indices') = .ok s) : s.Joins first second := by
  obtain ⟨hrows₁, hlabels₁, rfl⟩ := select_eq_ok.1 hfirst
  obtain ⟨hrows₂, hlabels₂, rfl⟩ := select_eq_ok.1 hsecond
  obtain ⟨hrows, hlabels, hindices⟩ := select_eq_ok.1 hs
  obtain ⟨hcols₁, hrows₁⟩ := Matrix.select_eq_ok.1 hrows₁
  obtain ⟨hcols₂, hrows₂⟩ := Matrix.select_eq_ok.1 hrows₂
  obtain ⟨hcols, hrows⟩ := Matrix.select_eq_ok.1 hrows
  exact {
    cols_first := hcols.trans hcols₁.symm
    cols_second := hcols.trans hcols₂.symm
    rows_eq := Except.ok.inj (hrows.symm.trans (selectAt_append hrows₁ hrows₂))
    labels_eq := Except.ok.inj (hlabels.symm.trans (selectAt_append hlabels₁ hlabels₂))
    indices_eq := hindices }

/-! ## Splits -/

/-- **Splits are nested**: the smaller test side is the front of the larger one, the smaller
train side is the end of the larger one, and between them are the same rows, which moved from
the one to the other. They moved in the `order` of the permutation. -/
structure Split.Nested (order : List Nat) (small large : Split) : Prop where
  test_indices : small.test.indices <+: large.test.indices
  test_rows : small.test.features.rows <+: large.test.features.rows
  test_labels : small.test.labels <+: large.test.labels
  train_indices : large.train.indices <:+ small.train.indices
  train_rows : large.train.features.rows <:+ small.train.features.rows
  train_labels : large.train.labels <:+ small.train.labels
  moved : ∃ moved : Side, large.test.Joins small.test moved ∧
    small.train.Joins moved large.train ∧
    small.test.indices ++ moved.indices ++ large.train.indices = order

/-- Two cuts of one permutation. -/
theorem Split.nested_of_select {small large : Split} {positions : List Nat} {t₁ t₂ : Nat}
    (hlen : features.size = labels.length) (hpos : ∀ i ∈ positions, i < features.size)
    (hle : t₁ ≤ t₂)
    (htrain₁ : Side.select features labels (positions.drop t₁) = .ok small.train)
    (htest₁ : Side.select features labels (positions.take t₁) = .ok small.test)
    (htrain₂ : Side.select features labels (positions.drop t₂) = .ok large.train)
    (htest₂ : Side.select features labels (positions.take t₂) = .ok large.test) :
    Split.Nested positions small large := by
  obtain ⟨moved, hmoved⟩ : ∃ moved,
      Side.select features labels ((positions.drop t₁).take (t₂ - t₁)) = .ok moved := by
    apply Side.select_of_lt hlen
    intro i hi
    exact hpos i (List.mem_of_mem_drop (List.mem_of_mem_take hi))
  have htake : positions.take t₂ = positions.take t₁ ++ (positions.drop t₁).take (t₂ - t₁) := by
    rw [← List.take_add, Nat.add_sub_cancel' hle]
  have hdrop : positions.drop t₁ =
      (positions.drop t₁).take (t₂ - t₁) ++ positions.drop t₂ := by
    have hsplit := (List.take_append_drop (t₂ - t₁) (positions.drop t₁)).symm
    rwa [List.drop_drop, Nat.add_sub_cancel' hle] at hsplit
  have hall : small.test.indices ++ moved.indices ++ large.train.indices = positions := by
    rw [(Side.select_eq_ok.1 htest₁).2.2, (Side.select_eq_ok.1 hmoved).2.2,
      (Side.select_eq_ok.1 htrain₂).2.2, ← htake, List.take_append_drop]
  rw [htake] at htest₂
  rw [hdrop] at htrain₁
  have htest := Side.select_joins htest₁ hmoved htest₂
  have htrain := Side.select_joins hmoved htrain₂ htrain₁
  exact {
    test_indices := ⟨_, htest.indices_eq.symm⟩
    test_rows := ⟨_, htest.rows_eq.symm⟩
    test_labels := ⟨_, htest.labels_eq.symm⟩
    train_indices := ⟨_, htrain.indices_eq.symm⟩
    train_rows := ⟨_, htrain.rows_eq.symm⟩
    train_labels := ⟨_, htrain.labels_eq.symm⟩
    moved := ⟨moved, htest, htrain, hall⟩ }

/-- **Splits of one data set and seed are nested**, and below a fraction that splits it every
positive fraction does. -/
theorem trainTestSplit_nested {large : Split} (hle : f₁ ≤ f₂)
    (hlarge : trainTestSplit features labels f₂ seed = .ok large) :
    (∀ small, trainTestSplit features labels f₁ seed = .ok small →
        Split.Nested (permutation features.size seed) small large) ∧
      (0 < f₁ → ∃ small, trainTestSplit features labels f₁ seed = .ok small) := by
  obtain ⟨hlen, sizes₂, hsizes₂, htrain₂, htest₂⟩ := trainTestSplit_eq_ok_iff.1 hlarge
  obtain ⟨⟨-, h₁⟩, htest, rfl⟩ := splitSizes_eq_ok_iff.1 hsizes₂
  have hmono : 0 < f₁ → testSize features.size f₁ ≤ testSize features.size f₂ := by
    intro h₀
    exact testSize_mono le_rfl h₀ hle h₁
  constructor
  · intro small hsmall
    obtain ⟨-, sizes₁, hsizes₁, htrain₁, htest₁⟩ := trainTestSplit_eq_ok_iff.1 hsmall
    obtain ⟨⟨h₀, -⟩, -, rfl⟩ := splitSizes_eq_ok_iff.1 hsizes₁
    apply Split.nested_of_select hlen _ (hmono h₀) htrain₁ htest₁ htrain₂ htest₂
    intro i hi
    exact mem_permutation.1 hi
  · intro h₀
    have hsizes₁ := splitSizes_eq_ok_iff.2
      ⟨⟨h₀, Binary64.lt_one_of_fractions h₀ hle h₁⟩, (hmono h₀).trans_lt htest, rfl⟩
    obtain ⟨small, hsmall, -⟩ := trainTestSplit_of_sizes seed hlen hsizes₁
    exact ⟨small, hsmall⟩

/-- Four rows of one measurement each. -/
def fourRows : Matrix := ⟨1, [[0.5], [1.5], [2.5], [3.5]], by decide⟩

/-- One of four rows for testing, and two of them. -/
theorem trainTestSplit_fourRows : ∃ large,
    trainTestSplit fourRows [0, 1, 0, 1] 0.5 7 = .ok large ∧ large.test.indices.length = 2 ∧
      ∃ small, trainTestSplit fourRows [0, 1, 0, 1] 0.25 7 = .ok small ∧
        Split.Nested (permutation 4 7) small large := by
  have htest : testSize 4 0.5 = 2 := by decide +kernel
  have hsizes : splitSizes fourRows.size 0.5 = .ok ⟨2, 2⟩ := by
    apply splitSizes_eq_ok_iff.2
    show _ ∧ testSize 4 0.5 < 4 ∧ _ = SplitSizes.mk (4 - testSize 4 0.5) (testSize 4 0.5)
    rw [htest]
    exact ⟨by decide, by decide, rfl⟩
  have hlen : fourRows.size = [0, 1, 0, 1].length := rfl
  obtain ⟨large, hlarge, hpart⟩ := trainTestSplit_of_sizes 7 hlen hsizes
  have hle : (0.25 : Float) ≤ 0.5 := by decide
  obtain ⟨hnested, hexists⟩ := trainTestSplit_nested hle hlarge
  obtain ⟨small, hsmall⟩ := hexists (by decide)
  exact ⟨large, hlarge, hpart.length_test, small, hsmall, hnested small hsmall⟩

end NearestNeighbors
