import NearestNeighbors.Proofs.Classifier.Batch
import NearestNeighbors.Proofs.Classifier.Nearest
import NearestNeighbors.Proofs.Distance

/-!
# One neighbour recalls the training set

A finite row is at distance zero from itself, and no distance comes before zero. So the one row
that is nearest to a training row is at distance zero, too, and where rows at distance zero have
one label the training row gets its own back.

* `label_of_nearest`: the nearest row of a training row has its label.
* `one_neighbor_recalls` (every training set): all labels come back, and the score is one.
-/

namespace NearestNeighbors.Model

open Binary64

variable {features : Matrix} {labels : List ℕ} {row : List Float} {i : ℕ} {N : Finset ℕ}

/-- Rows at distance zero have one label. -/
def Consistent (features : Matrix) (labels : List ℕ) : Prop :=
  ∀ (i j : ℕ) (row row' : List Float), features.rows[i]? = some row →
    features.rows[j]? = some row' → distance row row' = some 0 → labels[i]? = labels[j]?

/-- **The nearest row of a training row has its label.** -/
theorem label_of_nearest (hfinite : ∀ x ∈ row, x.isFinite) (hcons : Consistent features labels)
    (hrow : features.rows[i]? = some row) (hN : Nearest features row 1 N) :
    ∀ j ∈ N, labels[j]? = labels[i]? := by
  intro j hj
  obtain ⟨j', rfl⟩ := Finset.card_eq_one.1 hN.card_eq
  obtain rfl : j = j' := Finset.mem_singleton.1 hj
  by_cases hij : i = j
  · rw [hij]
  have hlt : i < features.size := (List.getElem?_eq_some_iff.1 hrow).1
  have hnot : i ∉ ({j} : Finset ℕ) := fun h => hij (Finset.mem_singleton.1 h)
  obtain ⟨row₁, row₂, d, d', hrow₁, hrow₂, hd, hd', hcloser⟩ := hN.closer j hj i hlt hnot
  cases hrow₂.symm.trans hrow
  -- the row is at distance zero from itself, so the closer one is, too
  have hself : d' = 0 := by
    rw [distance_of_length_eq rfl, euclidean_self hfinite] at hd'
    exact (Option.some.inj hd').symm
  have hkey : orderKey d ≤ 0 := by
    rw [← orderKey_eq_zero_iff.2 hself]
    rcases hcloser with hlt | ⟨rfl, -⟩
    · exact (totalLt_iff.1 hlt).le
    · exact le_rfl
  have hlen : row₁.length = row.length := by
    rw [features.length_row row₁ (List.mem_of_getElem? hrow₁),
      features.length_row row (List.mem_of_getElem? hrow)]
  have hzero : d = 0 := by
    rw [distance_of_length_eq hlen, Option.some.injEq] at hd
    apply orderKey_eq_zero_iff.1
    apply le_antisymm hkey
    rw [← hd]
    exact orderKey_nonneg (unsigned_euclidean row₁ row)
  rw [hzero] at hd
  exact hcons j i row₁ row hrow₁ hrow hd

/-- All labels come out as expected when they are the expected ones. -/
theorem hits_self (labels : List ℕ) : hits labels labels = labels.length := by
  rw [hits_eq_countP rfl]
  simp

/-- **One neighbour recalls the training set.** Every training row is predicted its own label,
and the score of the training set is one. (A size is a word of 64 bits.) -/
theorem one_neighbor_recalls (hlen : features.size = labels.length) (hpos : 1 ≤ features.size)
    (hfinite : ∀ row ∈ features.rows, ∀ x ∈ row, x.isFinite)
    (hlabels : ∀ l ∈ labels, l < maxCounters) (hcons : Consistent features labels) :
    ∃ m, (Model.new 1).fit features labels = (.ok (), m) ∧
      (∀ (i : ℕ) (row : List Float), features.rows[i]? = some row →
        ∃ l, labels[i]? = some l ∧ m.predict row = .ok l) ∧
      (labels.length ≤ maxSize → m.score features labels = .ok 1) := by
  have hwf := fitted_wellFormed hlen le_rfl hpos
  have hpredict : ∀ (i : ℕ) (row : List Float), features.rows[i]? = some row →
      ∃ l, labels[i]? = some l ∧ predict ⟨1, some features, labels⟩ row = .ok l := by
    intro i row hrow
    have hmem := List.mem_of_getElem? hrow
    obtain ⟨N, hN⟩ := hwf.poll rfl (features.length_row row hmem)
    have hsame := label_of_nearest (hfinite row hmem) hcons hrow hN.nearest
    rcases hN.ends with ⟨l, hl, helected, -⟩ | ⟨-, j, hj, l, hjl, hlarge⟩
    · obtain ⟨j, hj, hjl⟩ := helected.occurs
      exact ⟨l, (hsame j hj).symm.trans hjl, hl⟩
    · have := hlabels l (List.mem_of_getElem? hjl)
      omega
  refine ⟨_, fit_eq_ok_iff.2 ⟨hlen, le_rfl, hpos, rfl⟩, hpredict, fun hsize => ?_⟩
  have hne : labels ≠ [] := by
    intro h
    rw [h, List.length_nil] at hlen
    omega
  have hbatch := predictBatch_of_rows hlen hpredict
  have hdiv := ofNat_div_self (List.length_pos_iff.2 hne) (hsize.trans (by decide))
  have hscore := score_ok hlen hne hbatch
  rwa [hits_self, hdiv] at hscore

/-- Three training rows, two of them alike. -/
def twins : Matrix := ⟨1, [[0], [1], [1]], by decide⟩

/-- Rows that are alike have one label, and all labels come back. -/
theorem one_neighbor_recalls_twins : ∃ m, (Model.new 1).fit twins [0, 1, 1] = (.ok (), m) ∧
    m.predict [0] = .ok 0 ∧ m.predict [1] = .ok 1 ∧ m.score twins [0, 1, 1] = .ok 1 := by
  have hfar : orderKey (euclidean [0] [1]) ≠ 0 := by decide +kernel
  have hcons : Consistent twins [0, 1, 1] := by
    rintro (_ | _ | _ | i) (_ | _ | _ | j) row row' hrow hrow' hd <;> cases hrow <;>
      cases hrow' <;>
        first
        | rfl
        | exact absurd (orderKey_eq_zero_iff.2 (Option.some.inj hd)) hfar
  obtain ⟨m, hfit, hpredict, hscore⟩ := one_neighbor_recalls (by decide) (by decide) (by decide)
    (by decide) hcons
  obtain ⟨l, hl, hzero⟩ := hpredict 0 [0] rfl
  obtain ⟨l', hl', hone⟩ := hpredict 1 [1] rfl
  cases hl
  cases hl'
  exact ⟨m, hfit, hzero, hone, hscore (by decide)⟩

end NearestNeighbors.Model
