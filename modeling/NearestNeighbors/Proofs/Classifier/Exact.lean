import NearestNeighbors.Proofs.Classifier.Nearest
import NearestNeighbors.Proofs.Distance

/-!
# Whole numbers are classified exactly

On whole numbers that are not too far apart the distances are the roots of the exact squares,
and different squares have different roots, in the same order. So the classifier, with all its
rounding, ranks the training rows as exact arithmetic does and predicts the same label.

* `keysTo_integral`: the keys are those of the exact squares.
* `predict_integral` (every fitted model): the label is that of exact arithmetic.
-/

namespace NearestNeighbors.Model

open Binary64

variable {m m₀ : Model} {t : Matrix} {query : List Float} {labels : List ℕ}
  {rows : List (List ℤ)} {point : List ℤ}

/-- The key of the distance whose exact square is `n`. -/
def rootKey (n : ℕ) : ℤ := orderKey (Float.ofNat n).sqrt

theorem rootKey_lt_iff {a b : ℕ} (ha : a ≤ 2 ^ 50) (hb : b ≤ 2 ^ 50) :
    rootKey a < rootKey b ↔ a < b := by
  constructor
  · intro h
    by_contra hle
    rcases (not_lt.1 hle).lt_or_eq with hlt | rfl
    · exact lt_asymm h (sqrt_ofNat_lt hlt ha)
    · exact lt_irrefl _ h
  · intro h
    exact sqrt_ofNat_lt h hb

/-- The places of the training rows are those of the exact squares. -/
theorem keysTo_integral (hrows : List.Forall₂ Integral t.rows rows) (hquery : Integral query point)
    (hbound : ∀ row ∈ rows, squaredDistance row point ≤ 2 ^ 50) :
    keysTo t query = (rows.map (squaredDistance · point)).map rootKey := by
  unfold keysTo
  generalize t.rows = floats at hrows
  induction hrows with
  | nil => rfl
  | @cons row zs _ _ hrow _ ih =>
    have hle : squaredDistance zs point ≤ 2 ^ 50 := hbound zs List.mem_cons_self
    rw [List.map_cons, List.map_cons, List.map_cons,
      ih fun row hmem => hbound row (List.mem_cons_of_mem _ hmem),
      euclidean_exact hrow hquery (hle.trans (by norm_num))]
    rfl

/-- **On whole numbers the classifier is exact.** There is one order of the training rows by
their exact squared distances, and of equal ones by their positions. The first rows of this
order vote, and the label that wins is predicted. -/
theorem predict_integral (hfit : m₀.fit t labels = (.ok (), m))
    (hq : query.length = t.cols) (hrows : List.Forall₂ Integral t.rows rows)
    (hquery : Integral query point)
    (hbound : ∀ row ∈ rows, squaredDistance row point ≤ 2 ^ 50)
    (hlabels : ∀ l ∈ labels, l < maxCounters) :
    ∃ order, Ranking (rows.map (squaredDistance · point)) order ∧
      (∀ order', Ranking (rows.map (squaredDistance · point)) order' → order' = order) ∧
      ∃ votes l, selectAt labels (order.take m₀.neighbors) = .ok votes ∧ Wins votes l ∧
        m.predict query = .ok l := by
  obtain ⟨hlen, hpos, hle, rfl⟩ := fit_eq_ok_iff.1 hfit
  obtain ⟨positions, votes, hb⟩ := (fitted_wellFormed hlen hpos hle).ballot rfl hq
  have hranking := ranking_sorted (keysTo t query)
  have hpositions := hb.positions_eq hq
  rw [smallest_eq_take] at hpositions
  generalize horder : sortedPositions (keysTo t query) = order at hranking
  have hexact : Ranking (rows.map (squaredDistance · point)) order := by
    rw [keysTo_integral hrows hquery hbound] at hranking
    apply hranking.of_map
    intro a ha b hb
    obtain ⟨row, hrow, rfl⟩ := List.mem_map.1 ha
    obtain ⟨row', hrow', rfl⟩ := List.mem_map.1 hb
    exact rootKey_lt_iff (hbound row hrow) (hbound row' hrow')
  refine ⟨order, hexact, fun order' h' => h'.unique hexact, votes, ?_⟩
  rw [hb.predict_eq, ← horder]
  rcases hb.ends with ⟨l, hl, hwins⟩ | ⟨-, l, hl, hlarge⟩
  · refine ⟨l, ?_, hwins, hl⟩
    have hselect := hb.selectAt_eq
    rw [hpositions] at hselect
    exact hselect
  · -- all labels can be counted
    have := hlabels l (mem_of_mem_selectAt hb.selectAt_eq hl)
    omega

/-- Four points of a plane. Three of them are at one distance from the fourth. -/
def lattice : Matrix := ⟨2, [[-3, 4], [3, -4], [0, 0], [4, 3]], by decide⟩

/-- Of the three points at one distance the first one votes. -/
theorem predict_integral_lattice : ∃ m, (Model.new 2).fit lattice [7, 5, 7, 5] = (.ok (), m) ∧
    m.predict [0, 0] = .ok 7 := by
  have hfit : (Model.new 2).fit lattice [7, 5, 7, 5] =
      (.ok (), ⟨2, some lattice, [7, 5, 7, 5]⟩) := rfl
  have hexact : ∀ n : ℕ, n ≤ 4 → Exactly (Float.ofNat n) (n : ℤ) := by
    intro n hn
    exact exactly_ofNat (by omega)
  have hneg : ∀ n : ℕ, n ≤ 4 → Exactly (-Float.ofNat n) (-n : ℤ) := by
    intro n hn
    have h := (hexact n hn).neg
    rwa [← Int.cast_neg] at h
  have h₀ := hexact 0 (by norm_num)
  have h₃ := hexact 3 (by norm_num)
  have h₄ := hexact 4 (by norm_num)
  have hrows : List.Forall₂ Integral lattice.rows [[-3, 4], [3, -4], [0, 0], [4, 3]] :=
    .cons (.cons (hneg 3 (by norm_num)) (.cons h₄ .nil))
      (.cons (.cons h₃ (.cons (hneg 4 (by norm_num)) .nil))
        (.cons (.cons h₀ (.cons h₀ .nil)) (.cons (.cons h₄ (.cons h₃ .nil)) .nil)))
  obtain ⟨order, hranking, -, votes, l, hvotes, hwins, hl⟩ := predict_integral hfit rfl hrows
    (.cons h₀ (.cons h₀ .nil)) (by decide) (by decide)
  have horder : Ranking [25, 25, 0, 25] [2, 0, 1, 3] := by
    refine ⟨by decide, ?_⟩
    simp [Before]
  cases hranking.unique horder
  cases hvotes
  obtain rfl : l = 7 := by simpa using hwins.mem
  exact ⟨_, hfit, hl⟩

end NearestNeighbors.Model
