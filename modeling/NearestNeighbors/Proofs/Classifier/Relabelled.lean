import NearestNeighbors.Proofs.Classifier.Batch
import NearestNeighbors.Proofs.Classifier.Nearest

/-!
# Other names for the labels

A label is a name, and all that its number decides is which of two labels wins that are equally
frequent. So labels may be renamed as long as they keep their order: the classifier predicts the
new names of what it predicted before, however far apart they are, and scores the same.

* `Wins.map`, `vote_map`: a vote on renamed labels.
* `Model.relabel`, `fit_relabel`: a model with renamed labels, and that fitting makes it.
* `WellFormed.predict_relabel`, `score_relabel`: its predictions and its score.
* `relabelling_commutes` (every fit): a model that is fitted to renamed labels.
-/

namespace NearestNeighbors

variable {g : ℕ → ℕ} {votes labels expected predictions : List ℕ} {l : ℕ}

/-! ## Votes -/

/-- A renamed label has the votes that it had. -/
theorem count_map (hg : Set.InjOn g {x | x ∈ votes}) (hl : l ∈ votes) :
    (votes.map g).count (g l) = votes.count l := by
  have h := Multiset.count_map_eq_count g (votes : Multiset ℕ) hg l hl
  rwa [Multiset.map_coe, Multiset.coe_count, Multiset.coe_count] at h

/-- **The winner among renamed labels** is the winner under its new name. -/
theorem Wins.map (hg : StrictMonoOn g {x | x ∈ votes}) (h : Wins votes l) :
    Wins (votes.map g) (g l) := by
  have hcount : ∀ {y}, y ∈ votes → (votes.map g).count (g y) = votes.count y :=
    count_map hg.injOn
  refine ⟨List.mem_map_of_mem h.mem, fun x => ?_, fun x hx => ?_⟩
  · by_cases hmem : x ∈ votes.map g
    · obtain ⟨y, hy, rfl⟩ := List.mem_map.1 hmem
      rw [hcount hy, hcount h.mem]
      exact h.most y
    · -- a number that is the name of no vote has none
      rw [List.count_eq_zero_of_not_mem hmem]
      exact Nat.zero_le _
  · have hmem : x ∈ votes.map g := by
      rw [← List.count_pos_iff, hx, List.count_pos_iff]
      exact List.mem_map_of_mem h.mem
    obtain ⟨y, hy, rfl⟩ := List.mem_map.1 hmem
    rw [hcount hy, hcount h.mem] at hx
    exact hg.monotoneOn h.mem hy (h.lowest y hx)

theorem vote_map (hne : votes ≠ []) (hg : StrictMonoOn g {x | x ∈ votes})
    (hlt : ∀ x ∈ votes, x < maxCounters ∧ g x < maxCounters) :
    vote (votes.map g) = (vote votes).map g := by
  have hne' : votes.map g ≠ [] := fun h => hne (List.map_eq_nil_iff.1 h)
  rcases vote_cases hne with ⟨l, hl, hwins⟩ | ⟨-, l, hl, hlarge⟩
  · rcases vote_cases hne' with ⟨l', hl', hwins'⟩ | ⟨-, l', hl', hlarge'⟩
    · rw [hl, hl', hwins'.unique (hwins.map hg)]
      rfl
    · obtain ⟨x, hx, rfl⟩ := List.mem_map.1 hl'
      exact absurd (hlt x hx).2 (not_lt.2 hlarge')
  · exact absurd (hlt l hl).1 (not_lt.2 hlarge)

/-! ## Models -/

namespace Model

variable {m : Model} {query : List Float} {t queries : Matrix}

/-- The model with other names for its labels. -/
def relabel (g : ℕ → ℕ) (m : Model) : Model := { m with labels := m.labels.map g }

/-- Fitting makes it, and fails as it does on the labels themselves. -/
theorem fit_relabel (m : Model) (t : Matrix) (labels : List ℕ) (g : ℕ → ℕ) :
    m.fit t (labels.map g) = ((m.fit t labels).1, (m.fit t labels).2.relabel g) := by
  simp only [fit, List.length_map]
  split_ifs <;> rfl

/-- A fitted model has the labels that it was fitted to, or none. -/
theorem mem_labels_of_fit (h : l ∈ (m.fit t labels).2.labels) : l ∈ labels := by
  rcases fit_cases m t labels with ⟨-, hfit⟩ | ⟨-, -, hfit⟩ | ⟨-, -, -, hfit⟩ | ⟨-, -, -, hfit⟩
  all_goals rw [hfit] at h
  · cases h
  · cases h
  · cases h
  · exact h

/-- **Renamed labels are predicted under their new names**, and a query that fails fails as it
did. -/
theorem WellFormed.predict_relabel (h : m.WellFormed) (hg : StrictMonoOn g {x | x ∈ m.labels})
    (hlt : ∀ x ∈ m.labels, x < maxCounters ∧ g x < maxCounters) (query : List Float) :
    (m.relabel g).predict query = (m.predict query).map g := by
  rcases h.predict_cases query with ⟨ht, hp⟩ | ⟨t, ht, hq, hp⟩ | ⟨t, positions, votes, ht, hq, hb⟩
  · have hp' : (m.relabel g).predict query = .error (.error .notFitted) := predict_unfitted ht
    rw [hp, hp']
    rfl
  · have hp' := predict_of_length_ne (m := m.relabel g) ht hq
    rw [hp, hp']
    rfl
  · have hne : votes ≠ [] := by
      apply List.ne_nil_of_length_pos
      rw [hb.length_votes]
      exact h.one_le t ht
    -- the same rows are chosen, and they vote under the new names
    have hpredict : (m.relabel g).predict query = vote (votes.map g) := by
      rw [predict_of_length_eq (m := m.relabel g) ht hq]
      exact bind_eq_of_ok hb.nearest_eq (bind_eq_of_ok (selectAt_map g hb.selectAt_eq) rfl)
    rw [hpredict, hb.predict_eq]
    exact vote_map hne (hg.mono hb.mem_labels) fun x hx => hlt x (hb.mem_labels x hx)

/-! ## Batches and scores -/

/-- Renaming keeps which predictions are as expected. -/
theorem hits_map (hg : Set.InjOn g {x | x ∈ labels ∨ x ∈ expected})
    (h : ∀ p ∈ predictions, p ∈ labels) :
    hits (predictions.map g) (expected.map g) = hits predictions expected := by
  unfold hits
  rw [List.zip_map, List.countP_map]
  apply List.countP_congr
  rintro ⟨p, x⟩ hmem
  obtain ⟨hp, hx⟩ := List.of_mem_zip hmem
  simp [hg.eq_iff (.inl (h p hp)) (.inr hx)]

theorem score_relabel (h : m.WellFormed)
    (hg : Set.InjOn g {x | x ∈ m.labels ∨ x ∈ expected})
    (hpredict : ∀ query, (m.relabel g).predict query = (m.predict query).map g) :
    (m.relabel g).score queries (expected.map g) = m.score queries expected := by
  have hbatch : (m.relabel g).predictBatch queries = (m.predictBatch queries).map (List.map g) :=
    mapM_map hpredict queries.rows
  unfold score
  rw [hbatch, List.length_map, List.isEmpty_map]
  -- what is left to compare are the hits of a batch that succeeds
  congr 2
  refine map_bind_congr fun predictions hp => ?_
  rw [hits_map hg (h.mem_labels_of_batch hp)]

/-- **Predictions commute with renaming the labels**, as long as the new names are in the order of
the old ones. A fit to the renamed labels ends as the fit to the labels does. The model that it
leaves predicts the new name of what the other one predicts, and fails where that one fails, on one
query and on many; and its score on renamed labels is that of the other one. -/
theorem relabelling_commutes (m₀ : Model) (t queries : Matrix)
    (hg : StrictMonoOn g {x | x ∈ labels ∨ x ∈ expected})
    (hlt : ∀ x ∈ labels, x < maxCounters ∧ g x < maxCounters) :
    ∃ outcome m m', m₀.fit t labels = (outcome, m) ∧ m₀.fit t (labels.map g) = (outcome, m') ∧
      (∀ query, m'.predict query = (m.predict query).map g) ∧
      m'.predictBatch queries = (m.predictBatch queries).map (List.map g) ∧
      m'.score queries (expected.map g) = m.score queries expected := by
  have hwf := fit_wellFormed m₀ t labels
  have hsub : ∀ x ∈ (m₀.fit t labels).2.labels, x ∈ labels := fun x hx => mem_labels_of_fit hx
  have hpredict := hwf.predict_relabel (hg.mono fun x hx => .inl (hsub x hx)) fun x hx =>
    hlt x (hsub x hx)
  refine ⟨_, _, _, rfl, fit_relabel m₀ t labels g, hpredict, mapM_map hpredict queries.rows, ?_⟩
  exact score_relabel hwf (hg.injOn.mono fun x hx => hx.imp (hsub x) id) hpredict

/-- New names may leave gaps, also at `0`: the labels `0` and `1` become `4` and `14`. -/
theorem relabelling_commutes_fourPoints : ∃ m m',
    (new 3).fit fourPoints [0, 1, 0, 1] = (.ok (), m) ∧
      (new 3).fit fourPoints [4, 14, 4, 14] = (.ok (), m') ∧
      (∀ query, m'.predict query = (m.predict query).map (10 * · + 4)) ∧
      m'.score fourPoints [4, 4, 4, 14] = m.score fourPoints [0, 0, 0, 1] := by
  have hmono : StrictMono fun l : ℕ => 10 * l + 4 := by
    intro l l' h
    dsimp only
    omega
  have hlt : ∀ l ∈ [0, 1, 0, 1], l < maxCounters ∧ 10 * l + 4 < maxCounters := by decide
  obtain ⟨outcome, m, m', hfit, hfit', hpredict, -, hscore⟩ :=
    relabelling_commutes (new 3) fourPoints fourPoints
      (hmono.strictMonoOn {x | x ∈ [0, 1, 0, 1] ∨ x ∈ [0, 0, 0, 1]}) hlt
  have hok : (new 3).fit fourPoints [0, 1, 0, 1] =
      (.ok (), ⟨3, some fourPoints, [0, 1, 0, 1]⟩) := rfl
  have houtcome : outcome = .ok () := congrArg Prod.fst (hfit.symm.trans hok)
  rw [houtcome] at hfit hfit'
  exact ⟨m, m', hfit, hfit', hpredict, hscore⟩

end Model

end NearestNeighbors
