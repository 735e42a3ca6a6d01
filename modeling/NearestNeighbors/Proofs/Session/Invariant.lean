import NearestNeighbors.Proofs.Classifier.Query
import NearestNeighbors.Session

/-!
# Every session keeps its models well formed

Whatever is asked of a session, and whether it succeeds or not, the model at work and the
one set aside stay well formed. So the outcome of a query can be read off the model and
the length of the query.

* `step_wellFormed`, `run_wellFormed`: one command and a row of commands.
* `WellFormed.answers`: what a query of a well-formed model comes to.
* `run_answers` (every run): both models are well formed, and what any query of them
  comes to.
-/

namespace NearestNeighbors

/-! ## The invariant -/

/-- Both models of a session are well formed. -/
structure Session.WellFormed (s : Session) : Prop where
  model : s.model.WellFormed
  saved : s.saved.WellFormed

namespace Session

theorem new_wellFormed (k : Nat) : (new k).WellFormed :=
  ⟨Model.new_wellFormed k, Model.new_wellFormed k⟩

/-- One command keeps both models well formed; only `new`, `restore` and `fit` replace the
model at work, and only `save` the one set aside. -/
theorem step_wellFormed {s : Session} (h : s.WellFormed) (c : Command) :
    (s.step c).2.WellFormed := by
  cases c with
  | new k => exact ⟨Model.new_wellFormed k, h.saved⟩
  | save => exact ⟨h.model, h.model⟩
  | restore => exact ⟨h.saved, h.saved⟩
  | fit features labels => exact ⟨Model.fit_wellFormed s.model features labels, h.saved⟩
  | predict query => exact h
  | predictBatch features => exact h
  | score features labels => exact h

theorem run_wellFormed {s : Session} (h : s.WellFormed) (commands : List Command) :
    (s.run commands).WellFormed := by
  induction commands generalizing s with
  | nil => exact h
  | cons c cs ih => exact ih (step_wellFormed h c)

end Session

/-! ## Queries of a well-formed model -/

namespace Model

/-- **What a query comes to**, by the state of the model and the length of the query. -/
structure Answers (m : Model) (query : List Float) : Prop where
  notFitted_iff : m.predict query = .error (.error .notFitted) ↔ m.features = none
  dimensionMismatch_iff : ∀ expected found,
    m.predict query = .error (.error (.dimensionMismatch expected found)) ↔
      ∃ t, m.features = some t ∧ query.length ≠ t.cols ∧
        expected = t.cols ∧ found = query.length
  ballot : ∀ t, m.features = some t → query.length = t.cols →
    1 ≤ m.neighbors ∧ ∃ positions votes, Ballot m t query positions votes

theorem WellFormed.answers {m : Model} (h : m.WellFormed) (query : List Float) :
    m.Answers query := by
  rcases h.predict_cases query with
    ⟨ht, hp⟩ | ⟨t, ht, hq, hp⟩ | ⟨t, positions, votes, ht, hq, hb⟩
  · refine ⟨by simp [hp, ht], by simp [hp, ht], fun t' ht' => ?_⟩
    cases ht.symm.trans ht'
  · refine ⟨by simp [hp, ht], fun expected found => ⟨fun he => ?_, ?_⟩, fun t' ht' hq' => ?_⟩
    · cases hp.symm.trans he
      exact ⟨t, ht, hq, rfl, rfl⟩
    · rintro ⟨t', ht', -, rfl, rfl⟩
      cases ht.symm.trans ht'
      exact hp
    · cases ht.symm.trans ht'
      exact absurd hq' hq
  · refine ⟨?_, ?_, fun t' ht' _ => ?_⟩
    · rcases hb.predict_cases with ⟨l, -, hl⟩ | hl <;> simp [hl, ht]
    · rcases hb.predict_cases with ⟨l, -, hl⟩ | hl <;> simp [hl, ht, hq]
    · cases ht.symm.trans ht'
      exact ⟨h.one_le t ht, positions, votes, hb⟩

end Model

/-- **The state of a classifier in every run.** After any row of commands, failing or not,
both models of the session are well formed, and every query of them comes to what their
state and the length of the query say. -/
theorem Session.run_answers (k : Nat) (commands : List Command) :
    let s := (Session.new k).run commands
    (s.model.WellFormed ∧ ∀ query, s.model.Answers query) ∧
      s.saved.WellFormed ∧ ∀ query, s.saved.Answers query := by
  intro s
  have h : s.WellFormed := run_wellFormed (new_wellFormed k) commands
  exact ⟨⟨h.model, h.model.answers⟩, h.saved, h.saved.answers⟩

end NearestNeighbors
