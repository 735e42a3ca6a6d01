import NearestNeighbors.Proofs.Binary64.Share
import NearestNeighbors.Proofs.Classifier.Batch
import NearestNeighbors.Proofs.Session.Invariant

/-!
# Batches and scores in every session

A batch ends as its rows do one by one. All rows of a matrix have one length, so that those that
fail in a well-formed model fail alike, and it does not matter which one comes first. A score
checks its arguments before the batch, and then it is the share of the rows that come out as
expected, which does not depend on the order of the rows either.

* `mapM_eq_error_of_alike`: a list of steps that fail alike.
* `WellFormed.fail_alike`, `WellFormed.predictBatch_eq_error`: the rows of a matrix.
* `correct`, `score_eq`: the rows that come out as expected, and the score.
* `BatchAnswers`, `ScoreAnswers`: what a batch and a score come to.
* `Session.run_scores` (every run): both models answer batches and scores so.
-/

namespace NearestNeighbors

open Binary64

/-- Steps that fail alike fail as a list when one of them does. -/
theorem mapM_eq_error_of_alike {ε α β : Type} {f : α → Except ε β} {l : List α} {e₀ e : ε}
    (h : ∀ a ∈ l, ∀ e, f a = .error e → e = e₀) :
    l.mapM f = .error e ↔ ∃ a ∈ l, f a = .error e := by
  constructor
  · intro he
    obtain ⟨before, a, after, rfl, -, ha⟩ := mapM_eq_error.1 he
    exact ⟨a, List.mem_append_right before List.mem_cons_self, ha⟩
  · rintro ⟨a, ha, he⟩
    cases hm : l.mapM f with
    | ok bs =>
      obtain ⟨b, hb⟩ := exists_mapM_eq_ok.1 ⟨bs, hm⟩ a ha
      cases hb.symm.trans he
    | error e' =>
      obtain ⟨before, a', after, rfl, -, ha'⟩ := mapM_eq_error.1 hm
      rw [h a ha e he, h a' (List.mem_append_right before List.mem_cons_self) e' ha']

/-- A computation breaks off with something that is no error. -/
def Panics {α : Type} (x : Except Failure α) : Prop := ∃ f, x = .error f ∧ ∀ e, f ≠ .error e

namespace Model

variable {m : Model} {queries queries' : Matrix} {expected expected' : List Nat}

/-! ## Batches -/

/-- **The rows of a matrix fail alike**: they have one length. -/
theorem WellFormed.fail_alike (h : m.WellFormed) (queries : Matrix) :
    ∃ f₀, ∀ row ∈ queries.rows, ∀ f, m.predict row = .error f → f = f₀ := by
  cases ht : m.features with
  | none =>
    refine ⟨.error .notFitted, fun row _ f hf => ?_⟩
    cases (predict_unfitted ht).symm.trans hf
    rfl
  | some t =>
    by_cases hcols : queries.cols = t.cols
    · refine ⟨.capacity, fun row hrow f hf => ?_⟩
      have hq : row.length = t.cols := (queries.length_row row hrow).trans hcols
      obtain ⟨positions, votes, hb⟩ := h.ballot ht hq
      rcases hb.predict_cases with ⟨l, -, hl⟩ | hcap
      · cases hl.symm.trans hf
      · cases hcap.symm.trans hf
        rfl
    · refine ⟨.error (.dimensionMismatch t.cols queries.cols), fun row hrow f hf => ?_⟩
      have hlen := queries.length_row row hrow
      have hq : row.length ≠ t.cols := by
        rw [hlen]
        exact hcols
      cases (predict_of_length_ne ht hq).symm.trans hf
      rw [hlen]

/-- **A batch fails as any of its rows does.** -/
theorem WellFormed.predictBatch_eq_error (h : m.WellFormed) {f : Failure} :
    m.predictBatch queries = .error f ↔ ∃ row ∈ queries.rows, m.predict row = .error f := by
  obtain ⟨f₀, hf₀⟩ := h.fail_alike queries
  exact mapM_eq_error_of_alike hf₀

/-- A batch is a list of predictions, one for each row. -/
theorem predictBatch_eq_ok {labels : List Nat} : m.predictBatch queries = .ok labels ↔
    labels.length = queries.size ∧ ∀ (i : Nat) (row : List Float) (l : Nat),
      queries.rows[i]? = some row → labels[i]? = some l → m.predict row = .ok l := by
  constructor
  · intro h
    have hmap : queries.rows.map m.predict = labels.map .ok := mapM_eq_ok.1 h
    refine ⟨?_, fun i row l hrow hl => ?_⟩
    · have hlen := congrArg List.length hmap
      rw [List.length_map, List.length_map] at hlen
      exact hlen.symm
    · have hi : (queries.rows.map m.predict)[i]? = (labels.map .ok)[i]? := by rw [hmap]
      rw [List.getElem?_map, List.getElem?_map, hrow, hl] at hi
      exact Option.some.inj hi
  · rintro ⟨hlen, h⟩
    apply predictBatch_of_rows hlen.symm
    intro i row hrow
    have hi : i < labels.length := by
      rw [hlen]
      exact (List.getElem?_eq_some_iff.1 hrow).1
    exact ⟨labels[i], List.getElem?_eq_getElem hi, h i row _ hrow (List.getElem?_eq_getElem hi)⟩

/-- **What a batch comes to**, by its rows one by one. -/
structure BatchAnswers (m : Model) (queries : Matrix) : Prop where
  empty : queries.size = 0 → m.predictBatch queries = .ok []
  notFitted_iff : m.predictBatch queries = .error (.error .notFitted) ↔
    queries.size ≠ 0 ∧ m.features = none
  dimensionMismatch_iff : ∀ cols found,
    m.predictBatch queries = .error (.error (.dimensionMismatch cols found)) ↔
      queries.size ≠ 0 ∧ ∃ t, m.features = some t ∧ queries.cols ≠ t.cols ∧
        cols = t.cols ∧ found = queries.cols
  fails_iff : (∃ e, m.predictBatch queries = .error (.error e)) ↔
    queries.size ≠ 0 ∧ (m.features = none ∨ ∃ t, m.features = some t ∧ queries.cols ≠ t.cols)
  panics_iff : Panics (m.predictBatch queries) ↔ ∃ row ∈ queries.rows, Panics (m.predict row)
  otherwise : (∀ e, m.predictBatch queries ≠ .error (.error e)) →
    ¬ Panics (m.predictBatch queries) → ∃ labels, m.predictBatch queries = .ok labels
  ok_iff : ∀ labels, m.predictBatch queries = .ok labels ↔
    labels.length = queries.size ∧ ∀ (i : Nat) (row : List Float) (l : Nat),
      queries.rows[i]? = some row → labels[i]? = some l → m.predict row = .ok l

theorem size_ne_zero_iff : queries.size ≠ 0 ↔ ∃ row, row ∈ queries.rows := by
  unfold Matrix.size
  rw [Ne, List.length_eq_zero_iff]
  exact ⟨List.exists_mem_of_ne_nil _, fun ⟨_, hrow⟩ => List.ne_nil_of_mem hrow⟩

theorem WellFormed.batchAnswers (h : m.WellFormed) (queries : Matrix) :
    m.BatchAnswers queries := by
  have hrow : ∀ row ∈ queries.rows, row.length = queries.cols := queries.length_row
  have hnotFitted : m.predictBatch queries = .error (.error .notFitted) ↔
      queries.size ≠ 0 ∧ m.features = none := by
    rw [h.predictBatch_eq_error, size_ne_zero_iff]
    constructor
    · rintro ⟨row, hmem, hp⟩
      exact ⟨⟨row, hmem⟩, (h.answers row).notFitted_iff.1 hp⟩
    · rintro ⟨⟨row, hmem⟩, ht⟩
      exact ⟨row, hmem, (h.answers row).notFitted_iff.2 ht⟩
  have hmismatch : ∀ cols found,
      m.predictBatch queries = .error (.error (.dimensionMismatch cols found)) ↔
        queries.size ≠ 0 ∧ ∃ t, m.features = some t ∧ queries.cols ≠ t.cols ∧
          cols = t.cols ∧ found = queries.cols := by
    intro cols found
    rw [h.predictBatch_eq_error, size_ne_zero_iff]
    constructor
    · rintro ⟨row, hmem, hp⟩
      have ht := ((h.answers row).dimensionMismatch_iff cols found).1 hp
      rw [hrow row hmem] at ht
      exact ⟨⟨row, hmem⟩, ht⟩
    · rintro ⟨⟨row, hmem⟩, ht⟩
      rw [← hrow row hmem] at ht
      exact ⟨row, hmem, ((h.answers row).dimensionMismatch_iff cols found).2 ht⟩
  refine ⟨fun hzero => ?_, hnotFitted, hmismatch, ⟨?_, ?_⟩, ⟨?_, ?_⟩, fun hfail hpanic => ?_,
    fun _ => predictBatch_eq_ok⟩
  · exact mapM_eq_ok.2 (congrArg (List.map m.predict) (List.length_eq_zero_iff.1 hzero))
  · rintro ⟨e, he⟩
    obtain ⟨row, hmem, hp⟩ := h.predictBatch_eq_error.1 he
    refine ⟨size_ne_zero_iff.2 ⟨row, hmem⟩, ?_⟩
    rcases h.predict_cases row with
      ⟨ht, -⟩ | ⟨t, ht, hq, -⟩ | ⟨t, positions, votes, -, -, hb⟩
    · exact .inl ht
    · rw [hrow row hmem] at hq
      exact .inr ⟨t, ht, hq⟩
    · -- a query that takes its course ends with no error
      rcases hb.predict_cases with ⟨l, -, hl⟩ | hl
      · cases hl.symm.trans hp
      · cases hl.symm.trans hp
  · rintro ⟨hsize, ht | ⟨t, ht, hcols⟩⟩
    · exact ⟨_, hnotFitted.2 ⟨hsize, ht⟩⟩
    · exact ⟨_, (hmismatch _ _).2 ⟨hsize, t, ht, hcols, rfl, rfl⟩⟩
  · rintro ⟨f, hf, hne⟩
    obtain ⟨row, hmem, hp⟩ := h.predictBatch_eq_error.1 hf
    exact ⟨row, hmem, f, hp, hne⟩
  · rintro ⟨row, hmem, f, hp, hne⟩
    exact ⟨f, h.predictBatch_eq_error.2 ⟨row, hmem, hp⟩, hne⟩
  · cases hb : m.predictBatch queries with
    | ok labels => exact ⟨labels, rfl⟩
    | error f => exact absurd ⟨f, hb, fun e he => hfail e (he ▸ hb)⟩ hpanic

/-! ## Scores -/

/-- The number of rows that are predicted as expected. -/
def correct (m : Model) (rows : List (List Float)) (expected : List Nat) : Nat :=
  (rows.zip expected).countP fun p => (m.predict p.1).toOption = some p.2

theorem correct_le (m : Model) (rows : List (List Float)) (expected : List Nat) :
    m.correct rows expected ≤ expected.length := by
  calc m.correct rows expected ≤ (rows.zip expected).length := List.countP_le_length
    _ = min rows.length expected.length := List.length_zip
    _ ≤ expected.length := Nat.min_le_right _ _

/-- The hits of a batch are the rows that are predicted as expected. -/
theorem hits_eq_correct {rows : List (List Float)} {predictions : List Nat}
    (h : rows.map m.predict = predictions.map .ok) :
    hits predictions expected = m.correct rows expected := by
  induction rows generalizing predictions expected with
  | nil =>
    cases predictions with
    | nil => rfl
    | cons p predictions => cases h
  | cons row rows ih =>
    cases predictions with
    | nil => cases h
    | cons p predictions =>
      rw [List.map_cons, List.map_cons, List.cons.injEq] at h
      cases expected with
      | nil => rfl
      | cons l expected =>
        have hrest : hits predictions expected = m.correct rows expected := ih h.2
        unfold hits correct at hrest ⊢
        rw [List.zip_cons_cons, List.zip_cons_cons, List.countP_cons, List.countP_cons, hrest, h.1]
        congr 1
        simp only [Except.toOption, Option.some.injEq]

/-- **A score** is the share of the rows that are predicted as expected, once its arguments are
checked and the batch succeeds. -/
theorem score_eq (hlen : queries.size = expected.length) (hne : expected ≠ []) :
    m.score queries expected = (m.predictBatch queries).map fun _ =>
      Float.ofNat (m.correct queries.rows expected) / Float.ofNat expected.length := by
  cases hp : m.predictBatch queries with
  | ok predictions =>
    rw [score_ok hlen hne hp, hits_eq_correct (mapM_eq_ok.1 hp)]
    rfl
  | error f =>
    have hempty : ¬ expected.isEmpty := fun h => hne (List.isEmpty_iff.1 h)
    unfold score
    rw [if_neg fun h => h hlen, if_neg hempty, hp]
    rfl

theorem score_of_length_ne (hlen : queries.size ≠ expected.length) :
    m.score queries expected = .error (.error (.lengthMismatch queries.size expected.length)) :=
  if_pos hlen

theorem score_nil (hlen : queries.size = expected.length) (hnil : expected = []) :
    m.score queries expected = .error (.error .empty) := by
  unfold score
  rw [if_neg fun h => h hlen, if_pos (List.isEmpty_iff.2 hnil)]

/-- **Rows and labels in another order** have the same score, failures included. -/
theorem WellFormed.score_perm (h : m.WellFormed) (hlen : queries.size = expected.length)
    (hlen' : queries'.size = expected'.length)
    (hperm : (queries'.rows.zip expected').Perm (queries.rows.zip expected)) :
    m.score queries' expected' = m.score queries expected := by
  have hrows : queries'.rows.Perm queries.rows := by
    have hfst := hperm.map Prod.fst
    rwa [List.map_fst_zip hlen'.le, List.map_fst_zip hlen.le] at hfst
  have hsize : expected'.length = expected.length := by
    rw [← hlen, ← hlen']
    exact hrows.length_eq
  by_cases hnil : expected = []
  · have hnil' : expected' = [] := by
      rw [← List.length_eq_zero_iff, hsize, hnil]
      rfl
    rw [score_nil hlen hnil, score_nil hlen' hnil']
  · have hnil' : expected' ≠ [] := by
      rw [Ne, ← List.length_eq_zero_iff, hsize, List.length_eq_zero_iff]
      exact hnil
    have hcorrect : m.correct queries'.rows expected' = m.correct queries.rows expected :=
      hperm.countP_eq _
    -- both batches have the same rows, so that they fail alike or not at all
    have herror : ∀ f, m.predictBatch queries' = .error f ↔ m.predictBatch queries = .error f := by
      intro f
      rw [h.predictBatch_eq_error, h.predictBatch_eq_error]
      exact exists_congr fun row => and_congr_left fun _ => hrows.mem_iff
    rw [score_eq hlen hnil, score_eq hlen' hnil', hcorrect, hsize]
    cases hb : m.predictBatch queries with
    | error f => rw [(herror f).2 hb]
    | ok labels =>
      cases hb' : m.predictBatch queries' with
      | error f => cases hb.symm.trans ((herror f).1 hb')
      | ok labels' => rfl

/-- **What a score comes to**: the checks of its arguments, then what the batch comes to. -/
structure ScoreAnswers (m : Model) (queries : Matrix) (expected : List Nat) : Prop where
  lengthMismatch_iff : ∀ rows labels,
    m.score queries expected = .error (.error (.lengthMismatch rows labels)) ↔
      queries.size ≠ expected.length ∧ rows = queries.size ∧ labels = expected.length
  empty_iff : m.score queries expected = .error (.error .empty) ↔
    queries.size = expected.length ∧ expected = []
  error_iff : queries.size = expected.length → expected ≠ [] → ∀ f,
    m.score queries expected = .error f ↔ m.predictBatch queries = .error f
  ok_iff : ∀ x, m.score queries expected = .ok x ↔
    queries.size = expected.length ∧ expected ≠ [] ∧
      (∃ labels, m.predictBatch queries = .ok labels) ∧
        x = Float.ofNat (m.correct queries.rows expected) / Float.ofNat expected.length
  share : expected.length ≤ maxSize → ∀ x, m.score queries expected = .ok x →
    Share (m.correct queries.rows expected) expected.length x
  reordered : queries.size = expected.length → ∀ queries' expected',
    queries'.size = expected'.length →
      (queries'.rows.zip expected').Perm (queries.rows.zip expected) →
        m.score queries' expected' = m.score queries expected

/-- No batch complains about its sizes. -/
theorem WellFormed.predictBatch_ne (h : m.WellFormed) (queries : Matrix) :
    (∀ rows labels, m.predictBatch queries ≠ .error (.error (.lengthMismatch rows labels))) ∧
      m.predictBatch queries ≠ .error (.error .empty) := by
  have hcases : ∀ row f, m.predict row = .error f →
      f = .error .notFitted ∨ (∃ cols found, f = .error (.dimensionMismatch cols found)) ∨
        f = .capacity := by
    intro row f hf
    rcases h.predict_cases row with ⟨-, hp⟩ | ⟨t, -, -, hp⟩ | ⟨t, positions, votes, -, -, hb⟩
    · cases hp.symm.trans hf
      exact .inl rfl
    · cases hp.symm.trans hf
      exact .inr (.inl ⟨_, _, rfl⟩)
    · rcases hb.predict_cases with ⟨l, -, hp⟩ | hp
      · cases hp.symm.trans hf
      · cases hp.symm.trans hf
        exact .inr (.inr rfl)
  constructor
  · intro rows labels he
    obtain ⟨row, -, hp⟩ := h.predictBatch_eq_error.1 he
    rcases hcases row _ hp with hf | ⟨_, _, hf⟩ | hf <;> cases hf
  · intro he
    obtain ⟨row, -, hp⟩ := h.predictBatch_eq_error.1 he
    rcases hcases row _ hp with hf | ⟨_, _, hf⟩ | hf <;> cases hf

theorem WellFormed.scoreAnswers (h : m.WellFormed) (queries : Matrix) (expected : List Nat) :
    m.ScoreAnswers queries expected := by
  obtain ⟨hmismatch, hempty⟩ := h.predictBatch_ne queries
  have hbatch : queries.size = expected.length → expected ≠ [] → ∀ f,
      m.score queries expected = .error f ↔ m.predictBatch queries = .error f := by
    intro hlen hne f
    rw [score_eq hlen hne]
    exact map_eq_error
  have hok : ∀ x, m.score queries expected = .ok x ↔
      queries.size = expected.length ∧ expected ≠ [] ∧
        (∃ labels, m.predictBatch queries = .ok labels) ∧
          x = Float.ofNat (m.correct queries.rows expected) / Float.ofNat expected.length := by
    intro x
    by_cases hlen : queries.size = expected.length
    · by_cases hne : expected = []
      · rw [score_nil hlen hne]
        exact iff_of_false nofun fun hx => hx.2.1 hne
      · rw [score_eq hlen hne, map_eq_ok]
        constructor
        · rintro ⟨labels, hlabels, rfl⟩
          exact ⟨hlen, hne, ⟨labels, hlabels⟩, rfl⟩
        · rintro ⟨-, -, ⟨labels, hlabels⟩, rfl⟩
          exact ⟨labels, hlabels, rfl⟩
    · rw [score_of_length_ne hlen]
      exact iff_of_false nofun fun hx => hlen hx.1
  refine ⟨fun rows labels => ?_, ?_, hbatch, hok, fun hsize x hx => ?_,
    fun hlen queries' expected' hlen' hperm => h.score_perm hlen hlen' hperm⟩
  · by_cases hlen : queries.size = expected.length
    · refine iff_of_false (fun he => ?_) fun he => he.1 hlen
      by_cases hne : expected = []
      · rw [score_nil hlen hne] at he
        cases he
      · exact hmismatch _ _ ((hbatch hlen hne _).1 he)
    · rw [score_of_length_ne hlen]
      simp only [Except.error.injEq, Failure.error.injEq, Error.lengthMismatch.injEq, ne_eq, hlen,
        not_false_eq_true, true_and, eq_comm]
  · by_cases hlen : queries.size = expected.length
    · by_cases hne : expected = []
      · exact iff_of_true (score_nil hlen hne) ⟨hlen, hne⟩
      · refine iff_of_false (fun he => ?_) fun he => hne he.2
        exact hempty ((hbatch hlen hne _).1 he)
    · rw [score_of_length_ne hlen]
      exact iff_of_false nofun fun he => hlen he.1
  · obtain ⟨-, hne, -, rfl⟩ := (hok x).1 hx
    have hpos : 0 < expected.length := List.length_pos_iff.2 hne
    exact share_ofNat (m.correct_le queries.rows expected) hpos (by unfold maxSize at hsize; omega)

end Model

/-- **Batches and scores in every run.** After any row of commands, failing or not, both models of
the session answer every batch by its rows, and score it by the share of them that come out as
expected. -/
theorem Session.run_scores (k : Nat) (commands : List Command) :
    let s := (Session.new k).run commands
    (∀ queries, s.model.BatchAnswers queries ∧
        ∀ expected, s.model.ScoreAnswers queries expected) ∧
      ∀ queries, s.saved.BatchAnswers queries ∧
        ∀ expected, s.saved.ScoreAnswers queries expected := by
  intro s
  have h : s.WellFormed := run_wellFormed (new_wellFormed k) commands
  exact ⟨fun queries => ⟨h.model.batchAnswers queries, h.model.scoreAnswers queries⟩,
    fun queries => ⟨h.saved.batchAnswers queries, h.saved.scoreAnswers queries⟩⟩

end NearestNeighbors
