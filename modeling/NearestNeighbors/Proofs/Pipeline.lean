import NearestNeighbors.Experiment
import NearestNeighbors.Pipeline
import NearestNeighbors.Proofs.Evaluation
import NearestNeighbors.Proofs.Iris

/-!
# From a table to a score

A table that can be read fails for its fraction, its sizes or its number of neighbours
only. Otherwise the model that is fitted on one side of the split scores on the other.

* `Pipeline.Course`: the three courses that a pipeline can take.
* `Sound`: that a pipeline fails where it has to, and takes one of its courses.
* `Experiment.run_reports`: the experiment reports a run over the iris table.
* `parse_pipeline_sound` (every table): all of this for tables and for the experiment.
-/

namespace NearestNeighbors

variable {d : Dataset} {fraction : Float} {seed : UInt64} {split : Split} {m : Model}
  {predictions : List Nat}

/-! ## Runs -/

namespace Pipeline

/-- **The three courses of a pipeline** over a data set: it stops at the split, it stops at
the fit, or it comes to a score. -/
inductive Course (d : Dataset) (fraction : Float) (seed : UInt64) (k : Nat) : Outcome → Prop where
  | unsplit {e : Error}
    (hsplit : trainTestSplit d.features d.labels fraction seed = .error (.error e))
    (he : e = .invalidTestFraction fraction ∨
      e = .degenerateSplit d.size 0 (testSize d.size fraction)) :
    Course d fraction seed k ⟨[.loaded d.size], some (.error e)⟩
  | unfitted {split : Split}
    (hsplit : trainTestSplit d.features d.labels fraction seed = .ok split)
    (hk : k = 0 ∨ split.train.indices.length < k) :
    Course d fraction seed k
      ⟨[.loaded d.size, .split split.train.indices split.test.indices],
        some (.error (.invalidNeighbors k split.train.indices.length))⟩
  | scored {split : Split} {m : Model} {predictions : List Nat} {score : Float}
    (hsplit : trainTestSplit d.features d.labels fraction seed = .ok split)
    (hfit : (Model.new k).fit split.train.features split.train.labels = (.ok (), m))
    (hscored : Scored m split predictions)
    (hscore : m.score split.test.features split.test.labels = .ok score) :
    Course d fraction seed k
      ⟨[.loaded d.size, .split split.train.indices split.test.indices, .fitted,
        .predicted predictions, .scored score], none⟩

theorem run_of_split_error {failure : Failure} (k : Nat)
    (h : trainTestSplit d.features d.labels fraction seed = .error failure) :
    run (.ok d) fraction seed k = ⟨[.loaded d.size], some failure⟩ := by
  unfold run
  dsimp only
  rw [h]
  rfl

theorem run_of_split_ok (k : Nat)
    (h : trainTestSplit d.features d.labels fraction seed = .ok split) :
    run (.ok d) fraction seed k =
      .after (.loaded d.size) (.after (.split split.train.indices split.test.indices)
        (learn k split)) := by
  unfold run
  dsimp only
  rw [h]

theorem learn_of_fit_error {k : Nat} {e : Error}
    (h : ((Model.new k).fit split.train.features split.train.labels).1 = .error e) :
    learn k split = ⟨[], some (.error e)⟩ := by
  unfold learn
  split
  · rename_i e' m hfit
    rw [hfit] at h
    cases h
    rfl
  · rename_i m hfit
    rw [hfit] at h
    cases h

theorem learn_of_scored {k : Nat} {score : Float}
    (hfit : (Model.new k).fit split.train.features split.train.labels = (.ok (), m))
    (hscored : Scored m split predictions)
    (hscore : m.score split.test.features split.test.labels = .ok score) :
    learn k split = ⟨[.fitted, .predicted predictions, .scored score], none⟩ := by
  unfold learn
  rw [hfit]
  dsimp only
  unfold evaluate
  rw [hscored.predictBatch_eq]
  dsimp only
  rw [hscore]
  rfl

end Pipeline

/-- **A pipeline is sound** when it fails only where it has to, and otherwise scores. -/
structure Sound (d : Dataset) (fraction : Float) (seed : UInt64) (k : Nat) : Prop where
  split : SplitOutcome d fraction (trainTestSplit d.features d.labels fraction seed)
  evaluation : ∀ split, trainTestSplit d.features d.labels fraction seed = .ok split →
    Evaluation k split
  course : Pipeline.Course d fraction seed k (Pipeline.run (.ok d) fraction seed k)

/-- A data set that is well formed takes one of the three courses. -/
theorem Dataset.WellFormed.course (hd : d.WellFormed) (fraction : Float) (seed : UInt64)
    (k : Nat) : Pipeline.Course d fraction seed k (Pipeline.run (.ok d) fraction seed k) := by
  have hout := hd.split_outcome fraction seed
  -- the fraction, the train side and the fit are what a run can end at
  by_cases hf : InvalidFraction fraction
  · have hsplit := (hout.invalidTestFraction_iff fraction).2 ⟨rfl, hf⟩
    rw [Pipeline.run_of_split_error k hsplit]
    exact .unsplit hsplit (.inl rfl)
  by_cases htrain : d.size - testSize d.size fraction = 0
  · have hsplit := (hout.degenerateSplit_iff _ _ _).2 ⟨hf, htrain, rfl, rfl, rfl⟩
    rw [Pipeline.run_of_split_error k hsplit]
    exact .unsplit hsplit (.inr rfl)
  obtain ⟨split, hsplit⟩ := hout.ok hf (Nat.pos_of_ne_zero htrain)
  have heval := (hd.usable hsplit).evaluation k
  rw [Pipeline.run_of_split_ok k hsplit]
  cases hfit : (Model.new k).fit split.train.features split.train.labels with
  | mk fitted m =>
    cases fitted with
    | error e =>
      have herror := congrArg Prod.fst hfit
      obtain ⟨hk, rfl⟩ := (heval.fit_error_iff e).1 herror
      rw [Pipeline.learn_of_fit_error herror]
      exact .unfitted hsplit hk
    | ok _ =>
      obtain ⟨predictions, hscored⟩ := heval.scored m hfit
      rw [Pipeline.learn_of_scored hfit hscored hscored.score_eq]
      exact .scored hsplit hfit hscored hscored.score_eq

theorem Dataset.WellFormed.sound (hd : d.WellFormed) (fraction : Float) (seed : UInt64)
    (k : Nat) : Sound d fraction seed k where
  split := hd.split_outcome fraction seed
  evaluation := fun _ hsplit => (hd.usable hsplit).evaluation k
  course := hd.course fraction seed k

/-! ## The experiment -/

namespace Experiment

/-- **The report of a run**: a failure of the run fails the experiment, and a run that
comes to a score is reported. -/
structure Reports (outcome : Pipeline.Outcome) (result : Except Failure Report) : Prop where
  failure_iff : ∀ failure, result = .error failure ↔ outcome.failure = some failure
  report : ∀ r, result = .ok r → ∃ train predictions, outcome =
      ⟨[.loaded Iris.dataset.size, .split train r.testIndices, .fitted, .predicted predictions,
        .scored r.accuracy], none⟩ ∧
    r.trainSize = train.length ∧ r.testSize = r.testIndices.length

theorem reports_error {outcome : Pipeline.Outcome} {e : Failure} (h : outcome.failure = some e) :
    Reports outcome (.error e) := by
  refine ⟨fun failure => ?_, nofun⟩
  rw [h, Except.error.injEq, Option.some.injEq]

/-- What an experiment does with the result of its split. -/
theorem run_of_split {config : Config} {result : Except Failure Split} (hload : Iris.load = .ok d)
    (hsplit : trainTestSplit d.features d.labels config.testFraction config.seed = result) :
    run config = result >>= fun split =>
      let fitted := (Model.new config.neighbors).fit split.train.features split.train.labels
      orFail fitted.1 >>= fun _ =>
        fitted.2.score split.test.features split.test.labels >>= fun accuracy =>
          .ok ⟨accuracy, split.train.labels.length, split.test.labels.length,
            split.test.indices⟩ := by
  unfold run
  rw [hload, ← hsplit]
  rfl

/-- The experiment is the pipeline over the iris table. -/
theorem run_reports (config : Config) :
    Reports (Pipeline.run (.ok Iris.dataset) config.testFraction config.seed config.neighbors)
      (run config) := by
  -- the experiment does not keep the stages, so both are read off the course
  have hcourse := Iris.dataset_wellFormed.course config.testFraction config.seed config.neighbors
  generalize Pipeline.run (.ok Iris.dataset) config.testFraction config.seed config.neighbors =
    outcome at hcourse
  cases hcourse with
  | unsplit hsplit he =>
    rw [run_of_split Iris.load_eq.1 hsplit]
    exact reports_error rfl
  | @unfitted split hsplit hk =>
    have heval := (Iris.dataset_wellFormed.usable hsplit).evaluation config.neighbors
    have hfit := (heval.fit_error_iff _).2 ⟨hk, rfl⟩
    rw [run_of_split Iris.load_eq.1 hsplit]
    show Reports _ (orFail ((Model.new config.neighbors).fit _ _).1 >>= _)
    rw [hfit]
    exact reports_error rfl
  | @scored split m predictions score hsplit hfit hscored hscore =>
    have husable := Iris.dataset_wellFormed.usable hsplit
    rw [run_of_split Iris.load_eq.1 hsplit]
    show Reports _ (orFail ((Model.new config.neighbors).fit _ _).1 >>= _)
    rw [hfit]
    show Reports _ (m.score split.test.features split.test.labels >>= _)
    rw [hscore]
    refine ⟨fun failure => iff_of_false nofun nofun, fun r hr => ?_⟩
    cases hr
    exact ⟨split.train.indices, predictions, rfl, husable.train_labels, husable.test_labels⟩

end Experiment

/-- **Every table that can be read is evaluated safely.** Its split fails for the fraction or
for an empty train side, a fit for the number of neighbours, and nothing else fails: the
model labels each row of the test side with a label of the train side and is scored by the
rows it gets right. The iris table can be read and has fifty flowers of each species, and the
experiment is such a run over it. -/
theorem parse_pipeline_sound :
    (∀ bytes d, Dataset.parse bytes = .ok d → ∀ fraction seed k, Sound d fraction seed k) ∧
      (Iris.load = .ok Iris.dataset ∧ Iris.dataset.labels = Iris.labels) ∧
      ∀ config : Experiment.Config,
        Sound Iris.dataset config.testFraction config.seed config.neighbors ∧
          Experiment.Reports
            (Pipeline.run (.ok Iris.dataset) config.testFraction config.seed config.neighbors)
            (Experiment.run config) := by
  refine ⟨fun bytes d h fraction seed k => ?_, Iris.load_eq, fun config => ⟨?_, ?_⟩⟩
  · exact (Dataset.parse_wellFormed h).sound fraction seed k
  · exact Iris.dataset_wellFormed.sound config.testFraction config.seed config.neighbors
  · exact Experiment.run_reports config

/-- A table of three flowers. -/
def threeFlowers : List UInt8 :=
  "a,b,c,d,species\n5.1,3.5,1.4,.2,setosa\n7,3.2,4.7,1.4,versicolor\n6,3,5,2,virginica\n"
    |>.toUTF8.toList

theorem parse_threeFlowers_sound :
    ∃ d, Dataset.parse threeFlowers = .ok d ∧ d.labels = [0, 1, 2] ∧ Sound d 0.5 42 1 := by
  have hlabels : (Dataset.parse threeFlowers).toOption.map Dataset.labels = some [0, 1, 2] := by
    decide +kernel
  cases h : Dataset.parse threeFlowers with
  | error e =>
    rw [h] at hlabels
    cases hlabels
  | ok d =>
    rw [h] at hlabels
    exact ⟨d, rfl, Option.some.inj hlabels, parse_pipeline_sound.1 threeFlowers d h 0.5 42 1⟩

end NearestNeighbors
