import NearestNeighbors.Classifier

/-!
# Sessions

A session works on a model and keeps a second one aside. Commands replace the model, set
it aside or bring it back, fit it and ask it; a command that fails leaves the session
usable.

* `Session.step`: the effect of one command and its answer.
* `Session.trace`: answers and sessions of a row of commands.
-/

namespace NearestNeighbors

/-- The model at work and the one set aside. -/
structure Session where
  model : Model
  saved : Model

/-- What can be asked of a session. -/
inductive Command where
  | new (neighbors : Nat)
  | save
  | restore
  | fit (features : Matrix) (labels : List Nat)
  | predict (query : List Float)
  | predictBatch (features : Matrix)
  | score (features : Matrix) (labels : List Nat)

/-- What a command gives when it succeeds. -/
inductive Answer where
  | done
  | label (value : Nat)
  | labels (values : List Nat)
  | score (value : Float)

namespace Session

/-- A session with a new model, which is set aside too. -/
def new (neighbors : Nat) : Session := ⟨.new neighbors, .new neighbors⟩

/-- The answer to a command and the session after it. -/
def step (s : Session) : Command → Except Failure Answer × Session
  | .new neighbors => (.ok .done, { s with model := .new neighbors })
  | .save => (.ok .done, { s with saved := s.model })
  | .restore => (.ok .done, { s with model := s.saved })
  | .fit features labels =>
    let (result, model) := s.model.fit features labels
    ((orFail result).map fun _ => .done, { s with model })
  | .predict query => ((s.model.predict query).map .label, s)
  | .predictBatch features => ((s.model.predictBatch features).map .labels, s)
  | .score features labels => ((s.model.score features labels).map .score, s)

/-- The answer to each command, with the session after it. -/
def trace (s : Session) : List Command → List (Except Failure Answer × Session)
  | [] => []
  | c :: cs => s.step c :: (s.step c).2.trace cs

/-- The session after a row of commands. -/
def run (s : Session) (commands : List Command) : Session :=
  commands.foldl (fun s c => (s.step c).2) s

theorem run_append (s : Session) (a b : List Command) : s.run (a ++ b) = (s.run a).run b :=
  List.foldl_append

end Session

end NearestNeighbors
