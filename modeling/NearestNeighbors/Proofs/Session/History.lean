import Mathlib.Data.List.Induction
import NearestNeighbors.Proofs.Session.Invariant

/-!
# A fit forgets what was before it

A fit takes nothing but the number of neighbours from the model it finds. So a model is
at any moment of a run either new or a new model with one fit of the run, and what a
session answers after a fit can be read off that fit alone.

* `fit_outcome`: how a fit ends, and which model it leaves.
* `run_traced`: where the two models of a session come from.
* `answers_eq_of_model_eq`: two sessions with one model at work answer alike, as long as
  they bring back only what they have set aside themselves.
* `run_fit_forgets` (every run): all of this after any row of commands.
-/

namespace NearestNeighbors

variable {features : Matrix} {labels : List Nat}

/-! ## One fit -/

/-- **How a fit of a model with `k` neighbours ends**, and which model it leaves. -/
structure FitOutcome (k : Nat) (features : Matrix) (labels : List Nat)
    (result : Except Error Unit × Model) : Prop where
  lengthMismatch_iff : ∀ rows count, result.1 = .error (.lengthMismatch rows count) ↔
    features.size ≠ labels.length ∧ rows = features.size ∧ count = labels.length
  empty_iff : result.1 = .error .empty ↔ features.size = labels.length ∧ features.size = 0
  invalidNeighbors_iff : ∀ neighbors samples,
    result.1 = .error (.invalidNeighbors neighbors samples) ↔
      features.size = labels.length ∧ features.size ≠ 0 ∧ (k = 0 ∨ features.size < k) ∧
        neighbors = k ∧ samples = features.size
  ok_iff : result.1 = .ok () ↔ features.size = labels.length ∧ 1 ≤ k ∧ k ≤ features.size
  failed : result.1 ≠ .ok () → result.2 = .new k
  fitted : result.1 = .ok () → result.2 = ⟨k, some features, labels⟩

namespace Model

theorem fit_outcome (m : Model) (features : Matrix) (labels : List Nat) :
    FitOutcome m.neighbors features labels (m.fit features labels) := by
  rcases fit_cases m features labels with
    ⟨hlen, h⟩ | ⟨hlen, hzero, h⟩ | ⟨hlen, hzero, hk, h⟩ | ⟨hlen, hpos, hle, h⟩ <;> rw [h]
  · exact {
      lengthMismatch_iff := by
        intro rows count
        constructor
        · intro h
          cases h
          exact ⟨hlen, rfl, rfl⟩
        · rintro ⟨-, rfl, rfl⟩
          rfl
      empty_iff := iff_of_false nofun fun h => hlen h.1
      invalidNeighbors_iff := fun _ _ => iff_of_false nofun fun h => hlen h.1
      ok_iff := iff_of_false nofun fun h => hlen h.1
      failed := fun _ => rfl
      fitted := nofun }
  · exact {
      lengthMismatch_iff := fun _ _ => iff_of_false nofun fun h => h.1 hlen
      empty_iff := iff_of_true rfl ⟨hlen, hzero⟩
      invalidNeighbors_iff := fun _ _ => iff_of_false nofun fun h => h.2.1 hzero
      ok_iff := iff_of_false nofun fun h => by omega
      failed := fun _ => rfl
      fitted := nofun }
  · exact {
      lengthMismatch_iff := fun _ _ => iff_of_false nofun fun h => h.1 hlen
      empty_iff := iff_of_false nofun fun h => hzero h.2
      invalidNeighbors_iff := by
        intro neighbors samples
        constructor
        · intro h
          cases h
          exact ⟨hlen, hzero, hk, rfl, rfl⟩
        · rintro ⟨-, -, -, rfl, rfl⟩
          rfl
      ok_iff := iff_of_false nofun fun h => by omega
      failed := fun _ => rfl
      fitted := nofun }
  · exact {
      lengthMismatch_iff := fun _ _ => iff_of_false nofun fun h => h.1 hlen
      empty_iff := iff_of_false nofun fun h => by omega
      invalidNeighbors_iff := fun _ _ => iff_of_false nofun fun h => by omega
      ok_iff := iff_of_true rfl ⟨hlen, hpos, hle⟩
      failed := fun h => absurd rfl h
      fitted := fun _ => rfl }

/-- The training set found by a fit plays no part in it. -/
theorem fit_eq_fit_new (m : Model) (features : Matrix) (labels : List Nat) :
    m.fit features labels = (new m.neighbors).fit features labels := rfl

theorem fit_neighbors (m : Model) (features : Matrix) (labels : List Nat) :
    (m.fit features labels).2.neighbors = m.neighbors := by
  rcases fit_cases m features labels with
    ⟨-, h⟩ | ⟨-, -, h⟩ | ⟨-, -, -, h⟩ | ⟨-, -, -, h⟩ <;> rw [h] <;> rfl

end Model

namespace Session

/-! ## Where a model comes from -/

/-- **The origin of a model** in the run of `commands` from a new session: it is new, or a
new model with a fit of the run that succeeded. -/
def Traced (k₀ : Nat) (commands : List Command) (m : Model) : Prop :=
  (∃ k, m = .new k) ∨
    ∃ before features labels after, commands = before ++ .fit features labels :: after ∧
      (Model.new ((new k₀).run before).model.neighbors).fit features labels = (.ok (), m)

/-- What a model comes from does not change later. -/
theorem Traced.concat {k₀ : Nat} {commands : List Command} {m : Model}
    (h : Traced k₀ commands m) (c : Command) : Traced k₀ (commands ++ [c]) m := by
  rcases h with h | ⟨before, features, labels, after, rfl, hfit⟩
  · exact .inl h
  · exact .inr ⟨before, features, labels, after ++ [c], by simp, hfit⟩

/-- A fit leaves a new model when it fails, and its own model when it succeeds. -/
theorem traced_fit (k₀ : Nat) (commands : List Command) (features : Matrix)
    (labels : List Nat) :
    Traced k₀ (commands ++ [.fit features labels])
      (((new k₀).run commands).model.fit features labels).2 := by
  set m := ((new k₀).run commands).model with hm
  have hout := m.fit_outcome features labels
  by_cases hok : (m.fit features labels).1 = .ok ()
  · refine .inr ⟨commands, features, labels, [], rfl, ?_⟩
    rw [← hm, ← Model.fit_eq_fit_new]
    exact Prod.ext hok rfl
  · exact .inl ⟨m.neighbors, hout.failed hok⟩

/-- The origin of both models in any run. -/
theorem run_traced (k₀ : Nat) (commands : List Command) :
    Traced k₀ commands ((new k₀).run commands).model ∧
      Traced k₀ commands ((new k₀).run commands).saved := by
  induction commands using List.reverseRecOn with
  | nil => exact ⟨.inl ⟨k₀, rfl⟩, .inl ⟨k₀, rfl⟩⟩
  | append_singleton commands c ih =>
    have hmodel := ih.1.concat c
    have hsaved := ih.2.concat c
    rw [run_append]
    cases c with
    | new k => exact ⟨.inl ⟨k, rfl⟩, hsaved⟩
    | save => exact ⟨hmodel, hmodel⟩
    | restore => exact ⟨hsaved, hsaved⟩
    | fit features labels => exact ⟨traced_fit k₀ commands features labels, hsaved⟩
    | predict query => exact ⟨hmodel, hsaved⟩
    | predictBatch features => exact ⟨hmodel, hsaved⟩
    | score features labels => exact ⟨hmodel, hsaved⟩

/-! ## Neighbours -/

/-- The number of neighbours changes by `new` and `restore` only. -/
theorem step_neighbors (s : Session) (c : Command) (hnew : ∀ k, c ≠ .new k)
    (hrestore : c ≠ .restore) : (s.step c).2.model.neighbors = s.model.neighbors := by
  cases c with
  | new k => exact absurd rfl (hnew k)
  | restore => exact absurd rfl hrestore
  | fit features labels => exact s.model.fit_neighbors features labels
  | save => rfl
  | predict query => rfl
  | predictBatch features => rfl
  | score features labels => rfl

theorem run_neighbors (s : Session) (commands : List Command)
    (h : ∀ c ∈ commands, (∀ k, c ≠ .new k) ∧ c ≠ .restore) :
    (s.run commands).model.neighbors = s.model.neighbors := by
  induction commands generalizing s with
  | nil => rfl
  | cons c cs ih =>
    have hc := h c List.mem_cons_self
    exact (ih (s.step c).2 fun c' hc' => h c' (List.mem_cons_of_mem _ hc')).trans
      (step_neighbors s c hc.1 hc.2)

/-! ## Answers -/

/-- The answers to a row of commands. -/
def answers (s : Session) (commands : List Command) : List (Except Failure Answer) :=
  (s.trace commands).map Prod.fst

theorem answers_cons (s : Session) (c : Command) (cs : List Command) :
    s.answers (c :: cs) = (s.step c).1 :: (s.step c).2.answers cs := rfl

/-- Every `restore` among the commands has a `save` before it. -/
def RestoresOwn (commands : List Command) : Prop :=
  ∀ before after, commands = before ++ .restore :: after → .save ∈ before

theorem RestoresOwn.tail {c : Command} {cs : List Command} (h : RestoresOwn (c :: cs))
    (hc : c ≠ .save) : RestoresOwn cs := by
  intro before after hcs
  have hmem := h (c :: before) after (by rw [hcs]; rfl)
  rcases List.mem_cons.1 hmem with he | hmem
  · exact absurd he.symm hc
  · exact hmem

/-- Apart from `restore`, a command sees the model at work and nothing else. -/
theorem step_congr {s s' : Session} (h : s.model = s'.model) {c : Command} (hc : c ≠ .restore) :
    (s.step c).1 = (s'.step c).1 ∧ (s.step c).2.model = (s'.step c).2.model := by
  obtain ⟨m, saved⟩ := s
  obtain ⟨m', saved'⟩ := s'
  cases h
  cases c with
  | restore => exact absurd rfl hc
  | new k => exact ⟨rfl, rfl⟩
  | save => exact ⟨rfl, rfl⟩
  | fit features labels => exact ⟨rfl, rfl⟩
  | predict query => exact ⟨rfl, rfl⟩
  | predictBatch features => exact ⟨rfl, rfl⟩
  | score features labels => exact ⟨rfl, rfl⟩

/-- **Two sessions with one model at work answer alike**, whatever they have set aside, as
long as they bring back only what they set aside from then on. -/
theorem answers_eq_of_model_eq {s s' : Session} (h : s.model = s'.model)
    {commands : List Command} (hown : RestoresOwn commands) :
    s.answers commands = s'.answers commands := by
  induction commands generalizing s s' with
  | nil => rfl
  | cons c cs ih =>
    have hrestore : c ≠ .restore := by
      rintro rfl
      exact absurd (hown [] cs rfl) List.not_mem_nil
    obtain ⟨hanswer, hmodel⟩ := step_congr h hrestore
    rw [answers_cons, answers_cons, hanswer]
    by_cases hsave : c = .save
    · -- from here on nothing is left in which the sessions differ
      have hs : (s.step c).2 = (s'.step c).2 := by
        subst hsave
        show Session.mk s.model s.model = Session.mk s'.model s'.model
        rw [h]
      rw [hs]
    · rw [ih hmodel (hown.tail hsave)]

/-- **A fit forgets all history.** After any row of commands, a fit ends as that of a new
model with as many neighbours and leaves the same model, and all answers from the fit on
are those of a new session; both models are new or come from one fit of the run; and the
number of neighbours stays until the next `new` or `restore`. -/
theorem run_fit_forgets (k₀ : Nat) (commands : List Command) :
    let s := (new k₀).run commands
    (∀ features labels,
      s.model.fit features labels = (Model.new s.model.neighbors).fit features labels ∧
        FitOutcome s.model.neighbors features labels (s.model.fit features labels) ∧
        ∀ later, RestoresOwn later →
          s.answers (.fit features labels :: later) =
            (new s.model.neighbors).answers (.fit features labels :: later)) ∧
      (Traced k₀ commands s.model ∧ Traced k₀ commands s.saved) ∧
      ∀ later, (∀ c ∈ later, (∀ k, c ≠ .new k) ∧ c ≠ .restore) →
        (s.run later).model.neighbors = s.model.neighbors := by
  intro s
  refine ⟨fun features labels => ⟨rfl, s.model.fit_outcome features labels, ?_⟩,
    run_traced k₀ commands, fun later h => run_neighbors s later h⟩
  intro later hown
  have hmodel : s.model.fit features labels = (Model.new s.model.neighbors).fit features labels :=
    s.model.fit_eq_fit_new features labels
  have hlater : (s.step (.fit features labels)).2.answers later =
      ((new s.model.neighbors).step (.fit features labels)).2.answers later :=
    answers_eq_of_model_eq (congrArg Prod.snd hmodel) hown
  rw [answers_cons, answers_cons, hlater]
  rfl

end Session

end NearestNeighbors
