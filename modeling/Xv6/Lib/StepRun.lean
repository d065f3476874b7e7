import Mathlib.Tactic

/-!
Contract: procedures made of atomic steps, and what a crash leaves of them.

A procedure that changes a device one whole unit at a time is a list of state
transformers. A crash keeps the effect of some prefix of that list and loses
the rest; a recovery procedure that reads the device when it starts is a
function from the state to its own list of steps, and may itself be cut any
number of times before one run completes.

Owns:
- `runSteps` and how it composes over concatenation and prefixes;
- the invariant rule for every prefix of a step list;
- `crashRuns`, `recoverAfter` and the recovery rule: if every prefix of a recovery run keeps
  an invariant and every complete run establishes a postcondition, then so does
  the first complete run after any sequence of interrupted ones.

Names nothing of the system it is used for.
-/

namespace StepRun

universe u

variable {σ : Type u}

/-- Apply the steps in order. -/
def runSteps : List (σ → σ) → σ → σ
  | [], state => state
  | step :: rest, state => runSteps rest (step state)

@[simp] theorem runSteps_nil (state : σ) : runSteps [] state = state := rfl

@[simp] theorem runSteps_cons (step : σ → σ) (rest : List (σ → σ)) (state : σ) :
    runSteps (step :: rest) state = runSteps rest (step state) := rfl

theorem runSteps_append (first second : List (σ → σ)) (state : σ) :
    runSteps (first ++ second) state = runSteps second (runSteps first state) := by
  induction first generalizing state with
  | nil => rfl
  | cons step rest inductionHypothesis => exact inductionHypothesis (step state)

/-- A cut of two phases in sequence is a cut of the first phase followed by a
cut of the second, which is empty unless the first phase completed. -/
theorem runSteps_take_append (first second : List (σ → σ)) (cut : Nat) (state : σ) :
    runSteps ((first ++ second).take cut) state =
      runSteps (second.take (cut - first.length)) (runSteps (first.take cut) state) := by
  rw [List.take_append, runSteps_append]

/-- A cut that reaches past the end of the first phase completes it. -/
theorem runSteps_take_append_of_le (first second : List (σ → σ)) {cut : Nat}
    (past : first.length ≤ cut) (state : σ) :
    runSteps ((first ++ second).take cut) state =
      runSteps (second.take (cut - first.length)) (runSteps first state) := by
  rw [runSteps_take_append, List.take_of_length_le past]

/-- A property that every step keeps holds after every crash point. -/
theorem runSteps_take_of_forall {steps : List (σ → σ)} {Holds : σ → Prop}
    (preserved : ∀ step ∈ steps, ∀ state, Holds state → Holds (step state)) :
    ∀ (cut : Nat) (state : σ), Holds state → Holds (runSteps (steps.take cut) state) := by
  induction steps with
  | nil => intro cut state holds; simpa using holds
  | cons step rest inductionHypothesis =>
      intro cut state holds
      cases cut with
      | zero => simpa using holds
      | succ cut =>
          simp only [List.take_succ_cons, runSteps_cons]
          apply inductionHypothesis (fun other member => preserved other (by simp [member]))
          exact preserved step (by simp) state holds

/-! ### Interrupted recoveries -/

/-- Runs of `recover`, the `i`-th of them cut after `cuts[i]` of its steps.
Each run computes its steps from the state it starts in. -/
def crashRuns (recover : σ → List (σ → σ)) : List Nat → σ → σ
  | [], state => state
  | cut :: cuts, state => crashRuns recover cuts (runSteps ((recover state).take cut) state)

/-- The first complete run of `recover` after the interrupted runs `cuts`. -/
def recoverAfter (recover : σ → List (σ → σ)) (cuts : List Nat) (state : σ) : σ :=
  runSteps (recover (crashRuns recover cuts state)) (crashRuns recover cuts state)

section Recovery

variable {recover : σ → List (σ → σ)} {Stable Done : σ → Prop}

theorem crashRuns_stable
    (cutStable : ∀ state cut, Stable state → Stable (runSteps ((recover state).take cut) state)) :
    ∀ (cuts : List Nat) (state : σ), Stable state → Stable (crashRuns recover cuts state) := by
  intro cuts
  induction cuts with
  | nil => intro state stable; exact stable
  | cons cut cuts inductionHypothesis =>
      intro state stable
      exact inductionHypothesis _ (cutStable state cut stable)

/-- The first complete recovery after any number of interrupted ones ends in
`Done`, provided every cut keeps `Stable` and a complete run from a `Stable`
state ends in `Done`. -/
theorem done_after_crashRuns
    (cutStable : ∀ state cut, Stable state → Stable (runSteps ((recover state).take cut) state))
    (complete : ∀ state, Stable state → Done (runSteps (recover state) state))
    (cuts : List Nat) {state : σ} (stable : Stable state) :
    Done (recoverAfter recover cuts state) :=
  complete _ (crashRuns_stable cutStable cuts state stable)

end Recovery

end StepRun
