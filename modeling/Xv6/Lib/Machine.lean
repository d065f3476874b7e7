import Mathlib.Logic.Relation

/-!
Contract: systems given by a partial step function on events, and the states
every interleaving of events reaches.

A component with several callers is modelled by `step : σ → ε → Option σ`:
`none` means the event cannot happen in that state (a call its caller may not
make, or a panic that stops the system). `Reachable step init` holds of every
state that some sequence of events leads to from `init`; `run` executes a given
sequence, so that a concrete interleaving can be checked by evaluation.

A scheduler `next` that picks the event to happen in each state drives a run
(`drive`); a potential that every picked event lowers bounds how long it lasts
(`drive_potential`). A rank that every event lowers bounds the length of every
run (`run_length_add_le`), and a run driven for as many events as the rank ends
where the scheduler picks nothing that can happen (`drive_stuck`).

Owns: `Next`, `Reachable`, `run`, `drive`, the invariant rule for reachable
states, the lemmas that `run` and `drive` only reach reachable states, and the
potential and ranking rules for runs and driven runs.

Names nothing of the system it is used for.
-/

namespace Machine

variable {σ ε : Type*} (step : σ → ε → Option σ)

/-- One event leads from `s` to `s'`. -/
def Next (s s' : σ) : Prop :=
  ∃ event, step s event = some s'

/-- The states of every interleaving of events from `init`. -/
def Reachable (init s : σ) : Prop :=
  Relation.ReflTransGen (Next step) init s

/-- Events in order, stopping at the first that cannot happen. -/
def run : σ → List ε → Option σ
  | s, [] => some s
  | s, event :: rest => (step s event).bind fun s' => run s' rest

variable {step}

/-- **Invariant rule.** What holds initially and is kept by every event holds in
every reachable state. -/
theorem Reachable.invariant {Inv : σ → Prop} {init s : σ} (base : Inv init)
    (preserve : ∀ s event s', Inv s → step s event = some s' → Inv s')
    (reachable : Reachable step init s) : Inv s := by
  induction reachable with
  | refl => exact base
  | tail _ next holds =>
      obtain ⟨event, stepped⟩ := next
      exact preserve _ event _ holds stepped

theorem reachable_of_run {init : σ} :
    ∀ {s : σ} {events : List ε} {s' : σ},
      Reachable step init s → run step s events = some s' → Reachable step init s'
  | s, [], s', reachable, ran => by
      simp only [run, Option.some.injEq] at ran
      exact ran ▸ reachable
  | s, event :: rest, s', reachable, ran => by
      simp only [run, Option.bind_eq_some_iff] at ran
      obtain ⟨middle, stepped, rest⟩ := ran
      exact reachable_of_run (reachable.tail ⟨event, stepped⟩) rest

/-- Events of another kind, each standing for an event of the system, run as the
system whose events are those. -/
theorem run_map {ε' : Type*} (f : ε' → ε) :
    ∀ (s : σ) (events : List ε'), run step s (events.map f) = run (fun s e => step s (f e)) s events
  | s, [] => rfl
  | s, event :: rest => by
    simp only [List.map_cons, run]
    cases step s (f event) with
    | none => rfl
    | some s' => exact run_map f s' rest

/-- **Ranking rule.** If every event from a state of the invariant keeps it and
lowers the rank `φ`, a run from such a state adds up, with the rank it ends at, to
at most the rank it starts from: it has at most `φ` events. -/
theorem run_length_add_le {Inv : σ → Prop} {φ : σ → Nat}
    (preserve : ∀ s event s', Inv s → step s event = some s' → Inv s')
    (lower : ∀ s event s', Inv s → step s event = some s' → φ s' < φ s) :
    ∀ {s s' : σ} {events : List ε}, Inv s → run step s events = some s' → events.length + φ s' ≤ φ s
  | s, s', [], _, ran => by
    simp only [run, Option.some.injEq] at ran
    subst ran
    simp
  | s, s', event :: rest, holds, ran => by
    simp only [run, Option.bind_eq_some_iff] at ran
    obtain ⟨middle, stepped, rest'⟩ := ran
    have lowered := lower s event middle holds stepped
    have later := run_length_add_le preserve lower (preserve s event middle holds stepped) rest'
    rw [List.length_cons]
    omega

/-- A run whose last state passes the test `p` shows a reachable state passing it. -/
theorem exists_reachable_of_run_any {init : σ} {events : List ε} {p : σ → Bool}
    (passes : (run step init events).any p = true) : ∃ s, Reachable step init s ∧ p s = true := by
  cases ran : run step init events with
  | none =>
    rw [ran] at passes
    cases passes
  | some s =>
    rw [ran, Option.any_some] at passes
    exact ⟨s, reachable_of_run Relation.ReflTransGen.refl ran, passes⟩

section Drive

variable (step) (next : σ → Option ε)

/-- At most `fuel` events, each the one `next` picks, stopping where it picks none
or its event cannot happen. -/
def drive : Nat → σ → σ
  | 0, s => s
  | fuel + 1, s =>
    match (next s).bind (step s) with
    | some s' => drive fuel s'
    | none => s

variable {step next}

theorem Reachable.drive {init s : σ} (reachable : Reachable step init s) (fuel : Nat) :
    Reachable step init (drive step next fuel s) := by
  induction fuel generalizing s with
  | zero => exact reachable
  | succ fuel ih =>
    rw [Machine.drive]
    split
    · next s' picked =>
      obtain ⟨event, -, stepped⟩ := Option.bind_eq_some_iff.mp picked
      exact ih (reachable.tail ⟨event, stepped⟩)
    · exact reachable

/-- **Potential rule.** If, in every state of the invariant, the event `next` picks
keeps the invariant and, while the potential is positive, can happen and lowers it,
and `next` picks nothing at potential zero, then a run driven for as many events as
the potential reaches a state of the invariant at potential zero. -/
theorem drive_potential {Inv : σ → Prop} {φ : σ → Nat}
    (preserve : ∀ s s', Inv s → (next s).bind (step s) = some s' → Inv s')
    (progress : ∀ s, Inv s → 0 < φ s → ∃ s', (next s).bind (step s) = some s' ∧ φ s' < φ s)
    (stop : ∀ s, Inv s → φ s = 0 → next s = none) :
    ∀ fuel s, Inv s → φ s ≤ fuel → Inv (drive step next fuel s) ∧ φ (drive step next fuel s) = 0 := by
  intro fuel
  induction fuel with
  | zero =>
    intro s holds bound
    exact ⟨holds, Nat.le_zero.mp bound⟩
  | succ fuel ih =>
    intro s holds bound
    rcases Nat.eq_zero_or_pos (φ s) with zero | pos
    · -- at potential zero the run stops where it is
      have idle : (next s).bind (step s) = none := by rw [stop s holds zero, Option.bind_none]
      rw [drive, idle]
      exact ⟨holds, zero⟩
    · obtain ⟨s', picked, lower⟩ := progress s holds pos
      rw [drive, picked]
      exact ih s' (preserve s s' holds picked) (by omega)

/-- **Ranking rule for driven runs.** If every event `next` picks in a state of the
invariant keeps it and lowers the rank `φ`, a run driven for at least `φ` events
ends in a state of the invariant where `next` picks nothing that can happen. -/
theorem drive_stuck {Inv : σ → Prop} {φ : σ → Nat}
    (preserve : ∀ s s', Inv s → (next s).bind (step s) = some s' → Inv s')
    (lower : ∀ s s', Inv s → (next s).bind (step s) = some s' → φ s' < φ s) :
    ∀ fuel s, Inv s → φ s ≤ fuel →
      Inv (drive step next fuel s) ∧ (next (drive step next fuel s)).bind (step (drive step next fuel s)) = none := by
  intro fuel
  induction fuel with
  | zero =>
    intro s holds bound
    -- at rank zero an event picked would lower the rank below zero
    refine ⟨holds, ?_⟩
    show (next s).bind (step s) = none
    cases picked : (next s).bind (step s) with
    | none => rfl
    | some s' =>
      have lowered := lower s s' holds picked
      omega
  | succ fuel ih =>
    intro s holds bound
    cases picked : (next s).bind (step s) with
    | none =>
      rw [drive, picked]
      exact ⟨holds, picked⟩
    | some s' =>
      have lowered := lower s s' holds picked
      rw [drive, picked]
      exact ih s' (preserve s s' holds picked) (by omega)

end Drive

end Machine
