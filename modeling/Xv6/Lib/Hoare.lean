import Mathlib.Logic.Basic

/-!
Contract: partial-correctness triples for programs in a state monad over
`Except` (`StateT σ (Except ε)`). From a state satisfying the precondition, a
program either returns, with a value and a state satisfying the postcondition,
or fails with an error the error condition allows; a program that may fail is
specified by naming the failures it may show. The rules follow the structure
of a program: `pure`, `>>=`, `<$>`, `get`, `set`, `modify`, `throw`, `if`, loops over
a list, and the weakening and conjunction of triples.

Owns: `Holds`, `Triple` and its rules.

Names nothing of the system it is used for.
-/

namespace Hoare

universe u

variable {σ ε α β : Type u}

/-- What a result satisfies: a return satisfies `Q` of its value and state, a
failure satisfies `E` of its error. -/
def Holds (Q : α → σ → Prop) (E : ε → Prop) : Except ε (α × σ) → Prop
  | .ok (a, s) => Q a s
  | .error e => E e

@[simp] theorem holds_ok {Q : α → σ → Prop} {E : ε → Prop} (a : α) (s : σ) :
    Holds Q E (.ok (a, s)) = Q a s := rfl

@[simp] theorem holds_error {Q : α → σ → Prop} {E : ε → Prop} (e : ε) :
    Holds Q E (.error e) = E e := rfl

@[simp] theorem holds_pure {Q : α → σ → Prop} {E : ε → Prop} (a : α) (s : σ) :
    Holds Q E (pure (a, s)) = Q a s := rfl

@[simp] theorem holds_pure_apply {Q : α → σ → Prop} {E : ε → Prop} (a : α) (s : σ) :
    Holds Q E ((pure a : StateT σ (Except ε) α) s) = Q a s := rfl

/-- A failure of the inner monad is the failure of the run. -/
@[simp] theorem run_throw (e : ε) (s : σ) :
    (throw e : StateT σ (Except ε) α).run s = .error e := rfl

@[simp] theorem error_bind (e : ε) (f : α → Except ε β) : (Except.error e >>= f) = .error e := rfl

@[simp] theorem ok_bind (a : α) (f : α → Except ε β) : (Except.ok a >>= f) = f a := rfl

@[simp] theorem throw_bind (e : ε) (f : α → Except ε β) : (throw e >>= f : Except ε β) = .error e :=
  rfl

@[simp] theorem map_throw (e : ε) (f : α → β) : (f <$> throw e : Except ε β) = .error e := rfl

/-- A result that holds, followed by a step that keeps what holds. -/
theorem Holds.bind {Q : α → σ → Prop} {R : β → σ → Prop} {E : ε → Prop} {x : Except ε (α × σ)}
    {f : α × σ → Except ε (β × σ)} (first : Holds Q E x) (rest : ∀ a s, Q a s → Holds R E (f (a, s))) :
    Holds R E (x >>= f) := by
  cases x with
  | error e => exact first
  | ok result => exact rest result.1 result.2 first

theorem Holds.weaken {Q Q' : α → σ → Prop} {E E' : ε → Prop} {x : Except ε (α × σ)}
    (holds : Holds Q E x) (weaker : ∀ a s, Q a s → Q' a s) (err : ∀ e, E e → E' e) :
    Holds Q' E' x := by
  cases x with
  | error e => exact err e holds
  | ok result => exact weaker result.1 result.2 holds

theorem Holds.mono {Q Q' : α → σ → Prop} {E : ε → Prop} {x : Except ε (α × σ)}
    (holds : Holds Q E x) (weaker : ∀ a s, Q a s → Q' a s) : Holds Q' E x :=
  holds.weaken weaker fun _ => id

theorem Holds.and {Q Q' : α → σ → Prop} {E : ε → Prop} {x : Except ε (α × σ)}
    (left : Holds Q E x) (right : Holds Q' E x) : Holds (fun a s => Q a s ∧ Q' a s) E x := by
  cases x with
  | error e => exact left
  | ok result => exact ⟨left, right⟩

theorem Holds.map {Q : β → σ → Prop} {E : ε → Prop} {x : Except ε (α × σ)} {g : α → β}
    (holds : Holds (fun a => Q (g a)) E x) : Holds Q E ((fun p => (g p.1, p.2)) <$> x) := by
  cases x with
  | error e => exact holds
  | ok result => exact holds

/- A goal `Holds Q E (m.run s)` is only ever taken apart by the lemmas above:
unfolding `Holds` would make Lean evaluate `m`. -/
attribute [irreducible] Holds

/-- From every state satisfying `P`, `m` returns into `Q` or fails into `E`. -/
def Triple (P : σ → Prop) (m : StateT σ (Except ε) α) (Q : α → σ → Prop) (E : ε → Prop) :
    Prop :=
  ∀ s, P s → Holds Q E (m.run s)

namespace Triple

variable {P P' : σ → Prop} {Q Q' : α → σ → Prop} {R : β → σ → Prop} {E E' : ε → Prop}

theorem ret {a : α} (post : ∀ s, P s → Q a s) :
    Triple P (pure a : StateT σ (Except ε) α) Q E := by
  intro s pre
  rw [StateT.run_pure, holds_pure]
  exact post s pre

theorem bind {m : StateT σ (Except ε) α} {f : α → StateT σ (Except ε) β}
    (first : Triple P m Q E) (rest : ∀ a, Triple (Q a) (f a) R E) : Triple P (m >>= f) R E := by
  intro s pre
  rw [StateT.run_bind]
  exact (first s pre).bind fun a s' holds => rest a s' holds

/-- `m` then `k`, when what `m` returns is not used. -/
theorem seq {m : StateT σ (Except ε) PUnit} {k : StateT σ (Except ε) β} {Q : σ → Prop}
    (first : Triple P m (fun _ => Q) E) (rest : Triple Q k R E) :
    Triple P (m >>= fun _ => k) R E :=
  bind first fun _ => rest

theorem map {m : StateT σ (Except ε) α} {g : α → β} (triple : Triple P m (fun a => R (g a)) E) :
    Triple P (g <$> m) R E := by
  intro s pre
  rw [StateT.run_map]
  exact (triple s pre).map

theorem get {Q : σ → σ → Prop} (post : ∀ s, P s → Q s s) :
    Triple P (MonadStateOf.get : StateT σ (Except ε) σ) Q E := by
  intro s pre
  show Holds Q E (pure (s, s))
  rw [holds_pure]
  exact post s pre

theorem set {s' : σ} {Q : PUnit → σ → Prop} (post : ∀ s, P s → Q ⟨⟩ s') :
    Triple P (MonadStateOf.set s' : StateT σ (Except ε) PUnit) Q E := by
  intro s pre
  show Holds Q E (pure (⟨⟩, s'))
  rw [holds_pure]
  exact post s pre

theorem modify {f : σ → σ} {Q : PUnit → σ → Prop} (post : ∀ s, P s → Q ⟨⟩ (f s)) :
    Triple P (modify f : StateT σ (Except ε) PUnit) Q E := by
  intro s pre
  show Holds Q E (pure (⟨⟩, f s))
  rw [holds_pure]
  exact post s pre

theorem throw {e : ε} (allowed : E e) : Triple P (throw e : StateT σ (Except ε) α) Q E := by
  intro s _
  rw [run_throw, holds_error]
  exact allowed

theorem ite {c : Prop} [Decidable c] {t f : StateT σ (Except ε) α}
    (yes : c → Triple P t Q E) (no : ¬c → Triple P f Q E) :
    Triple P (if c then t else f) Q E := by
  by_cases holds : c
  · rw [if_pos holds]
    exact yes holds
  · rw [if_neg holds]
    exact no holds

theorem dite {c : Prop} [Decidable c] {t : c → StateT σ (Except ε) α}
    {f : ¬c → StateT σ (Except ε) α}
    (yes : ∀ h, Triple P (t h) Q E) (no : ∀ h, Triple P (f h) Q E) :
    Triple P (if h : c then t h else f h) Q E := by
  by_cases holds : c
  · rw [dif_pos holds]
    exact yes holds
  · rw [dif_neg holds]
    exact no holds

theorem weaken {m : StateT σ (Except ε) α} (triple : Triple P m Q E) (pre : ∀ s, P' s → P s)
    (post : ∀ a s, Q a s → Q' a s) (err : ∀ e, E e → E' e) : Triple P' m Q' E' :=
  fun s holds => (triple s (pre s holds)).weaken post err

theorem post {m : StateT σ (Except ε) α} (triple : Triple P m Q E)
    (weaker : ∀ a s, Q a s → Q' a s) : Triple P m Q' E :=
  triple.weaken (fun _ => id) weaker (fun _ => id)

theorem pre {m : StateT σ (Except ε) α} (triple : Triple P m Q E) (stronger : ∀ s, P' s → P s) :
    Triple P' m Q E :=
  triple.weaken stronger (fun _ _ => id) (fun _ => id)

/-- Two postconditions proved apart hold together. -/
theorem and {m : StateT σ (Except ε) α} (left : Triple P m Q E) (right : Triple P m Q' E) :
    Triple P m (fun a s => Q a s ∧ Q' a s) E :=
  fun s holds => (left s holds).and (right s holds)

/-- A fact about the values the precondition speaks of may be assumed. -/
theorem assume {c : Prop} {m : StateT σ (Except ε) α} (triple : c → Triple P m Q E) :
    Triple (fun s => c ∧ P s) m Q E :=
  fun s holds => triple holds.1 s holds.2

/-- A precondition that names a value: prove the triple for each value. -/
theorem exists_pre {γ : Type*} {P : γ → σ → Prop} {m : StateT σ (Except ε) α}
    (triple : ∀ x, Triple (P x) m Q E) : Triple (fun s => ∃ x, P x s) m Q E :=
  fun s holds => holds.elim fun x holds => triple x s holds

/-- **Loop rule.** A loop over a list keeps `I`, indexed by the items left. -/
theorem forM {xs : List β} {f : β → StateT σ (Except ε) PUnit} (I : List β → σ → Prop)
    (step : ∀ x rest, Triple (I (x :: rest)) (f x) (fun _ => I rest) E) :
    Triple (I xs) (xs.forM f) (fun _ => I []) E := by
  induction xs with
  | nil => exact ret fun _ => id
  | cons x rest ih =>
    show Triple _ (f x >>= fun _ => rest.forM f) _ _
    exact bind (step x rest) fun _ => ih

end Triple

end Hoare
