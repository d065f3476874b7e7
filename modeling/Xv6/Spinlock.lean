import Mathlib.Tactic

/-!
Contract: `push_off`, `pop_off`, `acquire` and `release` of `kernel/spinlock.c`
on one CPU, and the law of their nesting: while every `pop_off` has an earlier
`push_off` to match, `noff` is the nesting depth, interrupts are off inside a
nest, and the interrupt bit outside every nest is the one the CPU started with.

A CPU is the interrupt-enable bit `intr_get` reads, `noff` and `intena` of its
`struct cpu`, and the locks `holding` finds it holds. A lock another CPU holds
makes `acquire` spin until it is free: a call sequence of one CPU is one in
which each `acquire` returned, so the lock it took was free.

Owns: `Cpu`, `pushOff`, `popOff`, `acquire`, `release`, `Op`, `run`, `depth`,
`Matched`, `Nested`.
-/

namespace Xv6.Spinlock

variable {α : Type}

/-- One CPU as the nesting code sees it; `α` names the locks. -/
structure Cpu (α : Type) where
  intr : Bool
  noff : Nat
  intena : Bool
  held : List α
deriving DecidableEq, Repr

/-- `push_off`. -/
def pushOff (c : Cpu α) : Cpu α :=
  let old := c.intr
  let c := { c with intr := false }
  let c := if c.noff = 0 then { c with intena := old } else c
  { c with noff := c.noff + 1 }

/-- `pop_off`. -/
def popOff (c : Cpu α) : Except String (Cpu α) :=
  if c.intr then .error "pop_off - interruptible"
  else if c.noff < 1 then .error "pop_off"
  else
    let c := { c with noff := c.noff - 1 }
    .ok (if c.noff = 0 ∧ c.intena then { c with intr := true } else c)

/-- The calls that change the nesting. -/
inductive Op (α : Type) where
  | pushOff
  | popOff
  | acquire (lk : α)
  | release (lk : α)
deriving DecidableEq, Repr

section Locks

variable [DecidableEq α]

/-- `acquire(lk)`. -/
def acquire (lk : α) (c : Cpu α) : Except String (Cpu α) :=
  let c := pushOff c
  if lk ∈ c.held then .error "acquire" else .ok { c with held := lk :: c.held }

/-- `release(lk)`. -/
def release (lk : α) (c : Cpu α) : Except String (Cpu α) :=
  if lk ∉ c.held then .error "release" else popOff { c with held := c.held.erase lk }

def Op.exec : Op α → Cpu α → Except String (Cpu α)
  | .pushOff, c => .ok (Spinlock.pushOff c)
  | .popOff, c => Spinlock.popOff c
  | .acquire lk, c => Spinlock.acquire lk c
  | .release lk, c => Spinlock.release lk c

/-- The calls in order, up to the first panic. -/
def run : Cpu α → List (Op α) → Except String (Cpu α)
  | c, [] => .ok c
  | c, op :: ops =>
    match op.exec c with
    | .error msg => .error msg
    | .ok c' => run c' ops

end Locks

/-- `+1` for a call that pushes, `-1` for one that pops. -/
def Op.delta : Op α → Int
  | .pushOff | .acquire _ => 1
  | .popOff | .release _ => -1

/-- Pushes minus pops. -/
def depth (ops : List (Op α)) : Int := (ops.map Op.delta).sum

/-- Each pop matches an earlier push, or one of the `d` already open: no prefix
pops more than that. -/
def Matched (d : Int) (ops : List (Op α)) : Prop := ∀ p, p <+: ops → 0 ≤ d + depth p

/-- What a CPU at nesting depth `d` is like, with `e` the interrupt bit outside
every nest. -/
structure Nested (e : Bool) (c : Cpu α) (d : Int) : Prop where
  noff : (c.noff : Int) = d
  outside : d = 0 → c.intr = e
  inside : 0 < d → c.intr = false ∧ c.intena = e

/-- What a call or a run from a CPU nested in `e` ends in: a panic of a lock's
own, or a CPU nested at depth `d`. -/
def Outcome (e : Bool) (d : Int) : Except String (Cpu α) → Prop
  | .error msg => msg = "acquire" ∨ msg = "release"
  | .ok c => Nested e c d

@[simp]
theorem outcome_error {e : Bool} {d : Int} {msg : String} :
    Outcome (α := α) e d (.error msg) ↔ msg = "acquire" ∨ msg = "release" := Iff.rfl

@[simp]
theorem outcome_ok {e : Bool} {d : Int} {c : Cpu α} : Outcome e d (.ok c) ↔ Nested e c d := Iff.rfl

/-! ### Depth and matching -/

@[simp]
theorem depth_nil : depth ([] : List (Op α)) = 0 := rfl

@[simp]
theorem depth_cons (op : Op α) (ops : List (Op α)) : depth (op :: ops) = op.delta + depth ops := by
  simp [depth]

theorem depth_append (ops ops' : List (Op α)) : depth (ops ++ ops') = depth ops + depth ops' := by
  simp [depth]

theorem Matched.first {d : Int} {op : Op α} {ops : List (Op α)} (matched : Matched d (op :: ops)) :
    0 ≤ d + op.delta := by
  simpa using matched [op] (List.prefix_append [op] ops)

theorem Matched.tail {d : Int} {op : Op α} {ops : List (Op α)} (matched : Matched d (op :: ops)) :
    Matched (d + op.delta) ops := by
  intro p pre
  have := matched (op :: p) (List.cons_prefix_cons.mpr ⟨rfl, pre⟩)
  rw [depth_cons] at this
  omega

theorem Matched.initial {d : Int} {ops p : List (Op α)} (matched : Matched d ops) (pre : p <+: ops) :
    Matched d p :=
  fun q shorter => matched q (shorter.trans pre)

theorem matched_iff_take {d : Int} {ops : List (Op α)} :
    Matched d ops ↔ ∀ k ≤ ops.length, 0 ≤ d + depth (ops.take k) := by
  constructor
  · intro matched k _
    exact matched _ (List.take_prefix k ops)
  · intro taken p pre
    rw [List.prefix_iff_eq_take.mp pre]
    exact taken _ pre.length_le

instance (d : Int) (ops : List (Op α)) : Decidable (Matched d ops) :=
  decidable_of_iff _ matched_iff_take.symm

/-! ### One call -/

theorem nested_idle (c : Cpu α) (idle : c.noff = 0) : Nested c.intr c 0 where
  noff := by rw [idle]; rfl
  outside _ := rfl
  inside pos := absurd pos (lt_irrefl 0)

/-- Which locks the CPU holds is no part of its nesting. -/
theorem Nested.held {e : Bool} {c : Cpu α} {d : Int} (nested : Nested e c d) (held : List α) :
    Nested e { c with held := held } d :=
  ⟨nested.noff, nested.outside, nested.inside⟩

@[simp]
theorem pushOff_held (c : Cpu α) : (pushOff c).held = c.held := by
  unfold pushOff
  dsimp only
  split_ifs <;> rfl

theorem pushOff_nested {e : Bool} {c : Cpu α} {d : Int} (nested : Nested e c d) :
    Nested e (pushOff c) (d + 1) := by
  obtain ⟨noff, outside, inside⟩ := nested
  constructor
  · unfold pushOff
    dsimp only
    split_ifs <;> simp only [Nat.cast_add, Nat.cast_one, noff]
  · intro
    omega
  · intro _
    -- `intena` is written only by the outermost push, with the bit outside
    by_cases first : c.noff = 0
    · simp [pushOff, first, outside (by omega)]
    · simp [pushOff, first, (inside (by omega)).2]

theorem popOff_nested {e : Bool} {c : Cpu α} {d : Int} (nested : Nested e c d) (pos : 0 < d) :
    ∃ c', popOff c = .ok c' ∧ Nested e c' (d - 1) := by
  obtain ⟨noff, outside, inside⟩ := nested
  obtain ⟨off, enabled⟩ := inside pos
  have open_ : ¬ c.noff < 1 := by omega
  unfold popOff
  rw [if_neg (by simp [off]), if_neg open_]
  refine ⟨_, rfl, ?_, ?_, ?_⟩
  · split_ifs <;> simp only [Nat.cast_sub (show 1 ≤ c.noff by omega), Nat.cast_one, noff]
  · -- the outermost pop puts back the bit `intena` kept
    intro last
    have : c.noff - 1 = 0 := by omega
    cases e <;> simp [this, enabled, off]
  · intro deeper
    have : c.noff - 1 ≠ 0 := by omega
    simp [this, off, enabled]

variable [DecidableEq α]

theorem acquire_outcome {e : Bool} {c : Cpu α} {d : Int} (nested : Nested e c d) (lk : α) :
    Outcome e (d + 1) (acquire lk c) := by
  unfold acquire
  dsimp only
  split_ifs
  · exact outcome_error.mpr (Or.inl rfl)
  · exact outcome_ok.mpr ((pushOff_nested nested).held _)

theorem release_outcome {e : Bool} {c : Cpu α} {d : Int} (nested : Nested e c d) (pos : 0 < d) (lk : α) :
    Outcome e (d - 1) (release lk c) := by
  unfold release
  split_ifs
  · obtain ⟨c', popped, nested'⟩ := popOff_nested (nested.held (c.held.erase lk)) pos
    rw [popped]
    exact nested'
  · exact outcome_error.mpr (Or.inr rfl)

/-- A call that the matching allows keeps the nesting, or is a lock's panic. -/
theorem exec_outcome {e : Bool} {c : Cpu α} {d : Int} (nested : Nested e c d) (op : Op α)
    (fits : 0 ≤ d + op.delta) : Outcome e (d + op.delta) (op.exec c) := by
  cases op with
  | pushOff => exact pushOff_nested nested
  | popOff =>
    obtain ⟨c', popped, nested'⟩ := popOff_nested nested (by simp only [Op.delta] at fits; omega)
    rw [Op.exec, popped]
    exact nested'
  | acquire lk => exact acquire_outcome nested lk
  | release lk => exact release_outcome nested (by simp only [Op.delta] at fits; omega) lk

/-! ### Runs -/

theorem run_outcome {e : Bool} {c : Cpu α} {d : Int} (nested : Nested e c d) {ops : List (Op α)}
    (matched : Matched d ops) : Outcome e (d + depth ops) (run c ops) := by
  induction ops generalizing c d with
  | nil => simpa [run] using nested
  | cons op ops ih =>
    have step := exec_outcome nested op matched.first
    rw [run, depth_cons, ← add_assoc]
    cases called : op.exec c with
    | error msg =>
      rw [called] at step
      exact step
    | ok c' =>
      rw [called] at step
      exact ih step matched.tail

/-- From a CPU outside every nest, a sequence of calls in which each pop matches
an earlier push never reaches either panic of `pop_off`; where it returns, `noff`
is the depth, interrupts are off inside a nest, and at depth `0` they are as
they were at any earlier point of depth `0`, just before the outermost push. -/
theorem push_off_nesting (c : Cpu α) (idle : c.noff = 0) (ops : List (Op α)) (matched : Matched 0 ops) :
    run c ops ≠ .error "pop_off" ∧ run c ops ≠ .error "pop_off - interruptible" ∧
    ∀ c', run c ops = .ok c' →
      (c'.noff : Int) = depth ops ∧ (0 < c'.noff → c'.intr = false) ∧
      ∀ pre post c₀, ops = pre ++ post → run c pre = .ok c₀ → depth pre = 0 → depth ops = 0 →
        c'.intr = c₀.intr := by
  have outcome := run_outcome (nested_idle c idle) matched
  rw [zero_add] at outcome
  refine ⟨fun stops => ?_, fun stops => ?_, fun c' ran => ?_⟩
  · rw [stops] at outcome
    rcases outcome with msg | msg <;> simp at msg
  · rw [stops] at outcome
    rcases outcome with msg | msg <;> simp at msg
  rw [ran] at outcome
  obtain ⟨noff, outside, inside⟩ := outcome
  refine ⟨noff, fun pos => (inside (by omega)).1, fun pre post c₀ split ranPre atPre atEnd => ?_⟩
  have before := run_outcome (nested_idle c idle) (matched.initial (split ▸ List.prefix_append pre post))
  rw [zero_add, ranPre] at before
  rw [outside atEnd, before.outside atPre]

/-- Two locks nested inside each other and a bare push inside them. -/
theorem push_off_nesting_two_locks :
    Matched 0 [Op.acquire 1, .acquire 2, .pushOff, .popOff, .release 2, .release 1] ∧
      (run ⟨true, 0, false, []⟩ [Op.acquire 1, .acquire 2, .pushOff, .popOff, .release 2, .release 1] ≠
          .error "pop_off" ∧
        run ⟨true, 0, false, []⟩ [Op.acquire 1, .acquire 2, .pushOff, .popOff, .release 2, .release 1] ≠
          .error "pop_off - interruptible" ∧
        ∀ c', run ⟨true, 0, false, []⟩ [Op.acquire 1, .acquire 2, .pushOff, .popOff, .release 2, .release 1] =
            .ok c' →
          (c'.noff : Int) = depth [Op.acquire 1, .acquire 2, .pushOff, .popOff, .release 2, .release 1] ∧
          (0 < c'.noff → c'.intr = false) ∧
          ∀ pre post c₀, [Op.acquire 1, .acquire 2, .pushOff, .popOff, .release 2, .release 1] = pre ++ post →
            run ⟨true, 0, false, []⟩ pre = .ok c₀ → depth pre = 0 →
            depth [Op.acquire 1, .acquire 2, .pushOff, .popOff, .release 2, .release 1] = 0 →
            c'.intr = c₀.intr) :=
  ⟨by decide, push_off_nesting _ rfl _ (by decide)⟩

/-- A `pop_off` with no `push_off` before it is the panic. -/
example : run ⟨false, 0, false, []⟩ [(Op.popOff : Op Nat)] = .error "pop_off" := rfl

end Xv6.Spinlock
