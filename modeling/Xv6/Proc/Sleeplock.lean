import Xv6.Param
import Xv6.Lib.Machine

/-!
Contract: `kernel/sleeplock.c` with the `sleep` and `wakeup` of `kernel/proc.c`
it rests on, at the grain of the spinlocks they take: the sleeplock's own
spinlock `lk->lk`, and each process's `p->lock`.

Every process of `proc[]` may use one sleeplock. A process's place in
`acquiresleep` and `releasesleep` is its `Pc`; an event is one stretch of code
between two lock operations, and an `acquire` that would spin is an event that
cannot happen yet. `sleep` is split where the code lets another process in: it
takes `p->lock` while still holding `lk->lk`, releases `lk->lk`, and only then
marks the process `SLEEPING` and switches to the scheduler, which releases
`p->lock`. The `wakeup(lk)` of `releasesleep` visits `proc[]` one slot at a time,
taking each slot's `p->lock`. `kill` may wake a sleeper at any time.

Owns: `Pc`, `World`, `initsleeplock`, `wake`, `Event`, `step`, `holdingsleep`,
`Reachable`, `Inv`.
-/

namespace Xv6.Sleeplock

/-- Where a process is in `acquiresleep` or `releasesleep`. -/
inductive Pc where
  /-- In neither call, not holding the sleeplock. -/
  | idle
  /-- Holding `lk->lk`, at `while (lk->locked)`. -/
  | testing
  /-- In `sleep(lk, &lk->lk)`, holding `lk->lk` and acquiring `p->lock`. -/
  | sleeping
  /-- Holding `p->lock`, `lk->lk` released, not yet `SLEEPING`. -/
  | parking
  /-- `SLEEPING` on `lk`. -/
  | asleep
  /-- Woken: `RUNNABLE`, to return from `sched()`. -/
  | runnable
  /-- Back from `sleep`'s `sched()`, acquiring `lk->lk`. -/
  | reacquiring
  /-- `acquiresleep` returned. -/
  | holding
  /-- In the `wakeup(lk)` of `releasesleep`, at `proc[j]`, holding `lk->lk`. -/
  | waking (j : Nat)
  deriving DecidableEq, Repr

/-- The places where a process holds `lk->lk`. -/
def Pc.holdsLk : Pc → Bool
  | .testing | .sleeping | .waking _ => true
  | _ => false

/-- The places of a process on its way to sleep on `lk`, or asleep there. -/
def Pc.waits : Pc → Bool
  | .sleeping | .parking | .asleep => true
  | _ => false

/-- The sleeplock, its spinlock, and the processes using it. -/
structure World where
  /-- `lk->locked`. -/
  locked : Bool
  /-- `lk->pid`. -/
  pid : Int
  /-- The process holding `lk->lk`. -/
  lk : Option (Fin nProc)
  pc : Fin nProc → Pc
  /-- Whether `p->lock` of each process is held. -/
  plock : Fin nProc → Bool

/-- `initsleeplock`: unlocked, and no process near it. -/
def initsleeplock : World :=
  ⟨false, 0, none, fun _ => .idle, fun _ => false⟩

/-- `wakeup`'s test of one slot: a process `SLEEPING` on `lk` becomes `RUNNABLE`. -/
def wake (pc : Fin nProc → Pc) (p : Fin nProc) : Fin nProc → Pc :=
  if pc p = .asleep then Function.update pc p .runnable else pc

/-- One stretch of code of process `i` between lock operations. -/
inductive Event where
  /-- `acquiresleep`: `acquire(&lk->lk)`. -/
  | acquire (i : Fin nProc)
  /-- `while (lk->locked)`: sleep, or take the lock and `release(&lk->lk)`. -/
  | test (i : Fin nProc)
  /-- `sleep`: `acquire(&p->lock)`, `release(lk)`. -/
  | sleep (i : Fin nProc)
  /-- `sleep`: `SLEEPING` on `lk`, `sched()`, and the scheduler's `release(&p->lock)`. -/
  | sched (i : Fin nProc)
  /-- The scheduler runs `i` under `p->lock`; `sleep` tidies up and releases it. -/
  | run (i : Fin nProc)
  /-- `sleep`: `acquire(lk)`. -/
  | reacquire (i : Fin nProc)
  /-- `releasesleep`: `acquire(&lk->lk)`, `lk->locked = 0`, `lk->pid = 0`. -/
  | release (i : Fin nProc)
  /-- `wakeup(lk)` at its next slot under that slot's `p->lock`, or, past the last,
  `release(&lk->lk)`. -/
  | wakeup (i : Fin nProc)
  /-- `kill` of process `j`, under its `p->lock`. -/
  | kill (j : Fin nProc)

section Step

variable (pid : Fin nProc → Int)

/-- The events, each possible only where its process is and once the lock it
acquires is free; `pid i` is `myproc()->pid` for process `i`. -/
def step (w : World) : Event → Option World
  | .acquire i =>
    if w.pc i = .idle ∧ w.lk = none then some { w with lk := some i, pc := Function.update w.pc i .testing }
    else none
  | .test i =>
    if w.pc i = .testing then
      if w.locked then some { w with pc := Function.update w.pc i .sleeping }
      else some { w with locked := true, pid := pid i, lk := none, pc := Function.update w.pc i .holding }
    else none
  | .sleep i =>
    if w.pc i = .sleeping ∧ w.plock i = false then
      some { w with lk := none, pc := Function.update w.pc i .parking, plock := Function.update w.plock i true }
    else none
  | .sched i =>
    if w.pc i = .parking then
      some { w with pc := Function.update w.pc i .asleep, plock := Function.update w.plock i false }
    else none
  | .run i =>
    if w.pc i = .runnable ∧ w.plock i = false then some { w with pc := Function.update w.pc i .reacquiring }
    else none
  | .reacquire i =>
    if w.pc i = .reacquiring ∧ w.lk = none then
      some { w with lk := some i, pc := Function.update w.pc i .testing }
    else none
  | .release i =>
    if w.pc i = .holding ∧ w.lk = none then
      some { w with locked := false, pid := 0, lk := some i, pc := Function.update w.pc i (.waking 0) }
    else none
  | .wakeup i =>
    match w.pc i with
    | .waking j =>
      if h : j < nProc then
        -- `if(p != myproc())`, then `acquire(&p->lock)`
        if (⟨j, h⟩ : Fin nProc) = i then some { w with pc := Function.update w.pc i (.waking (j + 1)) }
        else if w.plock ⟨j, h⟩ then none
        else some { w with pc := Function.update (wake w.pc ⟨j, h⟩) i (.waking (j + 1)) }
      else some { w with lk := none, pc := Function.update w.pc i .idle }
    | _ => none
  | .kill j => if w.plock j then none else some { w with pc := wake w.pc j }

/-- `holdingsleep(lk)` called by process `i`. -/
def holdingsleep (w : World) (i : Fin nProc) : Bool :=
  w.locked && w.pid == pid i

/-- The states some interleaving reaches from `initsleeplock`. -/
def Reachable (w : World) : Prop :=
  Machine.Reachable (step pid) initsleeplock w

end Step

theorem wake_of_asleep {pc : Fin nProc → Pc} {p : Fin nProc} (asleep : pc p = .asleep) :
    wake pc p = Function.update pc p .runnable := if_pos asleep

theorem wake_of_not_asleep {pc : Fin nProc → Pc} {p : Fin nProc} (awake : pc p ≠ .asleep) :
    wake pc p = pc := if_neg awake

theorem wake_of_ne {pc : Fin nProc → Pc} {p k : Fin nProc} (other : k ≠ p) : wake pc p k = pc k := by
  unfold wake
  split
  · exact Function.update_of_ne other _ _
  · rfl

/-- A place where a process holds no lock, not the sleeplock, and is not in
`wakeup`: it may be waiting only as `asleep`. -/
structure Pc.Quiet (a : Pc) : Prop where
  free : a.holdsLk = false
  not_parking : a ≠ .parking
  not_holding : a ≠ .holding
  not_waking : ∀ j, a ≠ .waking j

theorem Pc.quiet_idle : Pc.Quiet .idle := ⟨rfl, by decide, by decide, fun _ => by simp⟩

theorem Pc.quiet_asleep : Pc.Quiet .asleep := ⟨rfl, by decide, by decide, fun _ => by simp⟩

theorem Pc.quiet_runnable : Pc.Quiet .runnable := ⟨rfl, by decide, by decide, fun _ => by simp⟩

theorem Pc.quiet_reacquiring : Pc.Quiet .reacquiring := ⟨rfl, by decide, by decide, fun _ => by simp⟩

/-! ### The invariant -/

/-- `lk->lk` is held by the one process at a place that holds it, and `p->lock` by a
process parking; `lk->locked` is set exactly while one process holds the sleeplock,
whose pid `lk->pid` records; and a process waits on `lk` only while the sleeplock is
held or a `wakeup(lk)` has still to reach its slot. -/
structure Inv (pid : Fin nProc → Int) (w : World) : Prop where
  lk_iff : ∀ i, w.lk = some i ↔ (w.pc i).holdsLk = true
  plock_iff : ∀ i, w.plock i = true ↔ w.pc i = .parking
  locked_iff : w.locked = true ↔ ∃ i, w.pc i = .holding
  holder_unique : ∀ i j, w.pc i = .holding → w.pc j = .holding → i = j
  holder_pid : ∀ i, w.pc i = .holding → w.pid = pid i
  waking_le : ∀ i j, w.pc i = .waking j → j ≤ nProc
  waking_unlocked : ∀ i j, w.pc i = .waking j → w.locked = false
  sleepers : ∀ i, (w.pc i).waits = true → w.locked = true ∨ ∃ r j, w.pc r = .waking j ∧ j ≤ i.val

namespace Inv

variable {pid : Fin nProc → Int} {w : World} {i : Fin nProc}

theorem holdsLk_free (inv : Inv pid w) (free : w.lk = none) (k : Fin nProc) : (w.pc k).holdsLk = false := by
  have iff := inv.lk_iff k
  rw [free] at iff
  simpa using iff

theorem holdsLk_other (inv : Inv pid w) (held : (w.pc i).holdsLk = true) {k : Fin nProc} (other : k ≠ i) :
    (w.pc k).holdsLk = false := by
  have mine := (inv.lk_iff i).mpr held
  have iff := inv.lk_iff k
  rw [mine] at iff
  simpa [Ne.symm other] using iff

/-- The process in `wakeup` is the one holding `lk->lk`. -/
theorem waker_eq (inv : Inv pid w) {r : Fin nProc} {j j' : Nat} (mine : w.pc i = .waking j)
    (theirs : w.pc r = .waking j') : r = i ∧ j' = j := by
  have same : r = i := by
    by_contra other
    have := inv.holdsLk_other (by rw [mine]; rfl) other
    rw [theirs] at this
    cases this
  subst same
  rw [mine] at theirs
  exact ⟨rfl, (Pc.waking.inj theirs).symm⟩

theorem plock_free (inv : Inv pid w) (not_parking : w.pc i ≠ .parking) : w.plock i = false :=
  Bool.eq_false_iff.mpr fun held => not_parking ((inv.plock_iff i).mp held)

/-- A process at a place other than where `i` moved to was there before. -/
theorem of_update {pc : Fin nProc → Pc} {b c : Pc} {k : Fin nProc} (differ : b ≠ c)
    (at_c : Function.update pc i b k = c) : k ≠ i ∧ pc k = c := by
  by_cases here : k = i
  · subst here
    rw [Function.update_self] at at_c
    exact absurd at_c differ
  · rw [Function.update_of_ne here] at at_c
    exact ⟨here, at_c⟩

theorem exists_update_iff {pc : Fin nProc → Pc} {b c : Pc} (old : pc i ≠ c) (new : b ≠ c) :
    (∃ k, Function.update pc i b k = c) ↔ ∃ k, pc k = c := by
  constructor
  · rintro ⟨k, at_c⟩
    exact ⟨k, (of_update new at_c).2⟩
  · rintro ⟨k, at_c⟩
    have here : k ≠ i := fun same => old (same ▸ at_c)
    exact ⟨k, by rwa [Function.update_of_ne here]⟩

/-- A process not in `wakeup`, moving to a place where it waits only if it waited
before, keeps the condition of every waiting process. -/
theorem sleepers_move (inv : Inv pid w) {b : Pc} (not_waking : ∀ j, w.pc i ≠ .waking j)
    (carried : b.waits = true → (w.pc i).waits = true) (k : Fin nProc)
    (waits : (Function.update w.pc i b k).waits = true) :
    w.locked = true ∨ ∃ r j, Function.update w.pc i b r = .waking j ∧ j ≤ k.val := by
  have before : (w.pc k).waits = true := by
    by_cases here : k = i
    · subst here
      rw [Function.update_self] at waits
      exact carried waits
    · rwa [Function.update_of_ne here] at waits
  rcases inv.sleepers k before with locked | ⟨r, j, wakes, le⟩
  · exact .inl locked
  · have other : r ≠ i := fun same => not_waking j (same ▸ wakes)
    exact .inr ⟨r, j, by rwa [Function.update_of_ne other], le⟩

/-- **Frame.** A process moving between quiet places, to one where it does not
wait, keeps the invariant. -/
theorem move (inv : Inv pid w) {b : Pc} (from_quiet : (w.pc i).Quiet) (to_quiet : b.Quiet)
    (to_awake : b.waits = false) : Inv pid { w with pc := Function.update w.pc i b } where
  lk_iff k := by
    dsimp only
    by_cases here : k = i
    · subst here
      have free : w.lk ≠ some k := fun held => by
        have := from_quiet.free
        rw [(inv.lk_iff k).mp held] at this
        cases this
      simp [free, to_quiet.free]
    · rw [Function.update_of_ne here]
      exact inv.lk_iff k
  plock_iff k := by
    dsimp only
    by_cases here : k = i
    · subst here
      simp [inv.plock_free from_quiet.not_parking, to_quiet.not_parking]
    · rw [Function.update_of_ne here]
      exact inv.plock_iff k
  locked_iff := by
    rw [inv.locked_iff]
    exact (exists_update_iff from_quiet.not_holding to_quiet.not_holding).symm
  holder_unique k l holdsK holdsL :=
    inv.holder_unique k l (of_update to_quiet.not_holding holdsK).2 (of_update to_quiet.not_holding holdsL).2
  holder_pid k holds := inv.holder_pid k (of_update to_quiet.not_holding holds).2
  waking_le k j wakes := inv.waking_le k j (of_update (to_quiet.not_waking j) wakes).2
  waking_unlocked k j wakes := inv.waking_unlocked k j (of_update (to_quiet.not_waking j) wakes).2
  sleepers := inv.sleepers_move from_quiet.not_waking (by simp [to_awake])

/-- **Acquire.** `acquire(&lk->lk)` at the start of `acquiresleep`, or back from
`sched()` in its `sleep`. -/
theorem enter (inv : Inv pid w) (from_quiet : (w.pc i).Quiet) (free : w.lk = none) :
    Inv pid { w with lk := some i, pc := Function.update w.pc i .testing } where
  lk_iff k := by
    dsimp only
    by_cases here : k = i
    · simp [here, Pc.holdsLk]
    · simp [Function.update_of_ne here, Ne.symm here, inv.holdsLk_free free k]
  plock_iff k := by
    dsimp only
    by_cases here : k = i
    · subst here
      simp [inv.plock_free from_quiet.not_parking]
    · rw [Function.update_of_ne here]
      exact inv.plock_iff k
  locked_iff := by
    rw [inv.locked_iff]
    exact (exists_update_iff from_quiet.not_holding (by decide)).symm
  holder_unique k l holdsK holdsL :=
    inv.holder_unique k l (of_update (by decide) holdsK).2 (of_update (by decide) holdsL).2
  holder_pid k holds := inv.holder_pid k (of_update (by decide) holds).2
  waking_le k j wakes := inv.waking_le k j (of_update (by simp) wakes).2
  waking_unlocked k j wakes := inv.waking_unlocked k j (of_update (by simp) wakes).2
  sleepers := inv.sleepers_move from_quiet.not_waking (by simp [Pc.waits])

/-- **Wait.** `while (lk->locked)` finds the sleeplock held and calls `sleep`. -/
theorem wait (inv : Inv pid w) (testing : w.pc i = .testing) (locked : w.locked = true) :
    Inv pid { w with pc := Function.update w.pc i .sleeping } where
  lk_iff k := by
    dsimp only
    by_cases here : k = i
    · subst here
      rw [inv.lk_iff k, testing]
      simp [Pc.holdsLk]
    · rw [Function.update_of_ne here]
      exact inv.lk_iff k
  plock_iff k := by
    dsimp only
    by_cases here : k = i
    · subst here
      simp [inv.plock_free (by rw [testing]; decide)]
    · rw [Function.update_of_ne here]
      exact inv.plock_iff k
  locked_iff := by
    rw [inv.locked_iff]
    exact (exists_update_iff (by rw [testing]; decide) (by decide)).symm
  holder_unique k l holdsK holdsL :=
    inv.holder_unique k l (of_update (by decide) holdsK).2 (of_update (by decide) holdsL).2
  holder_pid k holds := inv.holder_pid k (of_update (by decide) holds).2
  waking_le k j wakes := inv.waking_le k j (of_update (by simp) wakes).2
  waking_unlocked k j wakes := inv.waking_unlocked k j (of_update (by simp) wakes).2
  sleepers _ _ := .inl locked

/-- **Take.** `while (lk->locked)` finds the sleeplock free: `lk->locked = 1`,
`lk->pid = myproc()->pid`, `release(&lk->lk)`. -/
theorem take (inv : Inv pid w) (testing : w.pc i = .testing) (unlocked : w.locked = false) :
    Inv pid { w with locked := true, pid := pid i, lk := none, pc := Function.update w.pc i .holding } where
  lk_iff k := by
    dsimp only
    by_cases here : k = i
    · simp [here, Pc.holdsLk]
    · rw [Function.update_of_ne here]
      simp [inv.holdsLk_other (by rw [testing]; rfl) here]
  plock_iff k := by
    dsimp only
    by_cases here : k = i
    · subst here
      simp [inv.plock_free (by rw [testing]; decide)]
    · rw [Function.update_of_ne here]
      exact inv.plock_iff k
  locked_iff := ⟨fun _ => ⟨i, by simp⟩, fun _ => rfl⟩
  holder_unique k l holdsK holdsL := by
    -- the sleeplock was free, so no other process held it
    have none_held : ∀ k, k ≠ i → w.pc k ≠ .holding := fun k _ holds =>
      absurd (inv.locked_iff.mpr ⟨k, holds⟩) (by simp [unlocked])
    dsimp only at holdsK holdsL
    by_contra differ
    by_cases hereK : k = i
    · subst hereK
      rw [Function.update_of_ne (Ne.symm differ)] at holdsL
      exact none_held l (Ne.symm differ) holdsL
    · rw [Function.update_of_ne hereK] at holdsK
      exact none_held k hereK holdsK
  holder_pid k holds := by
    dsimp only at holds ⊢
    by_cases here : k = i
    · rw [here]
    · rw [Function.update_of_ne here] at holds
      exact absurd (inv.locked_iff.mpr ⟨k, holds⟩) (by simp [unlocked])
  waking_le k j wakes := inv.waking_le k j (of_update (by simp) wakes).2
  waking_unlocked k j wakes := by
    -- only the process holding `lk->lk` can be in `wakeup`, and that is `i`
    obtain ⟨other, wakes⟩ := of_update (by simp) wakes
    have := inv.holdsLk_other (by rw [testing]; rfl) other
    rw [wakes] at this
    cases this
  sleepers _ _ := .inl rfl

/-- **Sleep.** `sleep` takes `p->lock` and releases `lk->lk`. -/
theorem park (inv : Inv pid w) (sleeping : w.pc i = .sleeping) :
    Inv pid { w with lk := none, pc := Function.update w.pc i .parking,
                     plock := Function.update w.plock i true } where
  lk_iff k := by
    dsimp only
    by_cases here : k = i
    · simp [here, Pc.holdsLk]
    · rw [Function.update_of_ne here]
      simp [inv.holdsLk_other (by rw [sleeping]; rfl) here]
  plock_iff k := by
    dsimp only
    by_cases here : k = i
    · simp [here]
    · rw [Function.update_of_ne here, Function.update_of_ne here]
      exact inv.plock_iff k
  locked_iff := by
    rw [inv.locked_iff]
    exact (exists_update_iff (by rw [sleeping]; decide) (by decide)).symm
  holder_unique k l holdsK holdsL :=
    inv.holder_unique k l (of_update (by decide) holdsK).2 (of_update (by decide) holdsL).2
  holder_pid k holds := inv.holder_pid k (of_update (by decide) holds).2
  waking_le k j wakes := inv.waking_le k j (of_update (by simp) wakes).2
  waking_unlocked k j wakes := inv.waking_unlocked k j (of_update (by simp) wakes).2
  sleepers := inv.sleepers_move (by simp [sleeping]) (fun _ => by rw [sleeping]; rfl)

/-- **Switch.** `sleep` marks the process `SLEEPING` on `lk` and switches to the
scheduler, which releases `p->lock`. -/
theorem sched (inv : Inv pid w) (parking : w.pc i = .parking) :
    Inv pid { w with pc := Function.update w.pc i .asleep, plock := Function.update w.plock i false } where
  lk_iff k := by
    dsimp only
    by_cases here : k = i
    · subst here
      rw [inv.lk_iff k, parking]
      simp [Pc.holdsLk]
    · rw [Function.update_of_ne here]
      exact inv.lk_iff k
  plock_iff k := by
    dsimp only
    by_cases here : k = i
    · simp [here]
    · rw [Function.update_of_ne here, Function.update_of_ne here]
      exact inv.plock_iff k
  locked_iff := by
    rw [inv.locked_iff]
    exact (exists_update_iff (by rw [parking]; decide) (by decide)).symm
  holder_unique k l holdsK holdsL :=
    inv.holder_unique k l (of_update (by decide) holdsK).2 (of_update (by decide) holdsL).2
  holder_pid k holds := inv.holder_pid k (of_update (by decide) holds).2
  waking_le k j wakes := inv.waking_le k j (of_update (by simp) wakes).2
  waking_unlocked k j wakes := inv.waking_unlocked k j (of_update (by simp) wakes).2
  sleepers := inv.sleepers_move (by simp [parking]) (fun _ => by rw [parking]; rfl)

/-- **Release.** `releasesleep`: `acquire(&lk->lk)`, `lk->locked = 0`, `lk->pid = 0`,
and `wakeup(lk)` starts at `proc[0]`. -/
theorem release (inv : Inv pid w) (holding : w.pc i = .holding) (free : w.lk = none) :
    Inv pid { w with locked := false, pid := 0, lk := some i, pc := Function.update w.pc i (.waking 0) } where
  lk_iff k := by
    dsimp only
    by_cases here : k = i
    · simp [here, Pc.holdsLk]
    · simp [Function.update_of_ne here, Ne.symm here, inv.holdsLk_free free k]
  plock_iff k := by
    dsimp only
    by_cases here : k = i
    · subst here
      simp [inv.plock_free (by rw [holding]; decide)]
    · rw [Function.update_of_ne here]
      exact inv.plock_iff k
  locked_iff := by
    -- `i` was the one holder, and it is in `wakeup` now
    constructor
    · intro locked
      cases locked
    · rintro ⟨k, holds⟩
      obtain ⟨other, holds⟩ := of_update (by simp) holds
      exact absurd (inv.holder_unique k i holds holding) other
  holder_unique k _ holds _ := by
    obtain ⟨other, holds⟩ := of_update (by simp) holds
    exact absurd (inv.holder_unique k i holds holding) other
  holder_pid k holds := by
    obtain ⟨other, holds⟩ := of_update (by simp) holds
    exact absurd (inv.holder_unique k i holds holding) other
  waking_le k j wakes := by
    dsimp only at wakes
    by_cases here : k = i
    · subst here
      simp at wakes
      omega
    · rw [Function.update_of_ne here] at wakes
      exact inv.waking_le k j wakes
  waking_unlocked _ _ _ := rfl
  sleepers _ _ := .inr ⟨i, 0, by simp, Nat.zero_le _⟩

/-- **Wake.** `wakeup` or `kill` under a free `p->lock`: a process asleep on `lk`
becomes `RUNNABLE`. -/
theorem wake_slot (inv : Inv pid w) {p : Fin nProc} : Inv pid { w with pc := Sleeplock.wake w.pc p } := by
  by_cases asleep : w.pc p = .asleep
  · rw [wake_of_asleep asleep]
    exact inv.move (asleep ▸ Pc.quiet_asleep) Pc.quiet_runnable rfl
  · rw [wake_of_not_asleep asleep]
    exact inv

/-- **Advance.** `wakeup(lk)` moves past a slot whose process does not wait on `lk`. -/
theorem advance (inv : Inv pid w) {j : Nat} (waking : w.pc i = .waking j) (lt : j < nProc)
    (passed : (w.pc ⟨j, lt⟩).waits = false) :
    Inv pid { w with pc := Function.update w.pc i (.waking (j + 1)) } where
  lk_iff k := by
    dsimp only
    by_cases here : k = i
    · subst here
      rw [inv.lk_iff k, waking]
      simp [Pc.holdsLk]
    · rw [Function.update_of_ne here]
      exact inv.lk_iff k
  plock_iff k := by
    dsimp only
    by_cases here : k = i
    · subst here
      simp [inv.plock_free (by rw [waking]; simp)]
    · rw [Function.update_of_ne here]
      exact inv.plock_iff k
  locked_iff := by
    rw [inv.locked_iff]
    exact (exists_update_iff (by rw [waking]; simp) (by simp)).symm
  holder_unique k l holdsK holdsL :=
    inv.holder_unique k l (of_update (by simp) holdsK).2 (of_update (by simp) holdsL).2
  holder_pid k holds := inv.holder_pid k (of_update (by simp) holds).2
  waking_le k j' wakes := by
    dsimp only at wakes
    by_cases here : k = i
    · subst here
      simp at wakes
      omega
    · rw [Function.update_of_ne here] at wakes
      exact inv.waking_le k j' wakes
  waking_unlocked _ _ _ := inv.waking_unlocked i j waking
  sleepers k waits := by
    dsimp only at waits ⊢
    have here : k ≠ i := fun same => by simp [same, Pc.waits] at waits
    rw [Function.update_of_ne here] at waits
    rcases inv.sleepers k waits with locked | ⟨r, j', wakes, le⟩
    · exact .inl locked
    · -- the one process in `wakeup` is `i`, and it has passed no waiting slot
      obtain ⟨-, sameJ⟩ := inv.waker_eq waking wakes
      have beyond : j ≠ k.val := fun same => by
        have : k = ⟨j, lt⟩ := Fin.ext same.symm
        rw [this, passed] at waits
        cases waits
      exact .inr ⟨i, j + 1, by simp, by omega⟩

/-- **Finish.** Past the last slot, `releasesleep` releases `lk->lk`. -/
theorem finish (inv : Inv pid w) {j : Nat} (waking : w.pc i = .waking j) (past : ¬ j < nProc) :
    Inv pid { w with lk := none, pc := Function.update w.pc i .idle } where
  lk_iff k := by
    dsimp only
    by_cases here : k = i
    · simp [here, Pc.holdsLk]
    · rw [Function.update_of_ne here]
      simp [inv.holdsLk_other (by rw [waking]; rfl) here]
  plock_iff k := by
    dsimp only
    by_cases here : k = i
    · subst here
      simp [inv.plock_free (by rw [waking]; simp)]
    · rw [Function.update_of_ne here]
      exact inv.plock_iff k
  locked_iff := by
    rw [inv.locked_iff]
    exact (exists_update_iff (by rw [waking]; simp) (by decide)).symm
  holder_unique k l holdsK holdsL :=
    inv.holder_unique k l (of_update (by decide) holdsK).2 (of_update (by decide) holdsL).2
  holder_pid k holds := inv.holder_pid k (of_update (by decide) holds).2
  waking_le k j' wakes := inv.waking_le k j' (of_update (by simp) wakes).2
  waking_unlocked k j' wakes := inv.waking_unlocked k j' (of_update (by simp) wakes).2
  sleepers k waits := by
    dsimp only at waits ⊢
    have here : k ≠ i := fun same => by simp [same, Pc.waits] at waits
    rw [Function.update_of_ne here] at waits
    rcases inv.sleepers k waits with locked | ⟨r, j', wakes, le⟩
    · exact .inl locked
    · -- `wakeup` has passed every slot, so no waiting process rests on it
      obtain ⟨-, sameJ⟩ := inv.waker_eq waking wakes
      have := k.isLt
      omega

/-- After `wakeup` visits a slot other than its own, under that slot's free
`p->lock`, the slot's process does not wait on `lk`. -/
theorem waits_wake (inv : Inv pid w) {j : Nat} (waking : w.pc i = .waking j) {p : Fin nProc}
    (other : p ≠ i) (free : w.plock p = false) : (wake w.pc p p).waits = false := by
  by_cases asleep : w.pc p = .asleep
  · rw [wake_of_asleep asleep, Function.update_self]
    rfl
  · rw [wake_of_not_asleep asleep]
    have not_parking : w.pc p ≠ .parking := fun parking => by
      rw [(inv.plock_iff p).mpr parking] at free
      cases free
    have not_holding := inv.holdsLk_other (by rw [waking]; rfl) other
    cases pcP : w.pc p <;> simp_all [Pc.waits, Pc.holdsLk]

end Inv

section Run

variable {pid : Fin nProc → Int}

/-- **Step lemma.** -/
theorem inv_step {w w' : World} (inv : Inv pid w) {e : Event} (stepped : step pid w e = some w') :
    Inv pid w' := by
  cases e with
  | acquire i =>
    simp only [step] at stepped
    split_ifs at stepped with enabled
    cases stepped
    exact inv.enter (enabled.1 ▸ Pc.quiet_idle) enabled.2
  | test i =>
    simp only [step] at stepped
    split_ifs at stepped with testing locked
    · cases stepped
      exact inv.wait testing locked
    · cases stepped
      exact inv.take testing (Bool.eq_false_iff.mpr locked)
  | sleep i =>
    simp only [step] at stepped
    split_ifs at stepped with enabled
    cases stepped
    exact inv.park enabled.1
  | sched i =>
    simp only [step] at stepped
    split_ifs at stepped with parking
    cases stepped
    exact inv.sched parking
  | run i =>
    simp only [step] at stepped
    split_ifs at stepped with enabled
    cases stepped
    exact inv.move (enabled.1 ▸ Pc.quiet_runnable) Pc.quiet_reacquiring rfl
  | reacquire i =>
    simp only [step] at stepped
    split_ifs at stepped with enabled
    cases stepped
    exact inv.enter (enabled.1 ▸ Pc.quiet_reacquiring) enabled.2
  | release i =>
    simp only [step] at stepped
    split_ifs at stepped with enabled
    cases stepped
    exact inv.release enabled.1 enabled.2
  | wakeup i =>
    simp only [step] at stepped
    cases waking : w.pc i with
    | waking j =>
      simp only [waking] at stepped
      split_ifs at stepped with lt self held
      · -- `wakeup` skips its own slot
        cases stepped
        exact inv.advance waking lt (by rw [self, waking]; rfl)
      · -- another slot, under its free `p->lock`
        cases stepped
        have free := Bool.eq_false_iff.mpr held
        exact inv.wake_slot.advance (by dsimp only; rw [wake_of_ne (Ne.symm self)]; exact waking) lt
          (inv.waits_wake waking self free)
      · cases stepped
        exact inv.finish waking lt
    | _ => simp [waking] at stepped
  | kill j =>
    simp only [step] at stepped
    split_ifs at stepped with held
    cases stepped
    exact inv.wake_slot

theorem inv_initsleeplock : Inv pid initsleeplock where
  lk_iff _ := by simp [initsleeplock, Pc.holdsLk]
  plock_iff _ := by simp [initsleeplock]
  locked_iff := by simp [initsleeplock]
  holder_unique _ _ holds := by cases holds
  holder_pid _ holds := by cases holds
  waking_le _ _ wakes := by cases wakes
  waking_unlocked _ _ wakes := by cases wakes
  sleepers _ waits := by cases waits

/-- **Run lemma.** -/
theorem Reachable.inv {w : World} (reachable : Reachable pid w) : Inv pid w :=
  Machine.Reachable.invariant inv_initsleeplock (fun _ _ _ inv stepped => inv_step inv stepped) reachable

end Run

/-- Process 0 takes the sleeplock; process 1 finds it held and goes to sleep on it;
process 0 releases it, and the `wakeup` of its `releasesleep` passes its own slot
and wakes process 1. Each process's pid is its slot plus one. -/
def demo : World :=
  (Machine.run (step fun i => i.val + 1) initsleeplock
    [.acquire ⟨0, by decide⟩, .test ⟨0, by decide⟩, .acquire ⟨1, by decide⟩, .test ⟨1, by decide⟩,
      .sleep ⟨1, by decide⟩, .sched ⟨1, by decide⟩, .release ⟨0, by decide⟩, .wakeup ⟨0, by decide⟩,
      .wakeup ⟨0, by decide⟩]).getD initsleeplock

theorem demo_reachable : Reachable (fun i => i.val + 1) demo := by
  have ran : Machine.run (step fun i => i.val + 1) initsleeplock
      [.acquire ⟨0, by decide⟩, .test ⟨0, by decide⟩, .acquire ⟨1, by decide⟩, .test ⟨1, by decide⟩,
        .sleep ⟨1, by decide⟩, .sched ⟨1, by decide⟩, .release ⟨0, by decide⟩, .wakeup ⟨0, by decide⟩,
        .wakeup ⟨0, by decide⟩] = some demo := rfl
  exact Machine.reachable_of_run Relation.ReflTransGen.refl ran

/-! ### The sleeplock -/

/-- The sleeplock excludes: in every reachable state at most one process holds it,
`lk->locked` is set exactly while one does, and `lk->pid` is that process's pid. -/
theorem sleeplock_exclusive {pid : Fin nProc → Int} {w : World} (reachable : Reachable pid w) :
    (∀ i j, w.pc i = .holding → w.pc j = .holding → i = j) ∧
      (w.locked = true ↔ ∃ i, w.pc i = .holding) ∧ ∀ i, w.pc i = .holding → w.pid = pid i :=
  ⟨reachable.inv.holder_unique, reachable.inv.locked_iff, reachable.inv.holder_pid⟩

theorem sleeplock_exclusive_demo :
    Reachable (fun i => i.val + 1) demo ∧
      ((∀ i j, demo.pc i = .holding → demo.pc j = .holding → i = j) ∧
        (demo.locked = true ↔ ∃ i, demo.pc i = .holding) ∧
        ∀ i, demo.pc i = .holding → demo.pid = (fun i : Fin nProc => (i.val : Int) + 1) i) :=
  ⟨demo_reachable, sleeplock_exclusive demo_reachable⟩

/-- With distinct pids, `holdingsleep` tells each process exactly whether it holds
the sleeplock, in every reachable state. -/
theorem holdingsleep_iff {pid : Fin nProc → Int} {w : World} (reachable : Reachable pid w)
    (distinct : Function.Injective pid) (i : Fin nProc) :
    holdingsleep pid w i = true ↔ w.pc i = .holding := by
  have inv := reachable.inv
  unfold holdingsleep
  rw [Bool.and_eq_true, beq_iff_eq]
  constructor
  · rintro ⟨locked, samePid⟩
    obtain ⟨k, holds⟩ := inv.locked_iff.mp locked
    rw [inv.holder_pid k holds] at samePid
    rwa [← distinct samePid]
  · intro holds
    exact ⟨inv.locked_iff.mpr ⟨i, holds⟩, inv.holder_pid i holds⟩

theorem holdingsleep_iff_demo :
    Reachable (fun i => i.val + 1) demo ∧ Function.Injective (fun i : Fin nProc => (i.val : Int) + 1) ∧
      (holdingsleep (fun i => i.val + 1) demo ⟨1, by decide⟩ = true ↔ demo.pc ⟨1, by decide⟩ = .holding) := by
  have distinct : Function.Injective (fun i : Fin nProc => (i.val : Int) + 1) := fun i j same => by
    simp only [add_left_inj, Nat.cast_inj] at same
    exact Fin.ext same
  exact ⟨demo_reachable, distinct, holdingsleep_iff demo_reachable distinct ⟨1, by decide⟩⟩

/-- No wakeup is lost: in every reachable state a process on its way to sleep on the
sleeplock, or asleep on it, waits while the sleeplock is held or while the
`wakeup(lk)` of a `releasesleep` has still to reach its slot; so once that
`wakeup` has passed the last slot of `proc[]`, no process waits on the sleeplock. -/
theorem sleeplock_no_lost_wakeup {pid : Fin nProc → Int} {w : World} (reachable : Reachable pid w) :
    (∀ i, (w.pc i).waits = true → w.locked = true ∨ ∃ r j, w.pc r = .waking j ∧ j ≤ i.val) ∧
      ∀ r, w.pc r = .waking nProc → ∀ i, (w.pc i).waits = false := by
  have inv := reachable.inv
  refine ⟨inv.sleepers, fun r done i => ?_⟩
  by_contra waits
  rcases inv.sleepers i (by simpa using waits) with locked | ⟨r', j, wakes, le⟩
  · rw [inv.waking_unlocked r nProc done] at locked
    cases locked
  · obtain ⟨-, sameJ⟩ := inv.waker_eq done wakes
    have := i.isLt
    omega

theorem sleeplock_no_lost_wakeup_demo :
    Reachable (fun i => i.val + 1) demo ∧
      ((∀ i, (demo.pc i).waits = true → demo.locked = true ∨ ∃ r j, demo.pc r = .waking j ∧ j ≤ i.val) ∧
        ∀ r, demo.pc r = .waking nProc → ∀ i, (demo.pc i).waits = false) :=
  ⟨demo_reachable, sleeplock_no_lost_wakeup demo_reachable⟩

end Xv6.Sleeplock
