import Xv6.Log.State
import Xv6.Lib.Census
import Xv6.Lib.Machine
import Xv6.Lib.Pool

/-!
Contract: the group-commit protocol of `begin_op` and `end_op` in
`kernel/log.c`, over every interleaving of the file-system system calls of
any number of processes.

A process is idle, active (between `begin_op`'s return and its `end_op`), or
committing (its `end_op` chose `do_commit` and runs `commit()` outside the
lock). One event moves one process, and `step` is `none` when the event cannot
happen: a sleeping `begin_op`, a process in another phase, or a panic.
`commit()` and the `log.committing = 0; wakeup(&log)` that follow it are one
event: in between no other process can touch the log, since no call is active
and every `begin_op` sleeps on `log.committing`.

A system call is any sequence of `log_write`s whose distinct blocks number at
most `budget`, the bound `MAXOPBLOCKS` that every FS system call is meant to
meet.

History variables, which the source does not have, record what the protocol
is for: the write set of each process's current call, each finished call with
the number of commits before its admission, and the header each `commit()`
found.

`begin_op` admits a call while the header and `MAXOPBLOCKS` slots for each
call fit in `LOGSIZE`, but `log_write` panics once `log.lh.n ≥ log.size - 1`.
The capacity invariant `Cap` counts what each active call may still add
(`demand`): with at most eight distinct blocks a call the panic cannot be
reached, and with `MAXOPBLOCKS` it can.

Owns: `Phase`, `Sys`, `Event`, `step`, `Reachable`, the protocol invariant
`Inv`, the capacity invariant `Cap` and the results drawn from them. Does not
own: the disk writes of `commit()` (`Xv6.Log.Commit`), nor how many distinct
blocks a system call of `kernel/fs.c` logs (`Xv6.Fs.Footprint` bounds one
`filewrite` chunk).
-/

namespace Xv6.Log.GroupCommit

open Census

/-- Where a process stands in the protocol. -/
inductive Phase where
  | idle
  | active
  | committing
deriving DecidableEq, Repr

/-- The log and the processes, with history variables. -/
structure Sys (P : Type) where
  log : Log
  phase : P → Phase
  admittedIn : P → Nat
  writes : P → List Nat
  ended : List (Nat × List Nat)
  committed : List (List Nat)

/-- What one process does next. -/
inductive Event (P : Type) where
  | beginOp (p : P)
  | logWrite (p : P) (blockno : Nat)
  | endOp (p : P)
  | commit (p : P)
deriving DecidableEq, Repr

variable {P : Type} [DecidableEq P]

/-- The system after `initlog`: recovery has cleared the log, nobody is in a
system call. -/
def init (start size : Nat) : Sys P where
  log := { start, size, outstanding := 0, committing := false, lh := [] }
  phase := fun _ => .idle
  admittedIn := fun _ => 0
  writes := fun _ => []
  ended := []
  committed := []

/-- One event, or `none` when it cannot happen. -/
def step (budget : Nat) (s : Sys P) : Event P → Option (Sys P)
  | .beginOp p =>
      if s.phase p = .idle then
        s.log.beginOp.map fun log =>
          { s with
            log
            phase := Function.update s.phase p .active
            admittedIn := Function.update s.admittedIn p s.committed.length
            writes := Function.update s.writes p [] }
      else none
  | .logWrite p blockno =>
      if s.phase p = .active ∧ ((s.writes p).insert blockno).length ≤ budget then
        match s.log.logWrite blockno with
        | .ok (log, _) =>
            some { s with log, writes := Function.update s.writes p ((s.writes p).insert blockno) }
        | .error _ => none
      else none
  | .endOp p =>
      if s.phase p = .active then
        match s.log.endOp with
        | .ok (log, doCommit) =>
            some
              { s with
                log
                phase := Function.update s.phase p (if doCommit then .committing else .idle)
                ended := s.ended ++ [(s.admittedIn p, s.writes p)] }
        | .error _ => none
      else none
  | .commit p =>
      if s.phase p = .committing then
        some
          { s with
            log := { s.log with lh := [], committing := false }
            phase := Function.update s.phase p .idle
            committed := s.committed ++ [s.log.lh] }
      else none

/-- The states of every interleaving from boot. -/
def Reachable (budget start size : Nat) (s : Sys P) : Prop :=
  Machine.Reachable (step budget) (init start size) s

/-- Events in order, stopping at the first that cannot happen. -/
def run (budget : Nat) : Sys P → List (Event P) → Option (Sys P) :=
  Machine.run (step budget)

/-! ### One lemma per event -/

section Events

variable {budget : Nat} {s s' : Sys P} {p : P}

theorem step_beginOp (stepped : step budget s (.beginOp p) = some s') :
    s.phase p = .idle ∧ s.log.committing = false ∧
      (s.log.lh.length : Int) + (s.log.outstanding + 1) * maxOpBlocks ≤ logSize ∧
      s' = { s with
        log := { s.log with outstanding := s.log.outstanding + 1 }
        phase := Function.update s.phase p .active
        admittedIn := Function.update s.admittedIn p s.committed.length
        writes := Function.update s.writes p [] } := by
  simp only [step] at stepped
  split at stepped
  · next idle =>
      obtain ⟨log, admitted, rfl⟩ := Option.map_eq_some_iff.mp stepped
      obtain ⟨notCommitting, fits, rfl⟩ := Log.beginOp_eq_some.mp admitted
      exact ⟨idle, notCommitting, fits, rfl⟩
  · cases stepped

theorem step_logWrite {blockno : Nat} (stepped : step budget s (.logWrite p blockno) = some s') :
    s.phase p = .active ∧ ((s.writes p).insert blockno).length ≤ budget ∧
      ∃ log pinned, s.log.logWrite blockno = .ok (log, pinned) ∧
        s' = { s with log, writes := Function.update s.writes p ((s.writes p).insert blockno) } := by
  simp only [step] at stepped
  split at stepped
  · next guard =>
      split at stepped
      · next log pinned wrote =>
          cases stepped
          exact ⟨guard.1, guard.2, log, pinned, wrote, rfl⟩
      · cases stepped
  · cases stepped

theorem step_endOp (stepped : step budget s (.endOp p) = some s') :
    s.phase p = .active ∧ s.log.committing = false ∧
      s' = { s with
        log := { s.log with
          outstanding := s.log.outstanding - 1
          committing := decide (s.log.outstanding - 1 = 0) }
        phase := Function.update s.phase p
          (if s.log.outstanding - 1 = 0 then .committing else .idle)
        ended := s.ended ++ [(s.admittedIn p, s.writes p)] } := by
  simp only [step] at stepped
  split at stepped
  · next active =>
      split at stepped
      · next log doCommit finished =>
          obtain ⟨notCommitting, rfl, rfl⟩ := Log.endOp_eq_ok.mp finished
          cases stepped
          refine ⟨active, notCommitting, ?_⟩
          by_cases last : s.log.outstanding - 1 = 0 <;> simp [last]
      · cases stepped
  · cases stepped

theorem step_commit (stepped : step budget s (.commit p) = some s') :
    s.phase p = .committing ∧
      s' = { s with
        log := { s.log with lh := [], committing := false }
        phase := Function.update s.phase p .idle
        committed := s.committed ++ [s.log.lh] } := by
  simp only [step] at stepped
  split at stepped
  · next committing => cases stepped; exact ⟨committing, rfl⟩
  · cases stepped

end Events

/-! ### The protocol invariant -/

/-- Block `b` was written by a finished call admitted after `e` commits. -/
def EndedIn (ended : List (Nat × List Nat)) (e b : Nat) : Prop :=
  ∃ writes, (e, writes) ∈ ended ∧ b ∈ writes

/-- Block `b` was written by a call still active. -/
def ActiveWrote (s : Sys P) (b : Nat) : Prop :=
  ∃ p, s.phase p = .active ∧ b ∈ s.writes p

variable [Fintype P]

/-- What holds between any two events. -/
structure Inv (s : Sys P) : Prop where
  outstanding : s.log.outstanding = (census s.phase .active).card
  committingFlag : s.log.committing = true ↔ (census s.phase .committing).Nonempty
  oneCommitter : (census s.phase .committing).card ≤ 1
  quiet : s.log.committing = true → s.log.outstanding = 0
  admitted : ∀ p, s.phase p = .active → s.admittedIn p = s.committed.length
  current : ∀ b, b ∈ s.log.lh ↔ EndedIn s.ended s.committed.length b ∨ ActiveWrote s b
  past : ∀ e (below : e < s.committed.length) b, b ∈ s.committed[e] ↔ EndedIn s.ended e b
  epochs : ∀ entry ∈ s.ended, entry.1 ≤ s.committed.length

section Preservation

variable {budget : Nat} {s s' : Sys P} {p : P}

omit [DecidableEq P] in
/-- While a commit runs no call is active. -/
theorem Inv.no_active (inv : Inv s) (committing : s.log.committing = true) (q : P) :
    s.phase q ≠ .active := by
  have none : census s.phase .active = ∅ := by
    have zero := inv.outstanding
    rw [inv.quiet committing] at zero
    exact Finset.card_eq_zero.mp (by omega)
  exact census_eq_empty_iff.mp none q

omit [DecidableEq P] in
/-- An active call means no commit runs. -/
theorem Inv.not_committing (inv : Inv s) (active : s.phase p = .active) :
    s.log.committing = false := by
  cases committing : s.log.committing
  · rfl
  · exact absurd active (inv.no_active committing p)

omit [DecidableEq P] in
theorem inv_init (start size : Nat) : Inv (init start size : Sys P) := by
  have nobody : ∀ phase : Phase, phase ≠ .idle → census (fun _ : P => Phase.idle) phase = ∅ :=
    fun phase different => census_eq_empty_iff.mpr fun _ => different.symm
  constructor <;> simp [init, EndedIn, ActiveWrote, nobody]

theorem inv_beginOp (inv : Inv s) (stepped : step budget s (.beginOp p) = some s') : Inv s' := by
  obtain ⟨idle, notCommitting, _, rfl⟩ := step_beginOp stepped
  have committers : census (Function.update s.phase p .active) .committing =
      census s.phase .committing :=
    census_update_of_ne_of_ne _ _ (by simp [idle]) (by simp)
  constructor
  · rw [card_census_update_enter _ _ (by simp [idle]), inv.outstanding]
    push_cast
    rfl
  · simpa [committers] using inv.committingFlag
  · simpa [committers] using inv.oneCommitter
  · simp [notCommitting]
  · intro q active
    by_cases same : q = p
    · subst same; simp
    · simp only [Function.update_of_ne same] at active ⊢
      exact inv.admitted q active
  · intro b
    rw [inv.current b]
    simp only [EndedIn, ActiveWrote]
    apply or_congr_right
    constructor
    · rintro ⟨q, active, wrote⟩
      by_cases same : q = p
      · subst same; simp [idle] at active
      · exact ⟨q, by simpa [same] using active, by simpa [same] using wrote⟩
    · rintro ⟨q, active, wrote⟩
      by_cases same : q = p
      · subst same; simp at wrote
      · exact ⟨q, by simpa [same] using active, by simpa [same] using wrote⟩
  · exact inv.past
  · exact inv.epochs

theorem inv_logWrite {blockno : Nat} (inv : Inv s)
    (stepped : step budget s (.logWrite p blockno) = some s') : Inv s' := by
  obtain ⟨active, _, log, pinned, wrote, rfl⟩ := step_logWrite stepped
  have notCommitting := inv.not_committing active
  obtain ⟨roomy, inside⟩ : ¬ (s.log.lh.length ≥ logSize ∨
      (s.log.lh.length : Int) ≥ (s.log.size : Int) - 1) ∧ ¬ s.log.outstanding < 1 := by
    unfold Log.logWrite at wrote
    split at wrote
    · cases wrote
    · split at wrote
      · cases wrote
      · exact ⟨by assumption, by assumption⟩
  rw [Log.logWrite_eq roomy inside] at wrote
  -- the log after the write: absorbed, or the block appended
  have logged : log.outstanding = s.log.outstanding ∧ log.committing = s.log.committing ∧
      ∀ b, b ∈ log.lh ↔ b ∈ s.log.lh ∨ b = blockno := by
    split at wrote
    · next member =>
        cases wrote
        refine ⟨rfl, rfl, fun b => ⟨Or.inl, ?_⟩⟩
        rintro (old | rfl)
        · exact old
        · exact member
    · cases wrote
      exact ⟨rfl, rfl, fun b => by simp⟩
  obtain ⟨sameOutstanding, sameCommitting, members⟩ := logged
  constructor
  · rw [sameOutstanding]; exact inv.outstanding
  · rw [sameCommitting]; exact inv.committingFlag
  · exact inv.oneCommitter
  · rw [sameCommitting, sameOutstanding]; exact inv.quiet
  · exact inv.admitted
  · intro b
    rw [members, inv.current b]
    simp only [EndedIn, ActiveWrote]
    constructor
    · rintro ((ended | ⟨q, qActive, qWrote⟩) | rfl)
      · exact Or.inl ended
      · refine Or.inr ⟨q, qActive, ?_⟩
        by_cases same : q = p
        · subst same; simp [List.mem_insert_iff, qWrote]
        · simpa [same] using qWrote
      · exact Or.inr ⟨p, active, by simp⟩
    · rintro (ended | ⟨q, qActive, qWrote⟩)
      · exact Or.inl (Or.inl ended)
      · by_cases same : q = p
        · subst same
          simp only [Function.update_self, List.mem_insert_iff] at qWrote
          rcases qWrote with rfl | old
          · exact Or.inr rfl
          · exact Or.inl (Or.inr ⟨q, qActive, old⟩)
        · exact Or.inl (Or.inr ⟨q, qActive, by simpa [same] using qWrote⟩)
  · exact inv.past
  · exact inv.epochs

theorem endedIn_append {ended : List (Nat × List Nat)} {entry : Nat × List Nat} {e b : Nat} :
    EndedIn (ended ++ [entry]) e b ↔ EndedIn ended e b ∨ (e = entry.1 ∧ b ∈ entry.2) := by
  simp only [EndedIn, List.mem_append, List.mem_singleton]
  constructor
  · rintro ⟨writes, old | rfl, member⟩
    · exact Or.inl ⟨writes, old, member⟩
    · exact Or.inr ⟨rfl, member⟩
  · rintro (⟨writes, old, member⟩ | ⟨rfl, member⟩)
    · exact ⟨writes, Or.inl old, member⟩
    · exact ⟨entry.2, Or.inr rfl, member⟩

theorem inv_endOp (inv : Inv s) (stepped : step budget s (.endOp p) = some s') : Inv s' := by
  obtain ⟨active, notCommitting, rfl⟩ := step_endOp stepped
  have someActive : 1 ≤ (census s.phase .active).card :=
    Finset.card_pos.mpr ⟨p, by simpa using active⟩
  have noCommitter : census s.phase .committing = ∅ := by
    rw [← Finset.not_nonempty_iff_eq_empty, ← inv.committingFlag, notCommitting]
    simp
  have admittedNow := inv.admitted p active
  -- the process leaves `active`, for `committing` when it was the last one
  have leaves : (if s.log.outstanding - 1 = 0 then Phase.committing else .idle) ≠ .active := by
    split <;> simp
  have committers : census (Function.update s.phase p
      (if s.log.outstanding - 1 = 0 then Phase.committing else .idle)) .committing =
      if s.log.outstanding - 1 = 0 then {p} else ∅ := by
    split
    · rw [census_update_self, noCommitter]; rfl
    · rw [census_update_of_ne_of_ne _ _ (by simp [active]) (by simp), noCommitter]
  constructor
  · dsimp only
    rw [card_census_update_leave _ _ active leaves, inv.outstanding]
    omega
  · dsimp only
    rw [committers]
    split <;> simp_all
  · dsimp only
    rw [committers]
    split <;> simp
  · dsimp only
    intro last
    simpa using last
  · intro q qActive
    by_cases same : q = p
    · subst same; simp [leaves] at qActive
    · exact inv.admitted q (by simpa [same] using qActive)
  · intro b
    dsimp only
    rw [endedIn_append, inv.current b, admittedNow]
    simp only [ActiveWrote]
    constructor
    · rintro (ended | ⟨q, qActive, wrote⟩)
      · exact Or.inl (Or.inl ended)
      · by_cases same : q = p
        · subst same; exact Or.inl (Or.inr ⟨trivial, wrote⟩)
        · exact Or.inr ⟨q, by simpa [same] using qActive, wrote⟩
    · rintro ((ended | ⟨-, wrote⟩) | ⟨q, qActive, wrote⟩)
      · exact Or.inl ended
      · exact Or.inr ⟨p, active, wrote⟩
      · by_cases same : q = p
        · subst same; simp [leaves] at qActive
        · exact Or.inr ⟨q, by simpa [same] using qActive, wrote⟩
  · intro e below b
    dsimp only at below ⊢
    rw [endedIn_append, inv.past e below b, admittedNow]
    simp only [Nat.ne_of_lt below, false_and, or_false]
  · intro entry member
    simp only [List.mem_append, List.mem_singleton] at member
    rcases member with old | rfl
    · exact inv.epochs entry old
    · exact admittedNow.le

theorem inv_commit (inv : Inv s) (stepped : step budget s (.commit p) = some s') : Inv s' := by
  obtain ⟨committingPhase, rfl⟩ := step_commit stepped
  have committing : s.log.committing = true :=
    inv.committingFlag.mpr ⟨p, by simpa using committingPhase⟩
  have quiet := inv.quiet committing
  have noActive := inv.no_active committing
  have actives : census (Function.update s.phase p .idle) .active = census s.phase .active :=
    census_update_of_ne_of_ne _ _ (by simp [committingPhase]) (by simp)
  -- `p` was the only committer, so none is left
  have committers : census (Function.update s.phase p .idle) .committing = ∅ := by
    rw [census_update_of_ne _ _ (by simp), Finset.eq_empty_iff_forall_notMem]
    intro q member
    rw [Finset.mem_erase] at member
    exact member.1 (Finset.card_le_one.mp inv.oneCommitter q member.2 p
      (by simpa using committingPhase))
  have stillNoActive : ∀ q, Function.update s.phase p .idle q ≠ .active := by
    intro q
    by_cases same : q = p
    · subst same; simp
    · simpa [same] using noActive q
  constructor
  · dsimp only; rw [actives]; exact inv.outstanding
  · dsimp only; rw [committers]; simp
  · dsimp only; rw [committers]; simp
  · simp
  · intro q qActive
    exact absurd qActive (stillNoActive q)
  · intro b
    dsimp only
    simp only [List.not_mem_nil, false_iff, not_or, ActiveWrote, List.length_append,
      List.length_singleton, EndedIn, not_exists, not_and]
    refine ⟨fun writes member _ => ?_, fun q qActive _ => stillNoActive q qActive⟩
    have later := inv.epochs _ member
    simp at later
  · intro e below b
    dsimp only at below ⊢
    simp only [List.length_append, List.length_singleton] at below
    rcases Nat.lt_succ_iff_lt_or_eq.mp below with earlier | rfl
    · rw [List.getElem_append_left earlier]
      exact inv.past e earlier b
    · rw [List.getElem_append_right (Nat.le_refl _)]
      simp only [Nat.sub_self, List.getElem_singleton]
      rw [inv.current b]
      simp [ActiveWrote, noActive]
  · intro entry member
    have earlier := inv.epochs entry member
    simp only [List.length_append, List.length_singleton]
    omega

theorem inv_step (inv : Inv s) {event : Event P} (stepped : step budget s event = some s') :
    Inv s' := by
  cases event with
  | beginOp p => exact inv_beginOp inv stepped
  | logWrite p blockno => exact inv_logWrite inv stepped
  | endOp p => exact inv_endOp inv stepped
  | commit p => exact inv_commit inv stepped

end Preservation

theorem Reachable.inv {budget start size : Nat} {s : Sys P}
    (reachable : Reachable budget start size s) : Inv s :=
  Machine.Reachable.invariant (inv_init start size) (fun _ _ _ inv stepped => inv_step inv stepped)
    reachable

/-- **Three calls of `MAXOPBLOCKS` blocks overflow the log.** Three calls are
admitted together (`0 + 3 * MAXOPBLOCKS ≤ LOGSIZE`); the first two write ten
distinct blocks each and the third nine, all accepted. The third call's tenth
distinct block, within its `MAXOPBLOCKS`, reaches `log_write` with
`log.lh.n = 29 = log.size - 1` and panics. This is the protocol with the budget
`begin_op` reserves, not a run of the file system, whose calls log fewer. -/
theorem log_capacity_overflow :
    ∃ s : Sys (Fin 3), Reachable maxOpBlocks logStart nlog s ∧ s.phase 2 = .active ∧
      ((s.writes 2).insert 129).length ≤ maxOpBlocks ∧
      s.log.logWrite 129 = .error "too big a transaction" := by
  have ran : run maxOpBlocks (init logStart nlog : Sys (Fin 3))
      ([.beginOp 0, .beginOp 1, .beginOp 2] ++
        (List.range 10).map (fun i => .logWrite 0 (100 + i)) ++
        (List.range 10).map (fun i => .logWrite 1 (110 + i)) ++
        (List.range 9).map (fun i => .logWrite 2 (120 + i))) =
      some ((run maxOpBlocks (init logStart nlog : Sys (Fin 3))
        ([.beginOp 0, .beginOp 1, .beginOp 2] ++
          (List.range 10).map (fun i => .logWrite 0 (100 + i)) ++
          (List.range 10).map (fun i => .logWrite 1 (110 + i)) ++
          (List.range 9).map (fun i => .logWrite 2 (120 + i)))).getD (init logStart nlog)) := rfl
  exact ⟨_, Machine.reachable_of_run Relation.ReflTransGen.refl ran, rfl, by decide, rfl⟩

/-! ### Room in the log -/

/-- What call `p` may still add to the header: `MAXOPBLOCKS` less the distinct
blocks it has logged, while it is active. -/
def demand (s : Sys P) (p : P) : Nat :=
  if s.phase p = .active then maxOpBlocks - (s.writes p).length else 0

/-- What the active calls may still add to the header. -/
def reserve (s : Sys P) : Nat :=
  ∑ p, demand s p

/-- **Capacity invariant.** Calls log at most `budget` distinct blocks, and the
header with what the active calls may still add fits in `LOGSIZE`. -/
structure Cap (budget size : Nat) (s : Sys P) : Prop where
  sized : s.log.size = size
  within : ∀ p, s.phase p = .active → (s.writes p).length ≤ budget
  room : s.log.lh.length + reserve s ≤ logSize

section Capacity

variable {budget size : Nat} {s s' : Sys P} {p : P}

omit [DecidableEq P] [Fintype P] in
theorem demand_of_ne_active (notActive : s.phase p ≠ .active) : demand s p = 0 := by
  simp [demand, notActive]

omit [DecidableEq P] in
theorem demand_le_reserve (s : Sys P) (p : P) : demand s p ≤ reserve s :=
  Finset.single_le_sum (fun _ _ => Nat.zero_le _) (Finset.mem_univ p)

omit [DecidableEq P] in
/-- The active calls reserve at most `MAXOPBLOCKS` each. -/
theorem reserve_le_card (s : Sys P) :
    reserve s ≤ (census s.phase .active).card * maxOpBlocks := by
  have offActive : ∀ q ∈ Finset.univ, q ∉ census s.phase .active → demand s q = 0 :=
    fun q _ outside => demand_of_ne_active (by simpa using outside)
  unfold reserve
  rw [← Finset.sum_subset (Finset.subset_univ _) offActive, ← smul_eq_mul]
  exact Finset.sum_le_card_nsmul _ _ _ fun q _ => by unfold demand; split <;> omega

omit [DecidableEq P] in
/-- With no call active nothing is reserved. -/
theorem reserve_eq_zero (none : ∀ q, s.phase q ≠ .active) : reserve s = 0 :=
  Finset.sum_eq_zero fun q _ => demand_of_ne_active (none q)

/-- The reserve after a step that moves only `p`, counted both ways: no other
call's demand changes. -/
theorem reserve_add_of_frame (phases : ∀ q, q ≠ p → s'.phase q = s.phase q)
    (writes : ∀ q, q ≠ p → s'.writes q = s.writes q) :
    reserve s' + demand s p = reserve s + demand s' p :=
  Pool.sum_add_of_agree p fun q other => by simp [demand, phases q other, writes q other]

omit [DecidableEq P] in
/-- After a step that moves only `p`, the other active calls are within the
budget as they were. -/
theorem within_of_frame (cap : Cap budget size s) (phases : ∀ q, q ≠ p → s'.phase q = s.phase q)
    (writes : ∀ q, q ≠ p → s'.writes q = s.writes q)
    (own : s'.phase p = .active → (s'.writes p).length ≤ budget) :
    ∀ q, s'.phase q = .active → (s'.writes q).length ≤ budget := by
  intro q active
  by_cases same : q = p
  · subst same
    exact own active
  · rw [writes q same]
    exact cap.within q (by rwa [← phases q same])

/-- `begin_op` reserves `MAXOPBLOCKS` for the new call, which its admission test
makes room for since the reserve is at most `MAXOPBLOCKS` per active call. -/
theorem cap_beginOp (inv : Inv s) (cap : Cap budget size s)
    (stepped : step budget s (.beginOp p) = some s') : Cap budget size s' := by
  obtain ⟨idle, _, fits, next⟩ := step_beginOp stepped
  have phases : ∀ q, q ≠ p → s'.phase q = s.phase q := by
    subst next; exact fun q other => Function.update_of_ne other _ _
  have writes : ∀ q, q ≠ p → s'.writes q = s.writes q := by
    subst next; exact fun q other => Function.update_of_ne other _ _
  have moved := reserve_add_of_frame phases writes
  have before : demand s p = 0 := demand_of_ne_active (by simp [idle])
  have after : demand s' p = maxOpBlocks := by subst next; simp [demand]
  have header : s'.log.lh = s.log.lh := by subst next; rfl
  have bound := reserve_le_card s
  rw [inv.outstanding] at fits
  constructor
  · subst next; exact cap.sized
  · exact within_of_frame cap phases writes fun _ => by subst next; simp
  · rw [header]
    have room : (s.log.lh.length : Int) + (census s.phase .active).card * maxOpBlocks + maxOpBlocks ≤
        logSize := by
      linarith
    have : s.log.lh.length + (census s.phase .active).card * maxOpBlocks + maxOpBlocks ≤ logSize := by
      exact_mod_cast room
    omega

omit [DecidableEq P] in
theorem cap_init (start size : Nat) : Cap budget size (init start size : Sys P) where
  sized := rfl
  within _ idle := by simp [init] at idle
  room := by
    rw [reserve_eq_zero fun _ => by simp [init]]
    simp [init]

/-- A new block fills one slot of what its call reserved; an absorbed one fills
none. The block is new to the header only if it is new to the call, since a
call's blocks are in the header (`Inv.current`). -/
theorem cap_logWrite {blockno : Nat} (inv : Inv s) (cap : Cap budget size s)
    (small : budget ≤ maxOpBlocks) (stepped : step budget s (.logWrite p blockno) = some s') :
    Cap budget size s' := by
  obtain ⟨active, fits, log, pinned, wrote, next⟩ := step_logWrite stepped
  have phases : ∀ q, q ≠ p → s'.phase q = s.phase q := by
    subst next; exact fun _ _ => rfl
  have writes : ∀ q, q ≠ p → s'.writes q = s.writes q := by
    subst next; exact fun q other => Function.update_of_ne other _ _
  have moved := reserve_add_of_frame phases writes
  have demands : demand s' p + ((s.writes p).insert blockno).length =
      demand s p + (s.writes p).length := by
    have before := cap.within p active
    subst next
    simp only [demand, active, if_true, Function.update_self]
    omega
  have grown := List.length_le_length_insert (l := s.writes p) (a := blockno)
  constructor
  · subst next
    obtain ⟨_, ⟨_, rfl, _⟩ | ⟨_, rfl, _⟩⟩ := Log.logWrite_eq_ok wrote <;> exact cap.sized
  · exact within_of_frame cap phases writes fun _ => by subst next; simpa using fits
  · have header : s'.log = log := by subst next; rfl
    rw [header]
    have room := cap.room
    obtain ⟨_, ⟨_, rfl, _⟩ | ⟨fresh, rfl, _⟩⟩ := Log.logWrite_eq_ok wrote
    · omega
    · -- the call had not logged the block, since its blocks are in the header
      have notOwn : blockno ∉ s.writes p :=
        fun own => fresh ((inv.current blockno).mpr (.inr ⟨p, active, own⟩))
      rw [List.length_insert_of_not_mem notOwn] at demands
      simp only [List.length_append, List.length_singleton]
      omega

theorem cap_endOp (cap : Cap budget size s) (stepped : step budget s (.endOp p) = some s') :
    Cap budget size s' := by
  obtain ⟨active, _, next⟩ := step_endOp stepped
  have leaves : s'.phase p ≠ .active := by
    subst next
    simp only [Function.update_self]
    split <;> simp
  have phases : ∀ q, q ≠ p → s'.phase q = s.phase q := by
    subst next; exact fun q other => Function.update_of_ne other _ _
  have writes : ∀ q, q ≠ p → s'.writes q = s.writes q := by
    subst next; exact fun _ _ => rfl
  have moved := reserve_add_of_frame phases writes
  have header : s'.log.lh = s.log.lh := by subst next; rfl
  have room := cap.room
  rw [demand_of_ne_active leaves] at moved
  constructor
  · subst next; exact cap.sized
  · exact within_of_frame cap phases writes fun active => absurd active leaves
  · rw [header]
    omega

/-- `commit()` runs with no call active and empties the header. -/
theorem cap_commit (inv : Inv s) (cap : Cap budget size s)
    (stepped : step budget s (.commit p) = some s') : Cap budget size s' := by
  obtain ⟨committingPhase, next⟩ := step_commit stepped
  have committing : s.log.committing = true :=
    inv.committingFlag.mpr ⟨p, by simpa using committingPhase⟩
  have noActive : ∀ q, s'.phase q ≠ .active := by
    intro q
    subst next
    by_cases same : q = p
    · subst same; simp
    · simpa [same] using inv.no_active committing q
  constructor
  · subst next; exact cap.sized
  · intro q qActive
    exact absurd qActive (noActive q)
  · rw [reserve_eq_zero noActive]
    subst next
    simp

theorem cap_step (inv : Inv s) (cap : Cap budget size s) (small : budget ≤ maxOpBlocks)
    {event : Event P} (stepped : step budget s event = some s') : Cap budget size s' := by
  cases event with
  | beginOp p => exact cap_beginOp inv cap stepped
  | logWrite p blockno => exact cap_logWrite inv cap small stepped
  | endOp p => exact cap_endOp cap stepped
  | commit p => exact cap_commit inv cap stepped

end Capacity

/-- The capacity invariant holds in every state of every interleaving, for calls
of at most `MAXOPBLOCKS` distinct blocks. -/
theorem Reachable.cap {budget start size : Nat} (small : budget ≤ maxOpBlocks) {s : Sys P}
    (reachable : Reachable budget start size s) : Cap budget size s := by
  -- `Cap` is preserved only alongside `Inv`, so the two are carried together
  have both : Inv s ∧ Cap budget size s :=
    @Machine.Reachable.invariant _ _ (step budget) (fun s => Inv s ∧ Cap budget size s) _ _
      ⟨inv_init start size, cap_init start size⟩
      (fun _ _ _ holds stepped => ⟨inv_step holds.1 stepped, cap_step holds.1 holds.2 small stepped⟩)
      reachable
  exact both.2

/-- **Log capacity for calls of at most eight blocks.** With the log `mkfs`
lays out (`log.size = nlog = LOGSIZE`), when every call logs at most eight
distinct blocks, `log_write` of any block by an active call passes both of its
checks: `log.lh.n` stays below `log.size - 1` and the call is outstanding. An
active call still reserves `MAXOPBLOCKS - 8 ≥ 2` slots, so the header holds
at most `LOGSIZE - 2` blocks. -/
theorem log_capacity_safe {budget start : Nat} (small : budget ≤ 8) {s : Sys P}
    (reachable : Reachable budget start nlog s) {p : P} (active : s.phase p = .active)
    (blockno : Nat) : ∃ log pinned, s.log.logWrite blockno = .ok (log, pinned) := by
  have cap := reachable.cap (by unfold maxOpBlocks; omega)
  have inv := reachable.inv
  have held : demand s p ≤ reserve s := demand_le_reserve s p
  have own : demand s p = maxOpBlocks - (s.writes p).length := by simp [demand, active]
  have within := cap.within p active
  have room := cap.room
  have sized := cap.sized
  have outstanding : 1 ≤ s.log.outstanding := by
    rw [inv.outstanding]
    exact_mod_cast Finset.card_pos.mpr ⟨p, by simpa using active⟩
  have roomy : ¬ (s.log.lh.length ≥ logSize ∨ (s.log.lh.length : Int) ≥ (s.log.size : Int) - 1) := by
    simp only [sized, nlog, logSize, maxOpBlocks] at room own ⊢
    omega
  rw [Log.logWrite_eq roomy (by omega)]
  split <;> exact ⟨_, _, rfl⟩

/-- Two calls of eight blocks each, the second of them writing block 7 again. -/
theorem log_capacity_safe_two_calls :
    let s := (run 8 (init logStart nlog : Sys (Fin 2))
      ([.beginOp 0, .beginOp 1] ++ (List.range 8).map (fun i => .logWrite 0 (100 + i)) ++
        (List.range 7).map (fun i => .logWrite 1 (110 + i)))).getD (init logStart nlog)
    Reachable 8 logStart nlog s ∧ s.phase 1 = .active ∧
      ∃ log pinned, s.log.logWrite 7 = .ok (log, pinned) := by
  intro s
  have ran : run 8 (init logStart nlog : Sys (Fin 2))
      ([.beginOp 0, .beginOp 1] ++ (List.range 8).map (fun i => .logWrite 0 (100 + i)) ++
        (List.range 7).map (fun i => .logWrite 1 (110 + i))) = some s := rfl
  have reachable : Reachable 8 logStart nlog s :=
    Machine.reachable_of_run Relation.ReflTransGen.refl ran
  have active : s.phase 1 = .active := rfl
  exact ⟨reachable, active, log_capacity_safe (by decide) reachable active 7⟩

end Xv6.Log.GroupCommit
