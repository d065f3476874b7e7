import Xv6.Proc.Table

/-!
Contract: the process tree. In every reachable state each process in use but
`initproc` has a parent that has not exited, pids grow from parent to child so
the parent relation has no cycle, and each ZOMBIE holds the status it passed to
`exit`. `wait` returns a pid only for a ZOMBIE child, with that status, and
frees that one slot; it returns -1 only without children, when killed, or when
its copy fails. `exit` leaves a ZOMBIE whose parent has not exited.

Owns: `Proc.Alive`, `Table.ParentOf`, `Reparents`, `Tree`, the step lemmas of
`Tree`, `process_tree`.
-/

namespace Xv6.Process

/-- A process that has not exited: its slot is in use and it is no ZOMBIE. -/
def Proc.Alive (q : Proc) : Prop :=
  q.state ≠ .unused ∧ q.state ≠ .zombie

/-- `j` is the parent of `i`. -/
def Table.ParentOf (t : Table) (i j : Fin nProc) : Prop :=
  (t.procs i).parent = some j

section SetProc

variable {t : Table} {i q : Fin nProc} {f : Proc → Proc}

@[simp] theorem Table.setProc_self : (t.setProc i f).procs i = f (t.procs i) := by
  simp [Table.setProc]

@[simp] theorem Table.setProc_of_ne (other : q ≠ i) : (t.setProc i f).procs q = t.procs q := by
  simp [Table.setProc, other]

@[simp] theorem Table.setProc_nextpid : (t.setProc i f).nextpid = t.nextpid := rfl

@[simp] theorem Table.setProc_initproc : (t.setProc i f).initproc = t.initproc := rfl

end SetProc

/-! ### What `reparent` and `wakeup` change -/

/-- What `reparent(p)` may do: give a child of `p` to `initproc` and wake a
sleeping process, keeping every pid and status. -/
def Reparents (p : Fin nProc) (t t' : Table) : Prop :=
  t'.nextpid = t.nextpid ∧ t'.initproc = t.initproc ∧ ∀ q,
    (t'.procs q).pid = (t.procs q).pid ∧ (t'.procs q).xstate = (t.procs q).xstate ∧
    ((t'.procs q).parent = (t.procs q).parent ∨
      (t.procs q).parent = some p ∧ (t'.procs q).parent = t.initproc) ∧
    ((t'.procs q).state = (t.procs q).state ∨
      (t.procs q).state = .sleeping ∧ (t'.procs q).state = .runnable)

namespace Reparents

variable {p : Fin nProc} {t t' t'' : Table}

theorem refl (t : Table) : Reparents p t t :=
  ⟨rfl, rfl, fun _ => ⟨rfl, rfl, .inl rfl, .inl rfl⟩⟩

theorem trans (first : Reparents p t t') (second : Reparents p t' t'') : Reparents p t t'' := by
  obtain ⟨next, init, each⟩ := first
  obtain ⟨next', init', each'⟩ := second
  refine ⟨next'.trans next, init'.trans init, fun q => ?_⟩
  obtain ⟨pid, xstate, parent, state⟩ := each q
  obtain ⟨pid', xstate', parent', state'⟩ := each' q
  refine ⟨pid'.trans pid, xstate'.trans xstate, ?_, ?_⟩
  · rcases parent' with same' | ⟨child', moved'⟩ <;> rcases parent with same | ⟨child, moved⟩
    · exact .inl (same'.trans same)
    · exact .inr ⟨child, same'.trans moved⟩
    · exact .inr ⟨same ▸ child', moved'.trans init⟩
    · exact .inr ⟨child, moved'.trans init⟩
  · rcases state' with same' | ⟨asleep', woken'⟩ <;> rcases state with same | ⟨asleep, woken⟩
    · exact .inl (same'.trans same)
    · exact .inr ⟨asleep, same'.trans woken⟩
    · exact .inr ⟨same ▸ asleep', woken'⟩
    · rw [woken] at asleep'
      cases asleep'

/-- A process that has not exited still has not. -/
theorem alive (step : Reparents p t t') {q : Fin nProc} (alive : (t.procs q).Alive) :
    (t'.procs q).Alive := by
  obtain ⟨-, -, -, state⟩ := step.2.2 q
  rcases state with same | ⟨-, woken⟩
  · rwa [Proc.Alive, same]
  · rw [Proc.Alive, woken]
    exact ⟨nofun, nofun⟩

/-- Each state keeps its kind: in use or not, ZOMBIE or not, never USED anew. -/
theorem state_eq_iff (step : Reparents p t t') (q : Fin nProc) (s : ProcState)
    (notSleeping : s ≠ .sleeping) (notRunnable : s ≠ .runnable) :
    (t'.procs q).state = s ↔ (t.procs q).state = s := by
  obtain ⟨-, -, -, state⟩ := step.2.2 q
  rcases state with same | ⟨asleep, woken⟩
  · rw [same]
  · rw [woken, asleep]
    exact ⟨fun h => absurd h.symm notRunnable, fun h => absurd h.symm notSleeping⟩

end Reparents

theorem wakeup_reparents (p : Fin nProc) (t : Table) (self chan : Fin nProc) :
    Reparents p t (wakeup t self chan) := by
  refine ⟨rfl, rfl, fun q => ?_⟩
  simp only [wakeup]
  split
  · rename_i woken
    exact ⟨rfl, rfl, .inl rfl, .inr ⟨woken.2.1, rfl⟩⟩
  · exact ⟨rfl, rfl, .inl rfl, .inl rfl⟩

theorem wakeupOpt_reparents (p : Fin nProc) (t : Table) (self : Fin nProc) :
    ∀ chan, Reparents p t (wakeupOpt t self chan)
  | some chan => wakeup_reparents p t self chan
  | none => Reparents.refl t

/-- `wakeup` changes no parent. -/
theorem wakeupOpt_parent (t : Table) (self : Fin nProc) (chan : Option (Fin nProc))
    (q : Fin nProc) : ((wakeupOpt t self chan).procs q).parent = (t.procs q).parent := by
  cases chan with
  | none => rfl
  | some chan =>
    simp only [wakeupOpt, wakeup]
    split <;> rfl

theorem reparentAt_reparents (p : Fin nProc) (t : Table) (pp : Fin nProc) :
    Reparents p t (reparentAt p t pp) := by
  unfold reparentAt
  split
  · rename_i child
    have moved : Reparents p t (t.setProc pp fun q => { q with parent := t.initproc }) := by
      refine ⟨rfl, rfl, fun q => ?_⟩
      by_cases here : q = pp
      · subst here
        simp [child]
      · simp [here]
    exact moved.trans (wakeupOpt_reparents p _ p t.initproc)
  · exact Reparents.refl t

/-- After its round, slot `pp` is no child of `p`, unless `initproc` is `p`. -/
theorem reparentAt_not_child {p : Fin nProc} (t : Table) (notInit : t.initproc ≠ some p)
    (pp : Fin nProc) : ((reparentAt p t pp).procs pp).parent ≠ some p := by
  unfold reparentAt
  split
  · rw [wakeupOpt_parent]
    simpa using notInit
  · assumption

/-- `reparent(p)`, by its loop: every child of `p` passes to `initproc`. -/
theorem reparent_spec {p : Fin nProc} (t : Table) (notInit : t.initproc ≠ some p) :
    Reparents p t (reparent t p) ∧ ∀ q, ((reparent t p).procs q).parent ≠ some p := by
  -- the loop over any list of slots, from any table in which `initproc` is not `p`
  have loop : ∀ (slots : List (Fin nProc)) (t : Table), t.initproc ≠ some p →
      Reparents p t (slots.foldl (reparentAt p) t) ∧
        ∀ q ∈ slots, ((slots.foldl (reparentAt p) t).procs q).parent ≠ some p := by
    intro slots
    induction slots with
    | nil => exact fun t _ => ⟨Reparents.refl t, nofun⟩
    | cons pp rest ih =>
      intro t notInit
      have first := reparentAt_reparents p t pp
      obtain ⟨later, laterNot⟩ := ih (reparentAt p t pp) (first.2.1 ▸ notInit)
      refine ⟨first.trans later, fun q mem => ?_⟩
      rcases List.mem_cons.mp mem with rfl | inRest
      · -- moved away from `p` in its round, and a later round moves it only to `initproc`
        rcases (later.2.2 q).2.2.1 with same | ⟨child, _⟩
        · rw [List.foldl_cons, same]
          exact reparentAt_not_child t notInit q
        · exact absurd child (reparentAt_not_child t notInit q)
      · exact laterNot q inRest
  obtain ⟨spec, notChild⟩ := loop (List.finRange nProc) t notInit
  unfold reparent
  exact ⟨spec, fun q => notChild q (List.mem_finRange q)⟩

/-! ### The calls, case by case -/

theorem boot_procs (i : Fin nProc) :
    boot.procs i = if i = 0 then ⟨.runnable, none, false, 0, 1, none⟩ else Proc.zero := by
  revert i
  decide

theorem boot_nextpid : boot.nextpid = 2 := by decide

theorem boot_initproc : boot.initproc = some 0 := by decide

/-- `fork` changes nothing, or takes an UNUSED slot and, failing, hands it back
cleared, or makes it a RUNNABLE child of `p` with the next pid. -/
theorem fork_cases (t : Table) (p : Fin nProc) (alloc copied : Bool) :
    (fork t p alloc copied).2 = t ∨ ∃ np, (t.procs np).state = .unused ∧
      ((fork t p alloc copied).2 = { t with nextpid := t.nextpid + 1 }.setProc np freeproc ∨
        (fork t p alloc copied).2 = { t with nextpid := t.nextpid + 1 }.setProc np fun q =>
          { q with pid := t.nextpid, parent := some p, state := .runnable }) := by
  cases found : (List.finRange nProc).find? (fun i => (t.procs i).state = .unused) with
  | none =>
    left
    simp [fork, allocproc, found]
  | some np =>
    have unused : (t.procs np).state = .unused := by simpa using List.find?_some found
    refine .inr ⟨np, unused, ?_⟩
    -- with `alloc` or `copied` false the slot is freed; `freeproc` clears every field
    cases alloc <;> cases copied <;>
      simp [fork, allocproc, found, allocpid, Table.setProc, Function.update_idem, freeproc]

/-- The ways `wait` by `p` ends: with a ZOMBIE child, reaped or kept when the copy
fails; or with none, returning -1 or sleeping on `p`. -/
theorem wait_cases (t : Table) (p : Fin nProc) (addr : Nat) (copyOk : Bool) :
    (∃ c, (t.procs c).parent = some p ∧ (t.procs c).state = .zombie ∧
      (addr ≠ 0 ∧ copyOk = false ∧ wait t p addr copyOk = (.returns (-1) none, t) ∨
        ¬ (addr ≠ 0 ∧ copyOk = false) ∧ wait t p addr copyOk =
          (.returns (t.procs c).pid (if addr ≠ 0 then some (t.procs c).xstate else none),
            t.setProc c freeproc))) ∨
    (∀ c, (t.procs c).parent = some p → (t.procs c).state ≠ .zombie) ∧
      (((∀ c, (t.procs c).parent ≠ some p) ∨ (t.procs p).killed = true) ∧
          wait t p addr copyOk = (.returns (-1) none, t) ∨
        (∃ c, (t.procs c).parent = some p) ∧ (t.procs p).killed = false ∧
          wait t p addr copyOk =
            (.sleeps, t.setProc p fun q => { q with chan := some p, state := .sleeping })) := by
  cases found : ((List.finRange nProc).filter fun pp => (t.procs pp).parent = some p).find?
      (fun pp => (t.procs pp).state = .zombie) with
  | some c =>
    have zombie : (t.procs c).state = .zombie := by simpa using List.find?_some found
    have parent : (t.procs c).parent = some p := by
      simpa using List.mem_of_find?_eq_some found
    refine .inl ⟨c, parent, zombie, ?_⟩
    by_cases fails : addr ≠ 0 ∧ copyOk = false
    · exact .inl ⟨fails.1, fails.2, by simp [wait, found, fails]⟩
    · exact .inr ⟨fails, by simp [wait, found, fails]⟩
  | none =>
    have noZombie : ∀ c, (t.procs c).parent = some p → (t.procs c).state ≠ .zombie := by
      intro c parent zombie
      have := List.find?_eq_none.mp found c (by simpa using parent)
      simp [zombie] at this
    refine .inr ⟨noZombie, ?_⟩
    by_cases stops : (∀ c, (t.procs c).parent ≠ some p) ∨ (t.procs p).killed = true
    · refine .inl ⟨stops, ?_⟩
      rcases stops with orphaned | killed
      · simp [wait, orphaned]
      · simp [wait, found, killed]
    · obtain ⟨⟨c, child⟩, alive⟩ : (∃ c, (t.procs c).parent = some p) ∧ (t.procs p).killed = false := by
        simpa [not_or] using stops
      refine .inr ⟨⟨c, child⟩, alive, ?_⟩
      have kids : ((List.finRange nProc).filter fun pp => (t.procs pp).parent = some p) ≠ [] :=
        List.ne_nil_of_mem (List.mem_filter.mpr ⟨List.mem_finRange c, by simpa using child⟩)
      simp [wait, found, kids, alive]

/-- A successful `exit` is `reparent`, the wakeup of the parent, and the ZOMBIE. -/
theorem exit_ok {t t' : Table} {p : Fin nProc} {status : Int} (ok : exit t p status = .ok t') :
    t.initproc ≠ some p ∧ t' = (wakeupOpt (reparent t p) p ((reparent t p).procs p).parent).setProc p
      fun q => { q with xstate := status, state := .zombie } := by
  unfold exit at ok
  split at ok
  · cases ok
  · rename_i notInit
    exact ⟨notInit, (Except.ok.inj ok).symm⟩

/-- `kill` changes nothing, or marks one slot and wakes it if it sleeps. -/
theorem kill_cases (t : Table) (pid : Int) :
    (kill t pid).2 = t ∨ ∃ i, (kill t pid).2 = t.setProc i fun q =>
      { q with killed := true, state := if q.state = .sleeping then .runnable else q.state } := by
  cases found : (List.finRange nProc).find? (fun i => (t.procs i).pid = pid) with
  | none =>
    left
    simp [kill, found]
  | some i => exact .inr ⟨i, by rw [kill_marks_first found]⟩

/-! ### The invariant -/

/-- The process tree in a state of a run. -/
structure Tree (w : World) : Prop where
  init : ∃ i, w.table.initproc = some i ∧ (w.table.procs i).pid = 1 ∧
    (w.table.procs i).Alive ∧ (w.table.procs i).parent = none
  noUsed : ∀ i, (w.table.procs i).state ≠ .used
  unusedBlank : ∀ i, (w.table.procs i).state = .unused →
    (w.table.procs i).parent = none ∧ (w.table.procs i).pid = 0
  parentAlive : ∀ i, (w.table.procs i).state ≠ .unused → w.table.initproc ≠ some i →
    ∃ j, (w.table.procs i).parent = some j ∧ (w.table.procs j).Alive
  pidBelow : ∀ i, (w.table.procs i).state ≠ .unused →
    0 < (w.table.procs i).pid ∧ (w.table.procs i).pid < w.table.nextpid
  parentOlder : ∀ i j, w.table.ParentOf i j → (w.table.procs j).pid < (w.table.procs i).pid
  exitedStatus : ∀ i, (w.table.procs i).state = .zombie → w.exited i = some (w.table.procs i).xstate

namespace Tree

variable {w : World}

/-- Along the parent relation pids fall, so it has no cycle. -/
theorem pid_lt_of_ancestor (tree : Tree w) {i j : Fin nProc}
    (ancestor : Relation.TransGen w.table.ParentOf i j) :
    (w.table.procs j).pid < (w.table.procs i).pid := by
  induction ancestor with
  | single parent => exact tree.parentOlder _ _ parent
  | tail _ parent older => exact (tree.parentOlder _ _ parent).trans older

theorem acyclic (tree : Tree w) (i : Fin nProc) : ¬ Relation.TransGen w.table.ParentOf i i :=
  fun cycle => lt_irrefl _ (tree.pid_lt_of_ancestor cycle)

/-- A child's parent has not exited. -/
theorem parent_alive (tree : Tree w) {i j : Fin nProc} (parent : w.table.ParentOf i j) :
    (w.table.procs j).Alive := by
  have inUse : (w.table.procs i).state ≠ .unused := by
    intro unused
    rw [Table.ParentOf, (tree.unusedBlank i unused).1] at parent
    cases parent
  have notInit : w.table.initproc ≠ some i := by
    intro init
    obtain ⟨i', init', -, -, orphan⟩ := tree.init
    rw [init, Option.some.injEq] at init'
    subst init'
    rw [Table.ParentOf, orphan] at parent
    cases parent
  obtain ⟨j', parent', alive⟩ := tree.parentAlive i inUse notInit
  rw [Table.ParentOf, parent'] at parent
  cases parent
  exact alive

end Tree

/-! ### One step -/

/-- Two versions of a slot that agree on everything the tree reads: pid, parent,
a ZOMBIE's status, and whether the slot is in use, a ZOMBIE or USED. -/
def Proc.SameKind (q q' : Proc) : Prop :=
  q'.pid = q.pid ∧ q'.parent = q.parent ∧ (q.state = .zombie → q'.xstate = q.xstate) ∧
    (q'.state = .unused ↔ q.state = .unused) ∧ (q'.state = .zombie ↔ q.state = .zombie) ∧
    (q'.state = .used ↔ q.state = .used)

theorem Proc.SameKind.alive {q q' : Proc} (same : q.SameKind q') : q'.Alive ↔ q.Alive := by
  obtain ⟨-, -, -, unused, zombie, -⟩ := same
  simp only [Proc.Alive, ne_eq, unused, zombie]

namespace Tree

variable {w w' : World}

/-- A change that keeps every slot's kind keeps the tree. -/
theorem congr (tree : Tree w) (nextpid : w.table.nextpid ≤ w'.table.nextpid)
    (initproc : w'.table.initproc = w.table.initproc) (exited : w'.exited = w.exited)
    (same : ∀ q, (w.table.procs q).SameKind (w'.table.procs q)) : Tree w' := by
  refine ⟨?_, fun i => ?_, fun i unused => ?_, fun i inUse notInit => ?_, fun i inUse => ?_,
    fun i j parent => ?_, fun i zombie => ?_⟩
  · obtain ⟨i, init, pid, alive, orphan⟩ := tree.init
    obtain ⟨pid', parent', -⟩ := same i
    exact ⟨i, initproc ▸ init, pid'.trans pid, ((same i).alive).mpr alive, parent'.trans orphan⟩
  · exact fun used => tree.noUsed i (((same i).2.2.2.2.2).mp used)
  · obtain ⟨pid', parent', -, unused', -⟩ := same i
    obtain ⟨orphan, zero⟩ := tree.unusedBlank i (unused'.mp unused)
    exact ⟨parent'.trans orphan, pid'.trans zero⟩
  · obtain ⟨-, parent', -, unused', -⟩ := same i
    obtain ⟨j, parent, alive⟩ :=
      tree.parentAlive i (fun h => inUse (unused'.mpr h)) (initproc ▸ notInit)
    exact ⟨j, parent'.trans parent, ((same j).alive).mpr alive⟩
  · obtain ⟨pid', -, -, unused', -⟩ := same i
    obtain ⟨positive, below⟩ := tree.pidBelow i (fun h => inUse (unused'.mpr h))
    rw [pid']
    exact ⟨positive, below.trans_le nextpid⟩
  · have parent' : w.table.ParentOf i j := (same i).2.1.symm.trans parent
    rw [(same i).1, (same j).1]
    exact tree.parentOlder i j parent'
  · obtain ⟨-, -, xstate', -, zombie', -⟩ := same i
    rw [exited, xstate' (zombie'.mp zombie)]
    exact tree.exitedStatus i (zombie'.mp zombie)

/-- A change of one slot that keeps its kind. -/
theorem setProc (tree : Tree w) (i : Fin nProc) {f : Proc → Proc}
    (same : (w.table.procs i).SameKind (f (w.table.procs i))) :
    Tree { w with table := w.table.setProc i f } := by
  refine tree.congr le_rfl rfl rfl fun q => ?_
  by_cases here : q = i
  · subst here
    simpa using same
  · simp only [Table.setProc_of_ne here]
    exact ⟨rfl, rfl, fun _ => rfl, Iff.rfl, Iff.rfl, Iff.rfl⟩

/-- `freeproc` of a ZOMBIE: no process has it for parent. -/
theorem freeZombie (tree : Tree w) {c : Fin nProc} (zombie : (w.table.procs c).state = .zombie) :
    Tree { w with table := w.table.setProc c freeproc } := by
  have notAlive : ¬ (w.table.procs c).Alive := fun alive => alive.2 zombie
  -- no slot has the ZOMBIE for parent, so no parent changes
  have noChild : ∀ q, (w.table.procs q).parent ≠ some c :=
    fun q parent => notAlive (tree.parent_alive parent)
  obtain ⟨i, init, pid, alive, orphan⟩ := tree.init
  have notInit : i ≠ c := by
    rintro rfl
    exact notAlive alive
  refine ⟨⟨i, init, by simpa [notInit] using pid, by simpa [notInit] using alive,
    by simpa [notInit] using orphan⟩, fun q => ?_, fun q unused => ?_, fun q inUse notInit' => ?_,
    fun q inUse => ?_, fun q j parent => ?_, fun q zombie' => ?_⟩
  -- the freed slot itself is blank; every other slot is as before
  all_goals by_cases here : q = c
  · simp [here, freeproc]
  · simpa [here] using tree.noUsed q
  · simp [here, freeproc]
  · simpa [here] using tree.unusedBlank q (by simpa [here] using unused)
  · simp [here, freeproc] at inUse
  · simp only [Table.setProc_of_ne here] at inUse ⊢
    obtain ⟨j, parent, alive⟩ := tree.parentAlive q inUse notInit'
    have other : j ≠ c := by
      rintro rfl
      exact notAlive alive
    exact ⟨j, parent, by simpa [other] using alive⟩
  · simp [here, freeproc] at inUse
  · simp only [Table.setProc_of_ne here] at inUse ⊢
    exact tree.pidBelow q inUse
  · simp [here, freeproc, Table.ParentOf] at parent
  · simp only [Table.ParentOf, Table.setProc_of_ne here] at parent
    have other : j ≠ c := fun same => noChild q (same ▸ parent)
    simpa [here, other] using tree.parentOlder q j parent
  · simp [here, freeproc] at zombie'
  · simp only [Table.setProc_of_ne here] at zombie' ⊢
    exact tree.exitedStatus q zombie'

/-- A `fork` that finds slot `np` UNUSED gives it the next pid and the running
`p` for parent. -/
theorem addChild (tree : Tree w) {np p : Fin nProc} (unused : (w.table.procs np).state = .unused)
    (alive : (w.table.procs p).Alive) :
    Tree { w with table := { w.table with nextpid := w.table.nextpid + 1 }.setProc np fun q =>
      { q with pid := w.table.nextpid, parent := some p, state := .runnable } } := by
  have notAlive : ¬ (w.table.procs np).Alive := fun alive => alive.1 unused
  have other : p ≠ np := by
    rintro rfl
    exact notAlive alive
  -- no slot has the UNUSED one for parent
  have noChild : ∀ q, (w.table.procs q).parent ≠ some np :=
    fun q parent => notAlive (tree.parent_alive parent)
  obtain ⟨i, init, pid, initAlive, orphan⟩ := tree.init
  have notInit : i ≠ np := by
    rintro rfl
    exact notAlive initAlive
  have older := (tree.pidBelow p alive.1).2
  refine ⟨⟨i, init, by simpa [notInit] using pid, by simpa [notInit] using initAlive,
    by simpa [notInit] using orphan⟩, fun q => ?_, fun q unused' => ?_, fun q inUse notInit' => ?_,
    fun q inUse => ?_, fun q j parent => ?_, fun q zombie => ?_⟩
  all_goals by_cases here : q = np
  · simp [here]
  · simpa [here] using tree.noUsed q
  · simp [here] at unused'
  · simpa [here] using tree.unusedBlank q (by simpa [here] using unused')
  · exact ⟨p, by simp [here], by simpa [other] using alive⟩
  · simp only [Table.setProc_of_ne here] at inUse ⊢
    obtain ⟨j, parent, alive⟩ := tree.parentAlive q inUse notInit'
    have other : j ≠ np := fun same => noChild q (same ▸ parent)
    exact ⟨j, parent, by simpa [other] using alive⟩
  · -- the child's pid is `nextpid`, above every pid in use and above init's 1
    have positive := (tree.pidBelow i initAlive.1).2
    simp only [here, Table.setProc_self, Table.setProc_nextpid]
    omega
  · obtain ⟨positive, below⟩ := tree.pidBelow q (by simpa [here] using inUse)
    simp only [Table.setProc_of_ne here, Table.setProc_nextpid]
    omega
  · simp only [Table.ParentOf, here, Table.setProc_self, Option.some.injEq] at parent
    subst parent
    simpa [here, other] using older
  · simp only [Table.ParentOf, Table.setProc_of_ne here] at parent
    have other : j ≠ np := fun same => noChild q (same ▸ parent)
    simpa [here, other] using tree.parentOlder q j parent
  · simp [here] at zombie
  · simpa [here] using tree.exitedStatus q (by simpa [here] using zombie)

/-- What `reparent` and `wakeup` do keeps the tree: a child moved off `p` goes to
`initproc`, whose pid 1 is below every other. -/
theorem reparents (tree : Tree w) {p : Fin nProc} {t' : Table} (alive : (w.table.procs p).Alive)
    (moved : Reparents p w.table t') : Tree { w with table := t' } := by
  obtain ⟨i, init, pid, initAlive, orphan⟩ := tree.init
  have unused_iff := fun q => moved.state_eq_iff q .unused nofun nofun
  refine ⟨⟨i, moved.2.1.trans init, (moved.2.2 i).1.trans pid, moved.alive initAlive, ?_⟩,
    fun q => ?_, fun q unused => ?_, fun q inUse notInit => ?_, fun q inUse => ?_,
    fun q j parent => ?_, fun q zombie => ?_⟩
  · rcases (moved.2.2 i).2.2.1 with same | ⟨child, -⟩
    · exact same.trans orphan
    · rw [orphan] at child
      cases child
  · rw [Ne, moved.state_eq_iff q .used nofun nofun]
    exact tree.noUsed q
  · obtain ⟨orphan', zero⟩ := tree.unusedBlank q ((unused_iff q).mp unused)
    refine ⟨?_, (moved.2.2 q).1.trans zero⟩
    rcases (moved.2.2 q).2.2.1 with same | ⟨child, -⟩
    · exact same.trans orphan'
    · rw [orphan'] at child
      cases child
  · rw [Ne, unused_iff] at inUse
    obtain ⟨j, parent, alive'⟩ := tree.parentAlive q inUse (moved.2.1 ▸ notInit)
    rcases (moved.2.2 q).2.2.1 with same | ⟨-, toInit⟩
    · exact ⟨j, same.trans parent, moved.alive alive'⟩
    · exact ⟨i, toInit.trans init, moved.alive initAlive⟩
  · rw [Ne, unused_iff] at inUse
    rw [(moved.2.2 q).1, moved.1]
    exact tree.pidBelow q inUse
  · rw [(moved.2.2 q).1, (moved.2.2 j).1]
    rcases (moved.2.2 q).2.2.1 with same | ⟨child, toInit⟩
    · exact tree.parentOlder q j (same.symm.trans parent)
    · -- the child was `p`'s, so its pid is above `p`'s, which is at least init's 1
      have toI : j = i := by
        rw [Table.ParentOf, toInit, init, Option.some.injEq] at parent
        exact parent.symm
      subst toI
      have aboveP := tree.parentOlder q p child
      have positive := (tree.pidBelow p alive.1).1
      omega
  · rw [moved.state_eq_iff q .zombie nofun nofun] at zombie
    rw [(moved.2.2 q).2.1]
    exact tree.exitedStatus q zombie

/-- `exit` by `p`, once no process is its child: `p` is a ZOMBIE holding
`status`, under a parent that has not exited. -/
theorem exits (tree : Tree w) {p : Fin nProc} (alive : (w.table.procs p).Alive)
    (notInit : w.table.initproc ≠ some p) (noChild : ∀ q, (w.table.procs q).parent ≠ some p)
    (status : Int) :
    Tree ⟨w.table.setProc p fun q => { q with xstate := status, state := .zombie },
      Function.update w.exited p (some status)⟩ := by
  obtain ⟨i, init, pid, initAlive, orphan⟩ := tree.init
  have other : i ≠ p := by
    rintro rfl
    exact notInit init
  refine ⟨⟨i, init, by simpa [other] using pid, by simpa [other] using initAlive,
    by simpa [other] using orphan⟩, fun q => ?_, fun q unused => ?_, fun q inUse notInit' => ?_,
    fun q inUse => ?_, fun q j parent => ?_, fun q zombie => ?_⟩
  all_goals by_cases here : q = p
  · simp [here]
  · simpa [here] using tree.noUsed q
  · simp [here] at unused
  · simpa [here] using tree.unusedBlank q (by simpa [here] using unused)
  · subst here
    obtain ⟨j, parent, alive'⟩ := tree.parentAlive q alive.1 notInit'
    have other : j ≠ q := fun same => noChild q (same ▸ parent)
    exact ⟨j, by simpa using parent, by simpa [other] using alive'⟩
  · simp only [Table.setProc_of_ne here] at inUse ⊢
    obtain ⟨j, parent, alive'⟩ := tree.parentAlive q inUse notInit'
    have other : j ≠ p := fun same => noChild q (same ▸ parent)
    exact ⟨j, parent, by simpa [other] using alive'⟩
  · simpa [here] using tree.pidBelow p alive.1
  · simpa [here] using tree.pidBelow q (by simpa [here] using inUse)
  · subst here
    simp only [Table.ParentOf, Table.setProc_self] at parent
    have other : j ≠ q := fun same => noChild q (same ▸ parent)
    simpa [other] using tree.parentOlder q j parent
  · simp only [Table.ParentOf, Table.setProc_of_ne here] at parent
    have other : j ≠ p := fun same => noChild q (same ▸ parent)
    simpa [here, other] using tree.parentOlder q j parent
  · simp [here]
  · simpa [here] using tree.exitedStatus q (by simpa [here] using zombie)

/-- `fork` whose allocations fail hands its UNUSED slot back cleared, the pid used up. -/
theorem freeUnused (tree : Tree w) {np : Fin nProc} (unused : (w.table.procs np).state = .unused) :
    Tree { w with table := { w.table with nextpid := w.table.nextpid + 1 }.setProc np freeproc } := by
  refine tree.congr (by simp) rfl rfl fun q => ?_
  by_cases here : q = np
  · subst here
    obtain ⟨orphan, zero⟩ := tree.unusedBlank q unused
    simp [Proc.SameKind, freeproc, unused, orphan, zero]
  · simp only [Table.setProc_of_ne here]
    exact ⟨rfl, rfl, fun _ => rfl, Iff.rfl, Iff.rfl, Iff.rfl⟩

/-- **Step lemma.** Every event keeps the tree. -/
theorem of_step {e : Event} (tree : Tree w) (stepped : Process.step w e = some w') : Tree w' := by
  cases e with
  | schedule p =>
    simp only [Process.step] at stepped
    split at stepped
    · rename_i runnable
      cases stepped
      exact tree.setProc p (by simp [Proc.SameKind, runnable])
    · cases stepped
  | yield p =>
    simp only [Process.step] at stepped
    split at stepped
    · rename_i running
      cases stepped
      exact tree.setProc p (by simp [Proc.SameKind, running])
    · cases stepped
  | call p c =>
    simp only [Process.step] at stepped
    split at stepped
    · cases stepped
    rename_i running
    have running : (w.table.procs p).state = .running := not_ne_iff.mp running
    have alive : (w.table.procs p).Alive := by simp [Proc.Alive, running]
    cases c with
    | fork alloc copied =>
      cases stepped
      rcases fork_cases w.table p alloc copied with same | ⟨np, unused, failed | forked⟩
      · rw [same]
        exact tree
      · rw [failed]
        exact tree.freeUnused unused
      · rw [forked]
        exact tree.addChild unused alive
    | exit status =>
      cases exited : exit w.table p status with
      | error _ => simp [exited] at stepped
      | ok t =>
        simp only [exited, Option.some.injEq] at stepped
        subst stepped
        obtain ⟨notInit, rfl⟩ := exit_ok exited
        -- `reparent` then the wakeup of the parent; then `p` becomes a ZOMBIE
        obtain ⟨reparented, noChild⟩ := reparent_spec w.table notInit
        generalize reparent w.table p = t1 at reparented noChild ⊢
        have moved := reparented.trans (wakeupOpt_reparents p t1 p (t1.procs p).parent)
        have noChild' : ∀ q, ((wakeupOpt t1 p (t1.procs p).parent).procs q).parent ≠ some p := by
          intro q
          rw [wakeupOpt_parent]
          exact noChild q
        generalize wakeupOpt t1 p (t1.procs p).parent = t2 at moved noChild' ⊢
        exact (tree.reparents alive moved).exits (moved.alive alive) (moved.2.1 ▸ notInit) noChild' status
    | wait addr copyOk =>
      cases stepped
      rcases wait_cases w.table p addr copyOk with
        ⟨c, -, zombie, ⟨-, -, kept⟩ | ⟨-, reaped⟩⟩ | ⟨-, ⟨-, kept⟩ | ⟨-, -, sleeps⟩⟩
      · rw [kept]
        exact tree
      · simp only [reaped]
        exact tree.freeZombie zombie
      · rw [kept]
        exact tree
      · simp only [sleeps]
        exact tree.setProc p (by simp [Proc.SameKind, running])
    | kill pid =>
      cases stepped
      rcases kill_cases w.table pid with same | ⟨i, marked⟩
      · rw [same]
        exact tree
      · rw [marked]
        refine tree.setProc i ?_
        split <;> simp_all [Proc.SameKind]

/-- `userinit`'s table: slot 0 is `initproc`, RUNNABLE with pid 1; every other slot
is zero. -/
theorem of_boot : Tree ⟨boot, fun _ => none⟩ := by
  refine ⟨⟨0, boot_initproc, by simp [boot_procs], by simp [boot_procs, Proc.Alive],
    by simp [boot_procs]⟩, fun i => ?_, fun i unused => ?_, fun i inUse notInit => ?_,
    fun i inUse => ?_, fun i j parent => ?_, fun i zombie => ?_⟩
  all_goals by_cases zero : i = 0
  all_goals simp_all [boot_procs, boot_initproc, boot_nextpid, Proc.zero, Table.ParentOf]

end Tree

/-- **Run lemma.** Every reachable state has the tree. -/
theorem Reachable.tree {w : World} (reachable : Reachable w) : Tree w :=
  Machine.Reachable.invariant Tree.of_boot (fun _ _ _ tree stepped => tree.of_step stepped) reachable

/-! ### The process tree -/

/-- `exit` by a running process other than `initproc` succeeds: `p` is a ZOMBIE with
`status`, no process is its child, and its parent has not exited. -/
theorem exit_zombie {w : World} (reachable : Reachable w) {p : Fin nProc} (status : Int)
    (running : (w.table.procs p).state = .running) (notInit : w.table.initproc ≠ some p) :
    ∃ w', step w (.call p (.exit status)) = some w' ∧ (w'.table.procs p).state = .zombie ∧
      w'.exited p = some status ∧ (∀ q, ¬ w'.table.ParentOf q p) ∧
      ∃ j, w'.table.ParentOf p j ∧ (w'.table.procs j).Alive := by
  have stepped : step w (.call p (.exit status)) = some
      ⟨(wakeupOpt (reparent w.table p) p ((reparent w.table p).procs p).parent).setProc p
        fun q => { q with xstate := status, state := .zombie },
        Function.update w.exited p (some status)⟩ := by
    simp only [step, running, exit, notInit, ne_eq, not_true_eq_false, if_false]
    rfl
  -- the state after the call is reachable, so it has the tree
  have tree := Reachable.tree (Relation.ReflTransGen.tail reachable ⟨_, stepped⟩)
  obtain ⟨reparented, noChild⟩ := reparent_spec w.table notInit
  generalize reparent w.table p = t1 at stepped tree reparented noChild
  have sameInit := (reparented.trans (wakeupOpt_reparents p t1 p (t1.procs p).parent)).2.1
  refine ⟨_, stepped, by simp, by simp, fun q => ?_, ?_⟩
  · by_cases here : q = p
    · subst here
      exact fun parent => tree.acyclic q (.single parent)
    · simp only [Table.ParentOf, Table.setProc_of_ne here, wakeupOpt_parent]
      exact noChild q
  · exact tree.parentAlive p (by simp) (by simpa [sameInit] using notInit)

/-- What `wait` returns, in a state with the tree: a pid is a ZOMBIE child's,
with the status it passed to `exit`, and that slot alone is freed; -1 changes
nothing and comes of no children, a kill, or a failed copy. -/
theorem Tree.wait_returns {w : World} (tree : Tree w) {p : Fin nProc} {addr : Nat} {copyOk : Bool}
    {ret : Int} {copied : Option Int} {t' : Table}
    (waited : wait w.table p addr copyOk = (.returns ret copied, t')) :
    (ret ≠ -1 → ∃ c, w.table.ParentOf c p ∧ (w.table.procs c).state = .zombie ∧
        ret = (w.table.procs c).pid ∧ copied = (if addr ≠ 0 then w.exited c else none) ∧
        t' = w.table.setProc c freeproc) ∧
      (ret = -1 → copied = none ∧ t' = w.table ∧
        ((∀ c, ¬ w.table.ParentOf c p) ∨ (w.table.procs p).killed = true ∨
          addr ≠ 0 ∧ copyOk = false ∧ ∃ c, w.table.ParentOf c p ∧ (w.table.procs c).state = .zombie)) := by
  rcases wait_cases w.table p addr copyOk with
    ⟨c, parent, zombie, ⟨nonzero, fails, kept⟩ | ⟨-, reaped⟩⟩ | ⟨-, ⟨stops, kept⟩ | ⟨-, -, sleeps⟩⟩
  · rw [kept, Prod.mk.injEq, WaitResult.returns.injEq] at waited
    obtain ⟨⟨rfl, rfl⟩, rfl⟩ := waited
    exact ⟨fun ne => absurd rfl ne, fun _ => ⟨rfl, rfl, .inr (.inr ⟨nonzero, fails, c, parent, zombie⟩)⟩⟩
  · rw [reaped, Prod.mk.injEq, WaitResult.returns.injEq] at waited
    obtain ⟨⟨rfl, rfl⟩, rfl⟩ := waited
    -- a reaped pid is positive, so never -1
    have positive := (tree.pidBelow c (by simp [zombie])).1
    refine ⟨fun _ => ⟨c, parent, zombie, rfl, ?_, rfl⟩, fun minus => by omega⟩
    rw [tree.exitedStatus c zombie]
  · rw [kept, Prod.mk.injEq, WaitResult.returns.injEq] at waited
    obtain ⟨⟨rfl, rfl⟩, rfl⟩ := waited
    exact ⟨fun ne => absurd rfl ne, fun _ => ⟨rfl, rfl, stops.imp_right .inl⟩⟩
  · rw [sleeps, Prod.mk.injEq] at waited
    cases waited.1

/-- The process tree: in every state some interleaving of `fork`, `exit`, `wait`,
`kill` and scheduling reaches, (a) each process in use but `initproc` has a parent
that has not exited, (b) the parent relation has no cycle, (c) `wait` returns a
pid only for a ZOMBIE child, with the status that child passed to `exit`, freeing
that slot alone, and -1 only without children, when killed, or when its copy
fails (the ZOMBIE then stays), and (d) `exit` by `initproc` panics, and by any
other running process leaves a ZOMBIE with no children under a parent that has
not exited. -/
theorem process_tree {w : World} (reachable : Reachable w) :
    (∀ i, (w.table.procs i).state ≠ .unused → w.table.initproc ≠ some i →
      ∃ j, w.table.ParentOf i j ∧ (w.table.procs j).Alive) ∧
    (∀ i, ¬ Relation.TransGen w.table.ParentOf i i) ∧
    (∀ p addr copyOk ret copied t', wait w.table p addr copyOk = (.returns ret copied, t') →
      (ret ≠ -1 → ∃ c, w.table.ParentOf c p ∧ (w.table.procs c).state = .zombie ∧
          ret = (w.table.procs c).pid ∧ copied = (if addr ≠ 0 then w.exited c else none) ∧
          t' = w.table.setProc c freeproc) ∧
        (ret = -1 → copied = none ∧ t' = w.table ∧
          ((∀ c, ¬ w.table.ParentOf c p) ∨ (w.table.procs p).killed = true ∨
            addr ≠ 0 ∧ copyOk = false ∧ ∃ c, w.table.ParentOf c p ∧ (w.table.procs c).state = .zombie))) ∧
    (∀ p status, (w.table.procs p).state = .running →
      (w.table.initproc = some p → step w (.call p (.exit status)) = none) ∧
      (w.table.initproc ≠ some p → ∃ w', step w (.call p (.exit status)) = some w' ∧
        (w'.table.procs p).state = .zombie ∧ w'.exited p = some status ∧
        (∀ q, ¬ w'.table.ParentOf q p) ∧ ∃ j, w'.table.ParentOf p j ∧ (w'.table.procs j).Alive)) := by
  have tree := reachable.tree
  refine ⟨tree.parentAlive, tree.acyclic, fun p addr copyOk ret copied t' waited => ?_,
    fun p status running => ⟨fun init => ?_, exit_zombie reachable status running⟩⟩
  · exact tree.wait_returns waited
  · -- `exit` panics with "init exiting" before it changes anything
    simp only [step, running, exit, init, ne_eq, not_true_eq_false, if_false, if_true]
    rfl

/-- The tree after `initproc` runs and forks a child. -/
theorem process_tree_after_fork :
    let w := (Machine.run step ⟨boot, fun _ => none⟩ [.schedule 0, .call 0 (.fork true true)]).getD
      ⟨boot, fun _ => none⟩
    Reachable w ∧
    (∀ i, (w.table.procs i).state ≠ .unused → w.table.initproc ≠ some i →
      ∃ j, w.table.ParentOf i j ∧ (w.table.procs j).Alive) ∧
    (∀ i, ¬ Relation.TransGen w.table.ParentOf i i) ∧
    (∀ p addr copyOk ret copied t', wait w.table p addr copyOk = (.returns ret copied, t') →
      (ret ≠ -1 → ∃ c, w.table.ParentOf c p ∧ (w.table.procs c).state = .zombie ∧
          ret = (w.table.procs c).pid ∧ copied = (if addr ≠ 0 then w.exited c else none) ∧
          t' = w.table.setProc c freeproc) ∧
        (ret = -1 → copied = none ∧ t' = w.table ∧
          ((∀ c, ¬ w.table.ParentOf c p) ∨ (w.table.procs p).killed = true ∨
            addr ≠ 0 ∧ copyOk = false ∧ ∃ c, w.table.ParentOf c p ∧ (w.table.procs c).state = .zombie))) ∧
    (∀ p status, (w.table.procs p).state = .running →
      (w.table.initproc = some p → step w (.call p (.exit status)) = none) ∧
      (w.table.initproc ≠ some p → ∃ w', step w (.call p (.exit status)) = some w' ∧
        (w'.table.procs p).state = .zombie ∧ w'.exited p = some status ∧
        (∀ q, ¬ w'.table.ParentOf q p) ∧ ∃ j, w'.table.ParentOf p j ∧ (w'.table.procs j).Alive)) := by
  intro w
  have ran : Machine.run step ⟨boot, fun _ => none⟩ [.schedule 0, .call 0 (.fork true true)] =
      some w := rfl
  have reachable : Reachable w := Machine.reachable_of_run Relation.ReflTransGen.refl ran
  exact ⟨reachable, process_tree reachable⟩

end Xv6.Process
