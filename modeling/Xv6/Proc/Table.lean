import Xv6.Param
import Xv6.Lib.Machine

/-!
Contract: the process table of `kernel/proc.c` as `fork`, `exit`, `wait` and
`kill` use it: each slot's state, sleep channel, kill flag, exit status, pid and
parent, with `nextpid` and `initproc`; and the system the processes make by being
scheduled, yielding and making those calls.

A call runs from its start to its return, or in `wait` to its sleep, as one
step: the locks it holds keep every other call out of the slots it reads. The
memory a process owns is not modelled: `fork` is told whether its allocations
(`allocproc`'s trapframe and page table, `uvmcopy`'s pages) succeed, and `wait`
whether its `copyout` of the status does. `wait` sleeps on its own slot
(`sleep(p, &wait_lock)`), the one sleep of this model; a process woken from it
runs again and may call `wait` again. Besides the table, a run records the status
each process passed to `exit` (`World.exited`): what the calls showed, which
nothing in the kernel reads.

Owns: `ProcState`, `Proc`, `Table`, `allocpid`, `allocproc`, `freeproc`,
`userinit`, `fork`, `wakeup`, `reparentAt`, `reparent`, `exit`, `wait`, `kill`, `Call`,
`Event`, `World`, `step`, `Reachable`.

Does not own: what these calls do to files and memory (`Xv6.Fs.Syscall` models
`fork` and `exit` on open files and current directories).
-/

namespace Xv6.Process

/-- `enum procstate`. -/
inductive ProcState where
  | unused
  | used
  | sleeping
  | runnable
  | running
  | zombie
  deriving DecidableEq, Repr

/-- The fields of `struct proc` these calls read and write; `chan` is the slot a
process sleeps on in `wait`, `none` for a null channel. -/
structure Proc where
  state : ProcState
  chan : Option (Fin nProc)
  killed : Bool
  xstate : Int
  pid : Int
  parent : Option (Fin nProc)
  deriving DecidableEq, Repr

/-- A slot of the zeroed `proc[]`, as `procinit` leaves it (`UNUSED` is 0). -/
def Proc.zero : Proc :=
  ⟨.unused, none, false, 0, 0, none⟩

/-- `proc[]`, `nextpid` and `initproc`. -/
structure Table where
  procs : Fin nProc → Proc
  nextpid : Int
  initproc : Option (Fin nProc)

/-- Change slot `i`. -/
def Table.setProc (t : Table) (i : Fin nProc) (f : Proc → Proc) : Table :=
  { t with procs := Function.update t.procs i (f (t.procs i)) }

/-- The table at boot: every slot zero, `nextpid = 1`, no `initproc` yet. -/
def Table.empty : Table :=
  ⟨fun _ => Proc.zero, 1, none⟩

/-! ### Allocating and freeing slots -/

/-- `allocpid`. -/
def allocpid (t : Table) : Int × Table :=
  (t.nextpid, { t with nextpid := t.nextpid + 1 })

/-- `freeproc`: the fields it clears (the memory it frees is not modelled). -/
def freeproc (p : Proc) : Proc :=
  { p with pid := 0, parent := none, chan := none, killed := false, xstate := 0, state := .unused }

/-- `allocproc`: the first UNUSED slot, given the next pid and made USED. When its
allocations fail (`alloc = false`), `freeproc` gives the slot back and the call
returns none; the pid stays used up. -/
def allocproc (t : Table) (alloc : Bool) : Option (Fin nProc) × Table :=
  match (List.finRange nProc).find? fun i => (t.procs i).state = .unused with
  | none => (none, t)
  | some i =>
    let (pid, t) := allocpid t
    let t := t.setProc i fun p => { p with pid, state := .used }
    if alloc then (some i, t) else (none, t.setProc i freeproc)

/-- `userinit`: the first process, RUNNABLE, and `initproc`. -/
def userinit (t : Table) : Option Table :=
  match allocproc t true with
  | (some i, t) => some { t.setProc i (fun p => { p with state := .runnable }) with initproc := some i }
  | (none, _) => none

/-- `fork` by process `p`: the child's pid, or -1. `copied` is whether
`uvmcopy` succeeds. -/
def fork (t : Table) (p : Fin nProc) (alloc copied : Bool) : Int × Table :=
  match allocproc t alloc with
  | (none, t) => (-1, t)
  | (some np, t) =>
    if !copied then (-1, t.setProc np freeproc)
    else
      let pid := (t.procs np).pid
      let t := t.setProc np fun q => { q with parent := some p }
      (pid, t.setProc np fun q => { q with state := .runnable })

/-! ### Exiting and waiting -/

/-- `wakeup(chan)` called by `self`: every other process sleeping on `chan`
becomes RUNNABLE. -/
def wakeup (t : Table) (self chan : Fin nProc) : Table :=
  { t with procs := fun q =>
      if q ≠ self ∧ (t.procs q).state = .sleeping ∧ (t.procs q).chan = some chan then
        { t.procs q with state := .runnable }
      else t.procs q }

/-- `wakeup(chan)` for a channel that may be null: no process sleeps on 0. -/
def wakeupOpt (t : Table) (self : Fin nProc) : Option (Fin nProc) → Table
  | some chan => wakeup t self chan
  | none => t

/-- One round of `reparent(p)`'s loop, at slot `pp`: a child of `p` gets
`initproc` for parent, and `initproc` is woken. -/
def reparentAt (p : Fin nProc) (t : Table) (pp : Fin nProc) : Table :=
  if (t.procs pp).parent = some p then
    wakeupOpt (t.setProc pp fun q => { q with parent := t.initproc }) p t.initproc
  else t

/-- `reparent(p)`, run by `p`: its loop over every slot in order. -/
def reparent (t : Table) (p : Fin nProc) : Table :=
  (List.finRange nProc).foldl (reparentAt p) t

/-- `exit(status)` by `p`: its children go to `initproc`, its parent is woken,
and `p` is a ZOMBIE holding `status`. Closing files is `Xv6.Fs.exit`. -/
def exit (t : Table) (p : Fin nProc) (status : Int) : Except String Table := do
  if t.initproc = some p then throw "init exiting"
  let t := reparent t p
  let t := wakeupOpt t p (t.procs p).parent
  pure (t.setProc p fun q => { q with xstate := status, state := .zombie })

/-- What a call of `wait` does: it returns `ret`, with the status it copied out
if it copied one, or it sleeps. -/
inductive WaitResult where
  | returns (ret : Int) (copied : Option Int)
  | sleeps
  deriving DecidableEq, Repr

/-- `wait(addr)` by `p`: the first ZOMBIE child in slot order is freed and its pid
returned, its status copied out to `addr` unless `addr` is 0; -1 when the copy
fails (the zombie stays), when `p` has no children or when `p` is killed;
otherwise `p` sleeps on itself. -/
def wait (t : Table) (p : Fin nProc) (addr : Nat) (copyOk : Bool) : WaitResult × Table :=
  let kids := (List.finRange nProc).filter fun pp => (t.procs pp).parent = some p
  match kids.find? fun pp => (t.procs pp).state = .zombie with
  | some pp =>
    if addr ≠ 0 ∧ copyOk = false then (.returns (-1) none, t)
    else
      (.returns (t.procs pp).pid (if addr ≠ 0 then some (t.procs pp).xstate else none),
        t.setProc pp freeproc)
  | none =>
    if kids = [] ∨ (t.procs p).killed = true then (.returns (-1) none, t)
    else (.sleeps, t.setProc p fun q => { q with chan := some p, state := .sleeping })

/-- `kill(pid)`: the first slot in slot order whose pid is `pid`, whatever its
state, is marked killed and woken if it sleeps; -1 when there is none. -/
def kill (t : Table) (pid : Int) : Int × Table :=
  match (List.finRange nProc).find? fun i => (t.procs i).pid = pid with
  | none => (-1, t)
  | some i =>
    (0, t.setProc i fun q =>
      { q with killed := true, state := if q.state = .sleeping then .runnable else q.state })

/-! ### The system -/

/-- A call a running process makes, with its arguments and what the memory it
touches lets it do. -/
inductive Call where
  | fork (alloc copied : Bool)
  | exit (status : Int)
  | wait (addr : Nat) (copyOk : Bool)
  | kill (pid : Int)
  deriving DecidableEq, Repr

/-- The scheduler runs a RUNNABLE process, a running one yields, or a running one
makes a call. -/
inductive Event where
  | schedule (p : Fin nProc)
  | yield (p : Fin nProc)
  | call (p : Fin nProc) (c : Call)
  deriving DecidableEq, Repr

/-- The table, and the status each process passed to `exit` (`none` for a slot
whose process never exited). -/
structure World where
  table : Table
  exited : Fin nProc → Option Int

/-- One event, if it can happen: `scheduler` runs only a RUNNABLE process (its
sleep, if it slept, then clears `chan`), and only a RUNNING process yields or
makes a call; a call that panics stops the system. -/
def step (w : World) : Event → Option World
  | .schedule p =>
    if (w.table.procs p).state = .runnable then
      some { w with table := w.table.setProc p fun q => { q with state := .running, chan := none } }
    else none
  | .yield p =>
    if (w.table.procs p).state = .running then
      some { w with table := w.table.setProc p fun q => { q with state := .runnable } }
    else none
  | .call p c =>
    if (w.table.procs p).state ≠ .running then none
    else match c with
      | .fork alloc copied => some { w with table := (fork w.table p alloc copied).2 }
      | .exit status =>
        match exit w.table p status with
        | .ok t => some ⟨t, Function.update w.exited p (some status)⟩
        | .error _ => none
      | .wait addr copyOk => some { w with table := (wait w.table p addr copyOk).2 }
      | .kill pid => some { w with table := (kill w.table pid).2 }

/-- The table after `userinit` (which finds slot 0 on the empty table). -/
def boot : Table :=
  (userinit Table.empty).getD Table.empty

/-- The states some interleaving of events reaches from boot. -/
def Reachable (w : World) : Prop :=
  Machine.Reachable step ⟨boot, fun _ => none⟩ w

/-! ### A slot killed while unused -/

/-- `allocproc` takes an UNUSED slot and leaves its kill flag as it found it:
nothing between `freeproc` and the next `allocproc` of the slot resets it. -/
theorem allocproc_keeps_killed {t t' : Table} {alloc : Bool} {i : Fin nProc}
    (found : allocproc t alloc = (some i, t')) :
    (t.procs i).state = .unused ∧ (t'.procs i).state = .used ∧
      (t'.procs i).killed = (t.procs i).killed := by
  unfold allocproc at found
  split at found
  · cases found
  · rename_i j first
    have unused : (t.procs j).state = .unused := by simpa using List.find?_some first
    cases alloc with
    | false => cases found
    | true =>
      simp only [allocpid, if_true, Prod.mk.injEq, Option.some.injEq] at found
      obtain ⟨rfl, rfl⟩ := found
      simp [Table.setProc, unused]

/-- `kill(pid)` marks the first slot holding `pid`, whatever its state. -/
theorem kill_marks_first {t : Table} {pid : Int} {i : Fin nProc}
    (first : (List.finRange nProc).find? (fun j => (t.procs j).pid = pid) = some i) :
    kill t pid = (0, t.setProc i fun q =>
      { q with killed := true, state := if q.state = .sleeping then .runnable else q.state }) := by
  simp [kill, first]

/-- The test the run below passes: slot 1 is UNUSED and killed, and a `fork` by
process 0 makes it a RUNNABLE child of 0 that is killed. -/
def bornKilled (w : World) : Bool :=
  decide ((w.table.procs 1).state = .unused) && (w.table.procs 1).killed &&
    (step w (.call 0 (.fork true true))).any fun w' =>
      decide ((w'.table.procs 1).state = .runnable) && (w'.table.procs 1).killed &&
        decide ((w'.table.procs 1).parent = some 0)

/-- The first process runs and calls `kill(0)`: slot 1, never used, has pid 0 and
is marked killed; its next `fork` hands that slot, still killed, to its child. -/
theorem child_born_killed :
    ∃ w, Reachable w ∧ ∃ i, (w.table.procs i).state = .unused ∧ (w.table.procs i).killed = true ∧
      ∃ w', step w (.call 0 (.fork true true)) = some w' ∧
        (w'.table.procs i).state = .runnable ∧ (w'.table.procs i).parent = some 0 ∧
          (w'.table.procs i).killed = true := by
  have passes : (Machine.run step ⟨boot, fun _ => none⟩ [.schedule 0, .call 0 (.kill 0)]).any
      bornKilled = true := by
    decide
  obtain ⟨w, reachable, holds⟩ := Machine.exists_reachable_of_run_any passes
  simp only [bornKilled, Bool.and_eq_true, decide_eq_true_eq, Option.any_eq_true] at holds
  obtain ⟨⟨unused, killed⟩, w', stepped, ⟨runnable, killed'⟩, parent⟩ := holds
  exact ⟨w, reachable, 1, unused, killed, w', stepped, runnable, parent, killed'⟩

end Xv6.Process
