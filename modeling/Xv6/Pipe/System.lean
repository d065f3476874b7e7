import Xv6.Pipe.Records
import Xv6.User.ShRun

/-!
Contract: the calls a user program makes through its descriptors on pipes and the
console (`sys_close`, `sys_dup`, `sys_pipe`, `sys_read`, `sys_write` of
`kernel/sysfile.c`, with `fileclose`, `fileread` and `filewrite` of
`kernel/file.c`), and `fork`, `exit` and `wait` of `kernel/proc.c` as they act on
descriptors and children: the system a program such as `user/primes.c` runs in.

A process has `ofile[]` (`Sh.Fds`), a parent and a life; a pipe is a `Records`, its
ring with its history, named by the order it was made; the console is the bytes
written to it. The descriptors that `dup` and `fork` copy share one `struct file`,
and `fileclose` calls `pipeclose` when the last of them is closed: here an end is
released when no descriptor of any process refers to it. A call is one step: it
holds the locks it takes from its start to its return or to a sleep. A `write`
that sleeps on a full pipe runs on as `resume`.

Not modelled: the size of the process table, `kalloc` and `filealloc` running out
(the program's own events say where a call fails for it), `kill`, console input (a
`read` of the console sleeps), and files of the file system. One write call at a
time is in progress on a pipe, as in the programs modelled.

`Refs` is what every call keeps: a pipe's end is open exactly while a descriptor
refers to it.

Owns: `Life`, `Proc`, `System`, `newPipe`, `closedPipe`, `System.Held`,
`System.release`, `System.close`, `System.dup`, `System.pipe`, `System.read`,
`System.write`, `System.resume`, `System.fork`, `System.exitStep`, `System.wait`,
`System.step`, `Refs`.
-/

namespace Xv6.Pipes

open Xv6.Sh (Chan Fds)

/-- A process's state: running its program, in `exit`'s loop over its descriptors
at `fd`, a ZOMBIE, or freed by its parent's `wait`. -/
inductive Life where
  | running
  | exiting (status : Int) (fd : Nat)
  | zombie (status : Int)
  | freed
  deriving DecidableEq, Repr

/-- `pp->state == ZOMBIE`. -/
def Life.isZombie : Life → Bool
  | .zombie _ => true
  | _ => false

/-- A process: where its program is, its life, its parent (`none` for a process
outside the system, such as `init`) and `ofile[]`. -/
structure Proc (σ : Type) where
  pc : σ
  life : Life
  parent : Option Nat
  fds : Fds

/-- What descriptor `fd` refers to, as `argfd` finds it. -/
def Proc.fd {σ : Type} (p : Proc σ) (fd : Nat) : Option Chan :=
  if h : fd < nOFile then p.fds ⟨fd, h⟩ else none

/-- Processes `0, …, count - 1`, the pipes they made, and what reached the
console. -/
structure System (σ : Type) where
  procs : Nat → Proc σ
  count : Nat
  pipes : Nat → Records
  npipes : Nat
  console : List UInt8

/-- `pipealloc`'s pipe on a page from `kalloc`, which fills it with 5s. -/
def newPipe : Records :=
  ⟨pipealloc fun _ => 5, none, [], [], []⟩

/-- A pipe not made yet: as if made and closed at both ends. -/
def closedPipe : Records :=
  ⟨pipeclose (pipeclose (pipealloc fun _ => 5) true) false, none, [], [], []⟩

namespace System

variable {σ : Type}

def setProc (s : System σ) (k : Nat) (f : Proc σ → Proc σ) : System σ :=
  { s with procs := Function.update s.procs k (f (s.procs k)) }

def setPipe (s : System σ) (n : Nat) (f : Records → Records) : System σ :=
  { s with pipes := Function.update s.pipes n (f (s.pipes n)) }

def setPc (s : System σ) (k : Nat) (pc : σ) : System σ :=
  s.setProc k fun p => { p with pc }

/-- Some descriptor of a process refers to `c`. -/
def Held (s : System σ) (c : Chan) : Prop :=
  ∃ k < s.count, ∃ fd, (s.procs k).fds fd = some c

instance (s : System σ) (c : Chan) : Decidable (s.Held c) :=
  inferInstanceAs (Decidable (∃ k < s.count, ∃ fd, (s.procs k).fds fd = some c))

/-- `pipeclose` of the end `c` names, when no descriptor refers to it any more. -/
def release (s : System σ) : Chan → System σ
  | .pipeRead n => s.setPipe n fun r => { r with pipe := pipeclose r.pipe false }
  | .pipeWrite n => s.setPipe n fun r => { r with pipe := pipeclose r.pipe true }
  | _ => s

/-- `close(fd)` by process `k`. -/
def close (s : System σ) (k fd : Nat) : System σ :=
  match (s.procs k).fd fd with
  | none => s
  | some c =>
    let s := s.setProc k fun p => { p with fds := Sh.close p.fds fd }
    if s.Held c then s else s.release c

/-- `dup(fd)` by process `k`. -/
def dup (s : System σ) (k fd : Nat) : System σ :=
  s.setProc k fun p => { p with fds := Sh.dup p.fds fd }

/-- `pipe(p)` by process `k`: the system and `p[0]`, `p[1]`, or `none` where no two
descriptors are free. -/
def pipe (s : System σ) (k : Nat) : Option (System σ × Nat × Nat) :=
  match Sh.pipe (s.procs k).fds s.npipes with
  | none => none
  | some (fds, r, w) =>
    some ({ s.setProc k (fun p => { p with fds }) with
            pipes := Function.update s.pipes s.npipes newPipe, npipes := s.npipes + 1 }, r, w)

/-- `read(fd, buf, n)` by process `k`: what it returns, the bytes it read, and the
system; `none` while it sleeps. -/
def read (s : System σ) (k fd n : Nat) : Option (Int × List UInt8 × System σ) :=
  match (s.procs k).fd fd with
  | some (.pipeRead m) =>
    match piperead (s.pipes m).pipe false (List.replicate n true) with
    | (.sleeps _, _, _) => none
    | (.returns ret, pi, bytes) =>
      some (ret, bytes, s.setPipe m fun r => { r with pipe := pi, taken := r.taken ++ bytes })
  -- the console: no input is typed
  | some (.inherited _) => none
  | _ => some (-1, [], s)

/-- `write(fd, buf)` by process `k`: how the call's first stretch ends and the
system; `none` while another write call is in progress on the pipe. -/
def write (s : System σ) (k fd : Nat) (bytes : List UInt8) : Option (Stop × System σ) :=
  match (s.procs k).fd fd with
  | some (.pipeWrite m) =>
    if (s.pipes m).writer = none then
      let r := { s.pipes m with calls := (s.pipes m).calls ++ [bytes] }
      some ((pipewrite (fun _ => false) r.pipe 0 (bytes.map some)).1,
        s.setPipe m fun _ => r.writerStretch bytes 0)
    else none
  | some (.inherited _) => some (.returns bytes.length, { s with console := s.console ++ bytes })
  | _ => some (.returns (-1), s)

/-- A `write` by process `k` asleep on a full pipe, woken: it runs on from the byte
where it slept; `none` while the pipe is still full. -/
def resume (s : System σ) (k fd : Nat) : Option (Stop × System σ) :=
  match (s.procs k).fd fd with
  | some (.pipeWrite m) =>
    match (s.pipes m).writer with
    | some (record, i) =>
      let stop := (pipewrite (fun _ => false) (s.pipes m).pipe i ((record.drop i).map some)).1
      if stop = .sleeps i then none
      else some (stop, s.setPipe m fun r => r.writerStretch record i)
    | none => none
  | _ => none

/-- `fork()` by process `k`, when it succeeds: the child gets the next index, a copy
of `ofile[]`, and starts at `child`. -/
def fork (s : System σ) (k : Nat) (child : σ) : System σ :=
  { s with procs := Function.update s.procs s.count ⟨child, .running, some k, (s.procs k).fds⟩,
           count := s.count + 1 }

/-- `exit(status)` by process `k`: its loop over its descriptors starts. -/
def exit (s : System σ) (k : Nat) (status : Int) : System σ :=
  s.setProc k fun p => { p with life := .exiting status 0 }

/-- One turn of `exit`'s loop, closing `fd`; past the last descriptor the children
go to `init` and the process is a ZOMBIE. -/
def exitStep (s : System σ) (k : Nat) (status : Int) (fd : Nat) : System σ :=
  if fd < nOFile then (s.close k fd).setProc k fun p => { p with life := .exiting status (fd + 1) }
  else
    { s with procs := fun j =>
        if j = k then { s.procs k with life := .zombie status }
        else if (s.procs j).parent = some k then { s.procs j with parent := none }
        else s.procs j }

/-- `wait(0)` by process `k`: a ZOMBIE child is freed and its pid returned; -1
when it has no children; `none` while it sleeps. -/
def wait (s : System σ) (k : Nat) : Option (Int × System σ) :=
  match (List.range s.count).find? fun j => (s.procs j).parent = some k && (s.procs j).life.isZombie with
  | some j => some (j, s.setProc j fun p => { p with life := .freed, parent := none })
  | none =>
    if ∃ j < s.count, (s.procs j).parent = some k then none else some (-1, s)

/-- The next step of process `k`: its program's (`run`), or its `exit`'s. -/
def step (run : Nat → System σ → σ → Option (System σ)) (s : System σ) (k : Nat) :
    Option (System σ) :=
  if k < s.count then
    match (s.procs k).life with
    | .running => run k s (s.procs k).pc
    | .exiting status fd => some (s.exitStep k status fd)
    | .zombie _ | .freed => none
  else none

/-! ### Updates -/

@[simp] theorem setProc_procs (s : System σ) (k : Nat) (f : Proc σ → Proc σ) (j : Nat) :
    (s.setProc k f).procs j = if j = k then f (s.procs k) else s.procs j := by
  simp [setProc, Function.update_apply]

@[simp] theorem setProc_count (s : System σ) (k : Nat) (f : Proc σ → Proc σ) :
    (s.setProc k f).count = s.count := rfl

@[simp] theorem setProc_pipes (s : System σ) (k : Nat) (f : Proc σ → Proc σ) :
    (s.setProc k f).pipes = s.pipes := rfl

@[simp] theorem setProc_npipes (s : System σ) (k : Nat) (f : Proc σ → Proc σ) :
    (s.setProc k f).npipes = s.npipes := rfl

@[simp] theorem setProc_console (s : System σ) (k : Nat) (f : Proc σ → Proc σ) :
    (s.setProc k f).console = s.console := rfl

@[simp] theorem setPipe_pipes (s : System σ) (n : Nat) (f : Records → Records) (m : Nat) :
    (s.setPipe n f).pipes m = if m = n then f (s.pipes n) else s.pipes m := by
  simp [setPipe, Function.update_apply]

@[simp] theorem setPipe_procs (s : System σ) (n : Nat) (f : Records → Records) :
    (s.setPipe n f).procs = s.procs := rfl

@[simp] theorem setPipe_count (s : System σ) (n : Nat) (f : Records → Records) :
    (s.setPipe n f).count = s.count := rfl

@[simp] theorem setPipe_npipes (s : System σ) (n : Nat) (f : Records → Records) :
    (s.setPipe n f).npipes = s.npipes := rfl

@[simp] theorem setPipe_console (s : System σ) (n : Nat) (f : Records → Records) :
    (s.setPipe n f).console = s.console := rfl

/-! ### Who refers to an end -/

/-- Two systems whose processes have the same descriptors hold the same ends. -/
theorem held_congr {s s' : System σ} (count : s'.count = s.count)
    (same : ∀ k < s.count, (s'.procs k).fds = (s.procs k).fds) (c : Chan) : s'.Held c ↔ s.Held c := by
  unfold Held
  rw [count]
  constructor
  · rintro ⟨k, lt, fd, holds⟩
    exact ⟨k, lt, fd, by rwa [← same k lt]⟩
  · rintro ⟨k, lt, fd, holds⟩
    exact ⟨k, lt, fd, by rwa [same k lt]⟩

/-- Changing the descriptors of process `k` changes only what it holds. -/
theorem held_setFds {s : System σ} {k : Nat} (lt : k < s.count) (fds : Fds) (c : Chan) :
    (s.setProc k fun p => { p with fds }).Held c ↔
      (∃ fd, fds fd = some c) ∨ ∃ j < s.count, j ≠ k ∧ ∃ fd, (s.procs j).fds fd = some c := by
  simp only [Held, setProc_count, setProc_procs]
  constructor
  · rintro ⟨j, ltJ, fd, holds⟩
    by_cases same : j = k
    · subst same
      simp only [if_true] at holds
      exact .inl ⟨fd, holds⟩
    · simp only [same, if_false] at holds
      exact .inr ⟨j, ltJ, same, fd, holds⟩
  · rintro (⟨fd, holds⟩ | ⟨j, ltJ, differ, fd, holds⟩)
    · exact ⟨k, lt, fd, by simpa using holds⟩
    · exact ⟨j, ltJ, fd, by simpa [differ] using holds⟩

theorem held_iff_of_setFds {s : System σ} {k : Nat} (lt : k < s.count) {fds : Fds} {c : Chan}
    (same : (∃ fd, fds fd = some c) ↔ ∃ fd, (s.procs k).fds fd = some c) :
    (s.setProc k fun p => { p with fds }).Held c ↔ s.Held c := by
  rw [held_setFds lt, same]
  constructor
  · rintro (⟨fd, holds⟩ | ⟨j, ltJ, -, fd, holds⟩)
    · exact ⟨k, lt, fd, holds⟩
    · exact ⟨j, ltJ, fd, holds⟩
  · rintro ⟨j, ltJ, fd, holds⟩
    by_cases differ : j = k
    · subst differ
      exact .inl ⟨fd, holds⟩
    · exact .inr ⟨j, ltJ, differ, fd, holds⟩

theorem held_release (s : System σ) (c c' : Chan) : (s.release c).Held c' ↔ s.Held c' := by
  cases c <;> rfl

@[simp] theorem held_setPipe (s : System σ) (n : Nat) (f : Records → Records) (c : Chan) :
    (s.setPipe n f).Held c ↔ s.Held c := Iff.rfl

@[simp] theorem release_npipes (s : System σ) (c : Chan) : (s.release c).npipes = s.npipes := by
  cases c <;> rfl

@[simp] theorem release_procs (s : System σ) (c : Chan) : (s.release c).procs = s.procs := by
  cases c <;> rfl

@[simp] theorem release_count (s : System σ) (c : Chan) : (s.release c).count = s.count := by
  cases c <;> rfl

theorem fd_some {σ : Type} {p : Proc σ} {fd : Nat} {c : Chan} (found : p.fd fd = some c) :
    ∃ h : fd < nOFile, p.fds ⟨fd, h⟩ = some c := by
  unfold Proc.fd at found
  split at found
  · exact ⟨‹_›, found⟩
  · cases found

/-- `close` takes away its descriptor only. -/
theorem holds_close {fds : Fds} {fd : Nat} {c c' : Chan} (h : fd < nOFile) (at_ : fds ⟨fd, h⟩ = some c)
    (differ : c' ≠ c) : (∃ j, Sh.close fds fd j = some c') ↔ ∃ j, fds j = some c' := by
  simp only [Sh.close, dif_pos h]
  constructor
  · rintro ⟨j, holds⟩
    by_cases same : j = ⟨fd, h⟩
    · subst same
      simp at holds
    · exact ⟨j, by simpa [Function.update_of_ne same] using holds⟩
  · rintro ⟨j, holds⟩
    by_cases same : j = ⟨fd, h⟩
    · subst same
      rw [at_, Option.some.injEq] at holds
      exact absurd holds.symm differ
    · exact ⟨j, by simpa [Function.update_of_ne same] using holds⟩

theorem fdalloc_free {fds : Fds} {i : Fin nOFile} (found : Sh.fdalloc fds = some i) : fds i = none := by
  simpa using List.find?_some found

/-- `dup` copies a descriptor's end: the table holds what it held. -/
theorem holds_dup (fds : Fds) (fd : Nat) (c : Chan) :
    (∃ j, Sh.dup fds fd j = some c) ↔ ∃ j, fds j = some c := by
  by_cases h : fd < nOFile
  · cases atFd : fds ⟨fd, h⟩ with
    | none => simp [Sh.dup, h, atFd]
    | some c0 =>
      cases alloc : Sh.fdalloc fds with
      | none => simp [Sh.dup, h, atFd, alloc]
      | some new =>
        have free := fdalloc_free alloc
        simp only [Sh.dup, dif_pos h, atFd, alloc]
        constructor
        · rintro ⟨j, holds⟩
          by_cases same : j = new
          · subst same
            rw [Function.update_self] at holds
            exact ⟨⟨fd, h⟩, by rw [atFd, holds]⟩
          · exact ⟨j, by rwa [Function.update_of_ne same] at holds⟩
        · rintro ⟨j, holds⟩
          have differ : j ≠ new := by
            rintro rfl
            rw [free] at holds
            cases holds
          exact ⟨j, by rwa [Function.update_of_ne differ]⟩
  · simp [Sh.dup, h]

/-- `pipe` puts the two ends of pipe `n` on two descriptors that were free. -/
theorem holds_pipe {fds fds' : Fds} {n r w : Nat} (made : Sh.pipe fds n = some (fds', r, w)) (c : Chan) :
    (∃ j, fds' j = some c) ↔ (∃ j, fds j = some c) ∨ c = .pipeRead n ∨ c = .pipeWrite n := by
  unfold Sh.pipe at made
  cases allocR : Sh.fdalloc fds with
  | none => simp [allocR] at made
  | some rfd =>
    cases allocW : Sh.fdalloc (Function.update fds rfd (some (.pipeRead n))) with
    | none => simp [allocR, allocW] at made
    | some wfd =>
      simp only [allocR, allocW, Option.bind_eq_bind, Option.bind_some, Option.pure_def,
        Option.some.injEq, Prod.mk.injEq] at made
      obtain ⟨rfl, -, -⟩ := made
      have freeR := fdalloc_free allocR
      have freeW := fdalloc_free allocW
      have apart : wfd ≠ rfd := by
        rintro rfl
        simp at freeW
      rw [Function.update_of_ne apart] at freeW
      constructor
      · rintro ⟨j, holds⟩
        by_cases atW : j = wfd
        · subst atW
          simp only [Function.update_self, Option.some.injEq] at holds
          exact .inr (.inr holds.symm)
        · rw [Function.update_of_ne atW] at holds
          by_cases atR : j = rfd
          · subst atR
            simp only [Function.update_self, Option.some.injEq] at holds
            exact .inr (.inl holds.symm)
          · exact .inl ⟨j, by rwa [Function.update_of_ne atR] at holds⟩
      · rintro (⟨j, holds⟩ | rfl | rfl)
        · have notW : j ≠ wfd := by
            rintro rfl
            rw [freeW] at holds
            cases holds
          have notR : j ≠ rfd := by
            rintro rfl
            rw [freeR] at holds
            cases holds
          exact ⟨j, by rwa [Function.update_of_ne notW, Function.update_of_ne notR]⟩
        · exact ⟨rfd, by rw [Function.update_of_ne apart.symm, Function.update_self]⟩
        · exact ⟨wfd, Function.update_self ..⟩

/-! ### Open ends are the ends referred to -/

/-- A pipe's end is open exactly while a descriptor refers to it; pipes not made
yet are closed. -/
structure Refs (s : System σ) : Prop where
  readopen : ∀ n, (s.pipes n).pipe.readopen = true ↔ s.Held (.pipeRead n)
  writeopen : ∀ n, (s.pipes n).pipe.writeopen = true ↔ s.Held (.pipeWrite n)
  unmade : ∀ n, s.npipes ≤ n → s.pipes n = closedPipe

namespace Refs

variable {s s' : System σ}

/-- A change that keeps who refers to each pipe's ends, the ends, and the pipes
made. -/
theorem congr (refs : s.Refs) (heldRead : ∀ n, s'.Held (.pipeRead n) ↔ s.Held (.pipeRead n))
    (heldWrite : ∀ n, s'.Held (.pipeWrite n) ↔ s.Held (.pipeWrite n))
    (read : ∀ n, (s'.pipes n).pipe.readopen = (s.pipes n).pipe.readopen)
    (write : ∀ n, (s'.pipes n).pipe.writeopen = (s.pipes n).pipe.writeopen)
    (npipes : s'.npipes = s.npipes) (unmade : ∀ n, s.npipes ≤ n → s'.pipes n = s.pipes n) : s'.Refs where
  readopen n := by rw [read, heldRead]; exact refs.readopen n
  writeopen n := by rw [write, heldWrite]; exact refs.writeopen n
  unmade n le := by rw [unmade n (npipes ▸ le)]; exact refs.unmade n (npipes ▸ le)

theorem of_procs (refs : s.Refs) (count : s'.count = s.count)
    (same : ∀ k < s.count, (s'.procs k).fds = (s.procs k).fds) (pipes : s'.pipes = s.pipes)
    (npipes : s'.npipes = s.npipes) : s'.Refs :=
  refs.congr (fun _ => held_congr count same _) (fun _ => held_congr count same _) (by simp [pipes])
    (by simp [pipes]) npipes (by simp [pipes])

theorem setPc (refs : s.Refs) (k : Nat) (pc : σ) : (s.setPc k pc).Refs :=
  refs.of_procs rfl (fun j _ => by by_cases same : j = k <;> simp [System.setPc, same]) rfl rfl

/-- A held end is of a pipe made. -/
theorem made_of_readHeld (refs : s.Refs) {n : Nat} (held : s.Held (.pipeRead n)) : n < s.npipes := by
  by_contra unmade
  have opened := (refs.readopen n).mpr held
  rw [refs.unmade n (by omega)] at opened
  simp [closedPipe, pipeclose] at opened

theorem made_of_writeHeld (refs : s.Refs) {n : Nat} (held : s.Held (.pipeWrite n)) : n < s.npipes := by
  by_contra unmade
  have opened := (refs.writeopen n).mpr held
  rw [refs.unmade n (by omega)] at opened
  simp [closedPipe, pipeclose] at opened

theorem closedPipe_ne_open_read {r : Records} (opened : r.pipe.readopen = true) : r ≠ closedPipe := by
  rintro rfl
  simp [closedPipe, pipeclose] at opened

/-- `close`: an end is released with its last descriptor. -/
theorem close (refs : s.Refs) {k : Nat} (lt : k < s.count) (fd : Nat) : (s.close k fd).Refs := by
  unfold System.close
  cases found : (s.procs k).fd fd with
  | none => exact refs
  | some c =>
    obtain ⟨h, atFd⟩ := fd_some found
    have heldC : s.Held c := ⟨k, lt, ⟨fd, h⟩, atFd⟩
    have others : ∀ c', c' ≠ c →
        ((s.setProc k fun p => { p with fds := Sh.close p.fds fd }).Held c' ↔ s.Held c') :=
      fun c' differ => held_iff_of_setFds lt (holds_close h atFd differ)
    dsimp only
    split
    · -- another descriptor still refers to the end: nothing is released
      rename_i still
      have same : ∀ c', (s.setProc k fun p => { p with fds := Sh.close p.fds fd }).Held c' ↔ s.Held c' := by
        intro c'
        by_cases differ : c' = c
        · subst differ
          exact ⟨fun _ => heldC, fun _ => still⟩
        · exact others c' differ
      exact refs.congr (fun _ => same _) (fun _ => same _) (fun _ => rfl) (fun _ => rfl) rfl (fun _ _ => rfl)
    · rename_i gone
      cases c with
      | pipeRead m =>
        have made := refs.made_of_readHeld heldC
        refine ⟨fun n => ?_, fun n => ?_, fun n le => ?_⟩
        · by_cases same : n = m
          · subst same
            simpa [release, pipeclose] using gone
          · rw [held_release, others _ (by simpa using same)]
            simpa [release, same] using refs.readopen n
        · rw [held_release, others _ (by simp)]
          by_cases same : n = m
          · subst same
            simpa [release, pipeclose] using refs.writeopen n
          · simpa [release, same] using refs.writeopen n
        · have differ : n ≠ m := by simp at le; omega
          simpa [release, differ] using refs.unmade n (by simpa using le)
      | pipeWrite m =>
        have made := refs.made_of_writeHeld heldC
        refine ⟨fun n => ?_, fun n => ?_, fun n le => ?_⟩
        · rw [held_release, others _ (by simp)]
          by_cases same : n = m
          · subst same
            simpa [release, pipeclose] using refs.readopen n
          · simpa [release, same] using refs.readopen n
        · by_cases same : n = m
          · subst same
            simpa [release, pipeclose] using gone
          · rw [held_release, others _ (by simpa using same)]
            simpa [release, same] using refs.writeopen n
        · have differ : n ≠ m := by simp at le; omega
          simpa [release, differ] using refs.unmade n (by simpa using le)
      | inherited _ =>
        exact refs.congr (fun _ => others _ (by simp)) (fun _ => others _ (by simp)) (fun _ => rfl)
          (fun _ => rfl) rfl (fun _ _ => rfl)
      | file _ _ =>
        exact refs.congr (fun _ => others _ (by simp)) (fun _ => others _ (by simp)) (fun _ => rfl)
          (fun _ => rfl) rfl (fun _ _ => rfl)

theorem dup (refs : s.Refs) {k : Nat} (lt : k < s.count) (fd : Nat) : (s.dup k fd).Refs := by
  have same : ∀ c, (s.dup k fd).Held c ↔ s.Held c := fun c =>
    held_iff_of_setFds lt (holds_dup _ fd c)
  exact refs.congr (fun _ => same _) (fun _ => same _) (fun _ => rfl) (fun _ => rfl) rfl (fun _ _ => rfl)

/-- `pipe`: the new pipe's ends are open and held by the caller. -/
theorem pipe (refs : s.Refs) {k : Nat} (lt : k < s.count) {s' : System σ} {r w : Nat}
    (made : s.pipe k = some (s', r, w)) : s'.Refs := by
  unfold System.pipe at made
  cases piped : Sh.pipe (s.procs k).fds s.npipes with
  | none => simp [piped] at made
  | some result =>
    obtain ⟨fds, r', w'⟩ := result
    simp only [piped, Option.some.injEq, Prod.mk.injEq] at made
    obtain ⟨rfl, -, -⟩ := made
    have pipeHolds := holds_pipe piped
    have held : ∀ c, (s.setProc k fun p => { p with fds }).Held c ↔
        s.Held c ∨ c = .pipeRead s.npipes ∨ c = .pipeWrite s.npipes := by
      intro c
      rw [held_setFds lt, pipeHolds c]
      constructor
      · rintro ((⟨fd, holds⟩ | fresh) | ⟨j, ltJ, -, fd, holds⟩)
        · exact .inl ⟨k, lt, fd, holds⟩
        · exact .inr fresh
        · exact .inl ⟨j, ltJ, fd, holds⟩
      · rintro (⟨j, ltJ, fd, holds⟩ | fresh)
        · by_cases same : j = k
          · subst same
            exact .inl (.inl ⟨fd, holds⟩)
          · exact .inr ⟨j, ltJ, same, fd, holds⟩
        · exact .inl (.inr fresh)
    refine ⟨fun n => ?_, fun n => ?_, fun n le => ?_⟩
    · change (Function.update s.pipes s.npipes newPipe n).pipe.readopen = true ↔
        (s.setProc k fun p => { p with fds }).Held (.pipeRead n)
      rw [held]
      by_cases same : n = s.npipes
      · subst same
        simp [newPipe, pipealloc]
      · simpa [Function.update_of_ne same, same] using refs.readopen n
    · change (Function.update s.pipes s.npipes newPipe n).pipe.writeopen = true ↔
        (s.setProc k fun p => { p with fds }).Held (.pipeWrite n)
      rw [held]
      by_cases same : n = s.npipes
      · subst same
        simp [newPipe, pipealloc]
      · simpa [Function.update_of_ne same, same] using refs.writeopen n
    · change s.npipes + 1 ≤ n at le
      change Function.update s.pipes s.npipes newPipe n = closedPipe
      rw [Function.update_of_ne (by omega)]
      exact refs.unmade n (by omega)

theorem fork (refs : s.Refs) {k : Nat} (lt : k < s.count) (child : σ) : (s.fork k child).Refs := by
  have same : ∀ c, (s.fork k child).Held c ↔ s.Held c := by
    intro c
    simp only [Held, System.fork, Function.update_apply]
    constructor
    · rintro ⟨j, ltJ, fd, holds⟩
      by_cases new : j = s.count
      · subst new
        simp only [if_true] at holds
        exact ⟨k, lt, fd, holds⟩
      · simp only [new, if_false] at holds
        exact ⟨j, by omega, fd, holds⟩
    · rintro ⟨j, ltJ, fd, holds⟩
      exact ⟨j, by omega, fd, by simpa [Nat.ne_of_lt ltJ] using holds⟩
  exact refs.congr (fun _ => same _) (fun _ => same _) (fun _ => rfl) (fun _ => rfl) rfl (fun _ _ => rfl)

theorem exit (refs : s.Refs) (k : Nat) (status : Int) : (s.exit k status).Refs :=
  refs.of_procs rfl (fun j _ => by by_cases same : j = k <;> simp [System.exit, same]) rfl rfl

theorem exitStep (refs : s.Refs) {k : Nat} (lt : k < s.count) (status : Int) (fd : Nat) :
    (s.exitStep k status fd).Refs := by
  unfold System.exitStep
  split
  · have closed := refs.close lt fd
    exact closed.of_procs rfl (fun j _ => by by_cases same : j = k <;> simp [same]) rfl rfl
  · refine refs.of_procs rfl (fun j _ => ?_) rfl rfl
    dsimp only
    split
    · subst_vars
      rfl
    · split <;> rfl

theorem wait (refs : s.Refs) {k : Nat} {ret : Int} (waited : s.wait k = some (ret, s')) : s'.Refs := by
  unfold System.wait at waited
  split at waited
  · rename_i j _
    simp only [Option.some.injEq, Prod.mk.injEq] at waited
    obtain ⟨-, rfl⟩ := waited
    exact refs.of_procs rfl (fun i _ => by by_cases same : i = j <;> simp [same]) rfl rfl
  · split at waited
    · cases waited
    · simp only [Option.some.injEq, Prod.mk.injEq] at waited
      obtain ⟨-, rfl⟩ := waited
      exact refs

theorem writerStretch_ends (w : Records) (record : List UInt8) (i : Nat) :
    (w.writerStretch record i).pipe.readopen = w.pipe.readopen ∧
      (w.writerStretch record i).pipe.writeopen = w.pipe.writeopen := by
  obtain ⟨-, reads, writes, -⟩ := pipewrite_counts (fun _ => false) ((record.drop i).map some) w.pipe i
  exact ⟨reads, writes⟩

/-- A change of one pipe that keeps its ends. -/
theorem setPipe (refs : s.Refs) {m : Nat} (made : m < s.npipes) {f : Records → Records}
    (ends : (f (s.pipes m)).pipe.readopen = (s.pipes m).pipe.readopen ∧
      (f (s.pipes m)).pipe.writeopen = (s.pipes m).pipe.writeopen) : (s.setPipe m f).Refs := by
  refine refs.congr (fun _ => Iff.rfl) (fun _ => Iff.rfl) (fun n => ?_) (fun n => ?_) rfl (fun n le => ?_)
  · by_cases same : n = m
    · subst same
      simpa using ends.1
    · simp [same]
  · by_cases same : n = m
    · subst same
      simpa using ends.2
    · simp [same]
  · simp [show n ≠ m by omega]

theorem read (refs : s.Refs) {k fd n : Nat} {ret : Int} {bytes : List UInt8}
    (lt : k < s.count) (red : s.read k fd n = some (ret, bytes, s')) : s'.Refs := by
  unfold System.read at red
  split at red
  · rename_i m found
    obtain ⟨h, atFd⟩ := fd_some found
    have made := refs.made_of_readHeld ⟨k, lt, ⟨fd, h⟩, atFd⟩
    split at red
    · cases red
    · rename_i ret' pi bytes' result
      simp only [Option.some.injEq, Prod.mk.injEq] at red
      obtain ⟨-, -, rfl⟩ := red
      have ends := piperead_ends (s.pipes m).pipe false (List.replicate n true)
      rw [result] at ends
      exact refs.setPipe made ends
  · cases red
  · simp only [Option.some.injEq, Prod.mk.injEq] at red
    obtain ⟨-, -, rfl⟩ := red
    exact refs

theorem write (refs : s.Refs) {k fd : Nat} {bytes : List UInt8} {stop : Stop}
    (lt : k < s.count) (wrote : s.write k fd bytes = some (stop, s')) : s'.Refs := by
  unfold System.write at wrote
  split at wrote
  · rename_i m found
    obtain ⟨h, atFd⟩ := fd_some found
    have made := refs.made_of_writeHeld ⟨k, lt, ⟨fd, h⟩, atFd⟩
    split at wrote
    · simp only [Option.some.injEq, Prod.mk.injEq] at wrote
      obtain ⟨-, rfl⟩ := wrote
      exact refs.setPipe made (writerStretch_ends _ bytes 0)
    · cases wrote
  · simp only [Option.some.injEq, Prod.mk.injEq] at wrote
    obtain ⟨-, rfl⟩ := wrote
    exact refs.of_procs rfl (fun _ _ => rfl) rfl rfl
  · simp only [Option.some.injEq, Prod.mk.injEq] at wrote
    obtain ⟨-, rfl⟩ := wrote
    exact refs

theorem resume (refs : s.Refs) {k fd : Nat} {stop : Stop}
    (lt : k < s.count) (resumed : s.resume k fd = some (stop, s')) : s'.Refs := by
  unfold System.resume at resumed
  split at resumed
  · rename_i m found
    obtain ⟨h, atFd⟩ := fd_some found
    have made := refs.made_of_writeHeld ⟨k, lt, ⟨fd, h⟩, atFd⟩
    split at resumed
    · rename_i record i _
      dsimp only at resumed
      split at resumed
      · cases resumed
      · simp only [Option.some.injEq, Prod.mk.injEq] at resumed
        obtain ⟨-, rfl⟩ := resumed
        exact refs.setPipe made (writerStretch_ends _ record i)
    · cases resumed
  · cases resumed

end Refs

/-! ### Whole records in every pipe -/

/-- Every pipe holds whole records of `k` bytes (`Records.Whole`). -/
def Wholes (k : Nat) (s : System σ) : Prop :=
  ∀ n, (s.pipes n).Whole k

theorem whole_pipeclose {k : Nat} {r : Records} (whole : r.Whole k) (writable : Bool) :
    ({ r with pipe := pipeclose r.pipe writable } : Records).Whole k := by
  refine ⟨pipeclose_fifo whole.fifo writable, whole.sized, fun reading => whole.whole ?_⟩
  cases writable <;> simp_all [pipeclose]

theorem whole_newPipe (k : Nat) : newPipe.Whole k :=
  ⟨Fifo.new _, fun _ member => absurd member List.not_mem_nil,
    fun _ => ⟨0, 0, le_rfl, le_rfl, rfl, rfl, .inl ⟨rfl, rfl⟩⟩⟩

theorem whole_closedPipe (k : Nat) : closedPipe.Whole k :=
  whole_pipeclose (whole_pipeclose (whole_newPipe k) true) false

section Stops

variable {k : Nat} (divides : k ∣ pipeSize)
include divides

/-- On an open pipe of whole `k`-byte records there is room for one more record,
or the ring is full. -/
theorem room_or_full {r : Records} (whole : r.Whole k) (reading : r.pipe.readopen = true) :
    r.stored.length + k ≤ r.taken.length + pipeSize ∨ r.stored.length = r.taken.length + pipeSize := by
  obtain ⟨m, g, le, bound, stored, taken, -⟩ := whole.whole reading
  have storedLength : r.stored.length = m * k := by rw [stored]; exact length_flatten_take whole.sized bound
  have takenLength : r.taken.length = g * k := by rw [taken]; exact length_flatten_take whole.sized (by omega)
  have ordered : g * k ≤ m * k := Nat.mul_le_mul_right k le
  have fits : (m - g) * k ≤ pipeSize := by
    have := whole.fifo.room
    rw [Nat.sub_mul]
    omega
  rcases full_or_room divides fits with full | room
  · right
    rw [Nat.sub_mul] at full
    omega
  · left
    rw [Nat.sub_mul] at room
    omega

/-- A write call of a `k`-byte record on an open pipe of whole records stores it
and returns `k`, or sleeps before its first byte. -/
theorem write_stop {r : Records} (whole : r.Whole k) (reading : r.pipe.readopen = true)
    {bytes : List UInt8} (sized : bytes.length = k) (i : Nat) :
    (pipewrite (fun _ => false) r.pipe i (bytes.map some)).1 = .returns ↑(i + k) ∨
      (pipewrite (fun _ => false) r.pipe i (bytes.map some)).1 = .sleeps i := by
  rcases room_or_full divides whole reading with room | full
  · left
    rw [← sized]
    exact (pipewrite_whole reading bytes i whole.fifo (by omega)).1
  · right
    obtain ⟨b, rest, rfl⟩ := List.exists_cons_of_length_pos (by rw [sized]; exact pos_of_dvd_pipeSize divides)
    rw [List.map_cons, pipewrite_full reading whole.fifo full]

end Stops

/-- A write call asleep on an open pipe of whole records slept before the first byte
of a `k`-byte record. -/
theorem asleep_record {k : Nat} {r : Records} (whole : r.Whole k) (reading : r.pipe.readopen = true)
    {record : List UInt8} {i : Nat} (waiting : r.writer = some (record, i)) :
    i = 0 ∧ record.length = k := by
  obtain ⟨m, g, -, -, -, -, writer⟩ := whole.whole reading
  rcases writer with ⟨idle, -⟩ | ⟨r', asleep, calls⟩
  · rw [waiting] at idle
    cases idle
  · rw [waiting, Option.some.injEq, Prod.mk.injEq] at asleep
    obtain ⟨rfl, rfl⟩ := asleep
    refine ⟨rfl, whole.sized _ ?_⟩
    rw [calls]
    exact List.mem_append_right _ (List.mem_singleton_self _)

namespace Wholes

variable {k : Nat} {s s' : System σ}

theorem of_pipes (wholes : s.Wholes k) (pipes : s'.pipes = s.pipes) : s'.Wholes k :=
  fun n => pipes ▸ wholes n

theorem setPipe (wholes : s.Wholes k) (m : Nat) (f : Records → Records) (whole : (f (s.pipes m)).Whole k) :
    (s.setPipe m f).Wholes k := by
  intro n
  by_cases same : n = m
  · subst same
    simpa using whole
  · simpa [same] using wholes n

theorem release (wholes : s.Wholes k) (c : Chan) : (s.release c).Wholes k := by
  cases c with
  | pipeRead m =>
    exact wholes.setPipe m (fun r => { r with pipe := pipeclose r.pipe false }) (whole_pipeclose (wholes m) false)
  | pipeWrite m =>
    exact wholes.setPipe m (fun r => { r with pipe := pipeclose r.pipe true }) (whole_pipeclose (wholes m) true)
  | inherited _ => exact wholes
  | file _ _ => exact wholes

theorem close (wholes : s.Wholes k) (j fd : Nat) : (s.close j fd).Wholes k := by
  unfold System.close
  split
  · exact wholes
  · dsimp only
    split
    · exact wholes
    · apply Wholes.release
      exact wholes

theorem pipe (wholes : s.Wholes k) {j r w : Nat} (made : s.pipe j = some (s', r, w)) : s'.Wholes k := by
  unfold System.pipe at made
  split at made
  · cases made
  · simp only [Option.some.injEq, Prod.mk.injEq] at made
    obtain ⟨rfl, -, -⟩ := made
    intro n
    change (Function.update s.pipes s.npipes newPipe n).Whole k
    by_cases same : n = s.npipes
    · subst same
      simpa using whole_newPipe k
    · simpa [Function.update_of_ne same] using wholes n

section Calls

variable (divides : k ∣ pipeSize)
include divides

/-- A read of `k` bytes takes a whole record, or none. -/
theorem read (wholes : s.Wholes k) (refs : s.Refs) {j fd : Nat} {ret : Int} {bytes : List UInt8}
    (lt : j < s.count) (red : s.read j fd k = some (ret, bytes, s')) : s'.Wholes k := by
  unfold System.read at red
  split at red
  · rename_i m found
    obtain ⟨h, atFd⟩ := fd_some found
    have reading := (refs.readopen m).mpr ⟨j, lt, ⟨fd, h⟩, atFd⟩
    split at red
    · cases red
    · rename_i ret' pi bytes' result
      simp only [Option.some.injEq, Prod.mk.injEq] at red
      obtain ⟨-, -, rfl⟩ := red
      have stepped := recordStep_read (k := k) reading
      rw [result] at stepped
      exact wholes.setPipe m _ ((wholes m).step divides stepped)
  · cases red
  · simp only [Option.some.injEq, Prod.mk.injEq] at red
    obtain ⟨-, -, rfl⟩ := red
    exact wholes

/-- A write of a `k`-byte record keeps the records whole. -/
theorem write (wholes : s.Wholes k) (refs : s.Refs) {j fd : Nat} {bytes : List UInt8} {stop : Stop}
    (lt : j < s.count) (sized : bytes.length = k) (wrote : s.write j fd bytes = some (stop, s')) :
    s'.Wholes k := by
  unfold System.write at wrote
  split at wrote
  · rename_i m found
    obtain ⟨h, atFd⟩ := fd_some found
    have writing := (refs.writeopen m).mpr ⟨j, lt, ⟨fd, h⟩, atFd⟩
    split at wrote
    · rename_i idle
      simp only [Option.some.injEq, Prod.mk.injEq] at wrote
      obtain ⟨-, rfl⟩ := wrote
      have stepped : recordStep k (s.pipes m) (.write bytes) =
          some ({ s.pipes m with calls := (s.pipes m).calls ++ [bytes] }.writerStretch bytes 0) := by
        simp [recordStep, sized, idle, writing]
      exact wholes.setPipe m _ ((wholes m).step divides stepped)
    · cases wrote
  · simp only [Option.some.injEq, Prod.mk.injEq] at wrote
    obtain ⟨-, rfl⟩ := wrote
    exact wholes.of_pipes rfl
  · simp only [Option.some.injEq, Prod.mk.injEq] at wrote
    obtain ⟨-, rfl⟩ := wrote
    exact wholes

theorem resume (wholes : s.Wholes k) {j fd : Nat} {stop : Stop}
    (resumed : s.resume j fd = some (stop, s')) : s'.Wholes k := by
  unfold System.resume at resumed
  split at resumed
  · rename_i m found
    split at resumed
    · rename_i record i waiting
      dsimp only at resumed
      split at resumed
      · cases resumed
      · simp only [Option.some.injEq, Prod.mk.injEq] at resumed
        obtain ⟨-, rfl⟩ := resumed
        have stepped : recordStep k (s.pipes m) .resume = some ((s.pipes m).writerStretch record i) := by
          simp [recordStep, waiting]
        exact wholes.setPipe m _ ((wholes m).step divides stepped)
    · cases resumed
  · cases resumed

end Calls

end Wholes

end System

end Xv6.Pipes
