import Xv6.Pipe.System

/-!
Contract: what each call of `Xv6.Pipe.System` does, stated once so that the proofs
about a program cite it and never unfold the call.

`close` takes a descriptor from its caller and at most closes an end of one pipe:
the records of every pipe (what its writer's calls sent, what its reader took, the
call in progress) stay as they are. A `read` of a pipe adds the bytes it copied to
what was taken; a `write` of a pipe begins a call; a `resume` runs on the call in
progress; a `write` of the console appends to it. `pipe` on a table of open
standard descriptors gives 3 and 4, and `wait` frees a ZOMBIE child or finds no
child at all.
-/

namespace Xv6.Pipes.System

open Xv6.Sh (Chan Fds toFds)

variable {σ : Type}

/-- `argfd` on the table of an environment. -/
theorem fd_toFds {p : Proc σ} {env : Nat → Option Chan} (fds : p.fds = toFds env) {fd : Nat}
    (lt : fd < nOFile) : p.fd fd = env fd := by
  simp [Proc.fd, lt, fds, toFds]

/-! ### `setPc`, `exit`, `fork` -/

@[simp] theorem setPc_procs (s : System σ) (k : Nat) (pc : σ) (j : Nat) :
    (s.setPc k pc).procs j = if j = k then { s.procs k with pc } else s.procs j :=
  setProc_procs s k _ j

@[simp] theorem setPc_count (s : System σ) (k : Nat) (pc : σ) : (s.setPc k pc).count = s.count := rfl

@[simp] theorem setPc_pipes (s : System σ) (k : Nat) (pc : σ) : (s.setPc k pc).pipes = s.pipes := rfl

@[simp] theorem setPc_npipes (s : System σ) (k : Nat) (pc : σ) : (s.setPc k pc).npipes = s.npipes := rfl

@[simp] theorem setPc_console (s : System σ) (k : Nat) (pc : σ) : (s.setPc k pc).console = s.console := rfl

@[simp] theorem exit_procs (s : System σ) (k : Nat) (status : Int) (j : Nat) :
    (s.exit k status).procs j = if j = k then { s.procs k with life := .exiting status 0 } else s.procs j :=
  setProc_procs s k _ j

@[simp] theorem exit_count (s : System σ) (k : Nat) (status : Int) : (s.exit k status).count = s.count := rfl

@[simp] theorem exit_pipes (s : System σ) (k : Nat) (status : Int) : (s.exit k status).pipes = s.pipes := rfl

@[simp] theorem exit_npipes (s : System σ) (k : Nat) (status : Int) : (s.exit k status).npipes = s.npipes := rfl

@[simp] theorem exit_console (s : System σ) (k : Nat) (status : Int) : (s.exit k status).console = s.console :=
  rfl

@[simp] theorem fork_procs (s : System σ) (k : Nat) (child : σ) (j : Nat) :
    (s.fork k child).procs j =
      if j = s.count then ⟨child, .running, some k, (s.procs k).fds⟩ else s.procs j := by
  simp [System.fork, Function.update_apply]

@[simp] theorem fork_count (s : System σ) (k : Nat) (child : σ) : (s.fork k child).count = s.count + 1 := rfl

@[simp] theorem fork_pipes (s : System σ) (k : Nat) (child : σ) : (s.fork k child).pipes = s.pipes := rfl

@[simp] theorem fork_npipes (s : System σ) (k : Nat) (child : σ) : (s.fork k child).npipes = s.npipes := rfl

@[simp] theorem fork_console (s : System σ) (k : Nat) (child : σ) : (s.fork k child).console = s.console := rfl

/-! ### `close` -/

/-- `pipeclose` changes the ring of a pipe only: its records stay. -/
theorem release_records (s : System σ) (c : Chan) (n : Nat) :
    ((s.release c).pipes n).calls = (s.pipes n).calls ∧ ((s.release c).pipes n).taken = (s.pipes n).taken ∧
      ((s.release c).pipes n).writer = (s.pipes n).writer := by
  cases c with
  | pipeRead m => by_cases same : n = m <;> simp [release, same]
  | pipeWrite m => by_cases same : n = m <;> simp [release, same]
  | inherited _ => exact ⟨rfl, rfl, rfl⟩
  | file _ _ => exact ⟨rfl, rfl, rfl⟩

theorem close_cases (s : System σ) (k fd : Nat) :
    s.close k fd = s ∨
      ∃ c, s.close k fd = s.setProc k (fun p => { p with fds := Sh.close p.fds fd }) ∨
        s.close k fd = (s.setProc k fun p => { p with fds := Sh.close p.fds fd }).release c := by
  unfold System.close
  split
  · exact .inl rfl
  · rename_i c _
    dsimp only
    split
    · exact .inr ⟨c, .inl rfl⟩
    · exact .inr ⟨c, .inr rfl⟩

/-- `close` takes descriptor `fd` from process `k`; where it is free, `Sh.close`
leaves the table as it is. -/
theorem close_procs (s : System σ) (k fd j : Nat) :
    (s.close k fd).procs j =
      if j = k then { s.procs k with fds := Sh.close (s.procs k).fds fd } else s.procs j := by
  unfold System.close
  cases found : (s.procs k).fd fd with
  | none =>
    have same : Sh.close (s.procs k).fds fd = (s.procs k).fds := by
      unfold Sh.close
      split
      · rename_i lt
        apply Function.update_eq_self_iff.mpr
        simpa [Proc.fd, lt] using found.symm
      · rfl
    dsimp only
    split
    · subst_vars
      rw [same]
    · rfl
  | some c =>
    dsimp only
    split <;> simp

@[simp] theorem close_count (s : System σ) (k fd : Nat) : (s.close k fd).count = s.count := by
  rcases close_cases s k fd with same | ⟨c, same | same⟩ <;> rw [same] <;> simp

@[simp] theorem close_npipes (s : System σ) (k fd : Nat) : (s.close k fd).npipes = s.npipes := by
  rcases close_cases s k fd with same | ⟨c, same | same⟩ <;> rw [same] <;> simp

@[simp] theorem close_console (s : System σ) (k fd : Nat) : (s.close k fd).console = s.console := by
  -- `rw` closes the case where nothing changes
  rcases close_cases s k fd with same | ⟨c, same | same⟩ <;> rw [same]
  · rfl
  · cases c <;> rfl

@[simp] theorem close_calls (s : System σ) (k fd n : Nat) : ((s.close k fd).pipes n).calls = (s.pipes n).calls := by
  rcases close_cases s k fd with same | ⟨c, same | same⟩ <;> rw [same]
  · rfl
  · exact (release_records _ c n).1

@[simp] theorem close_taken (s : System σ) (k fd n : Nat) : ((s.close k fd).pipes n).taken = (s.pipes n).taken := by
  rcases close_cases s k fd with same | ⟨c, same | same⟩ <;> rw [same]
  · rfl
  · exact (release_records _ c n).2.1

@[simp] theorem close_writer (s : System σ) (k fd n : Nat) :
    ((s.close k fd).pipes n).writer = (s.pipes n).writer := by
  rcases close_cases s k fd with same | ⟨c, same | same⟩ <;> rw [same]
  · rfl
  · exact (release_records _ c n).2.2

/-! ### `dup` -/

@[simp] theorem dup_procs (s : System σ) (k fd j : Nat) :
    (s.dup k fd).procs j = if j = k then { s.procs k with fds := Sh.dup (s.procs k).fds fd } else s.procs j :=
  setProc_procs s k _ j

@[simp] theorem dup_count (s : System σ) (k fd : Nat) : (s.dup k fd).count = s.count := rfl

@[simp] theorem dup_pipes (s : System σ) (k fd : Nat) : (s.dup k fd).pipes = s.pipes := rfl

@[simp] theorem dup_npipes (s : System σ) (k fd : Nat) : (s.dup k fd).npipes = s.npipes := rfl

@[simp] theorem dup_console (s : System σ) (k fd : Nat) : (s.dup k fd).console = s.console := rfl

/-! ### `pipe` -/

/-- `pipe(p)` by a process whose descriptors 0, 1 and 2 are open and the others
free: the read end of the new pipe lands on 3 and the write end on 4. -/
theorem pipe_standard {s : System σ} {k : Nat} {env : Nat → Option Chan} (fds : (s.procs k).fds = toFds env)
    (standard : Sh.Standard env) :
    s.pipe k = some ({ s.setProc k (fun p => { p with fds := toFds (Function.update
        (Function.update env 3 (some (.pipeRead s.npipes))) 4 (some (.pipeWrite s.npipes))) }) with
      pipes := Function.update s.pipes s.npipes newPipe, npipes := s.npipes + 1 }, 3, 4) := by
  unfold System.pipe
  rw [fds, Sh.pipe_toFds standard]

/-! ### `read`, `write`, `resume` -/

/-- A `read` of a pipe's read end that returns: what `piperead` copied is added to
what was taken. -/
theorem read_pipeRead {s s' : System σ} {k fd n m : Nat} {ret : Int} {bytes : List UInt8}
    (found : (s.procs k).fd fd = some (.pipeRead m)) (red : s.read k fd n = some (ret, bytes, s')) :
    ∃ pi, piperead (s.pipes m).pipe false (List.replicate n true) = (.returns ret, pi, bytes) ∧
      s' = s.setPipe m fun r => { r with pipe := pi, taken := r.taken ++ bytes } := by
  unfold System.read at red
  rw [found] at red
  dsimp only at red
  split at red
  · cases red
  · rename_i ret' pi bytes' result
    simp only [Option.some.injEq, Prod.mk.injEq] at red
    obtain ⟨rfl, rfl, rfl⟩ := red
    exact ⟨pi, result, rfl⟩

/-- A `read` of a pipe returns the number of bytes it copied: every copy succeeds. -/
theorem read_pipeRead_length {s s' : System σ} {k fd n m : Nat} {ret : Int} {bytes : List UInt8}
    (found : (s.procs k).fd fd = some (.pipeRead m)) (red : s.read k fd n = some (ret, bytes, s')) :
    ret = bytes.length := by
  obtain ⟨pi, result, -⟩ := read_pipeRead found red
  by_cases waits : (s.pipes m).pipe.nread = (s.pipes m).pipe.nwrite ∧ (s.pipes m).pipe.writeopen = true
  · simp [piperead, waits] at result
  · rw [piperead_copy _ waits] at result
    obtain ⟨-, -, -, -, counted⟩ := pipereadCopy_counts (List.replicate n true) (s.pipes m).pipe 0
    simp only [Prod.mk.injEq, Stop.returns.injEq] at result
    obtain ⟨rfl, -, rfl⟩ := result
    rcases counted with all | ⟨-, -, failed⟩
    · omega
    · simp [List.getElem?_replicate] at failed

/-- A `read` changes no process. -/
theorem read_procs {s s' : System σ} {k fd n : Nat} {ret : Int} {bytes : List UInt8}
    (red : s.read k fd n = some (ret, bytes, s')) : s'.procs = s.procs ∧ s'.count = s.count := by
  unfold System.read at red
  split at red
  · split at red
    · cases red
    · cases red
      exact ⟨rfl, rfl⟩
  · cases red
  · cases red
    exact ⟨rfl, rfl⟩

/-- A `read` of a pipe's read end whose `piperead` returns does not sleep. -/
theorem read_pipeRead_returns {s : System σ} {k fd n m : Nat} {ret : Int}
    (found : (s.procs k).fd fd = some (.pipeRead m))
    (returns : (piperead (s.pipes m).pipe false (List.replicate n true)).1 = .returns ret) :
    ∃ bytes s', s.read k fd n = some (ret, bytes, s') := by
  unfold System.read
  rw [found]
  dsimp only
  generalize piperead (s.pipes m).pipe false (List.replicate n true) = result at returns ⊢
  obtain ⟨stop, pi, bytes⟩ := result
  dsimp only at returns
  subst returns
  exact ⟨bytes, _, rfl⟩

/-- A `write` of a pipe's write end with no call in progress begins one. -/
theorem write_pipeWrite {s : System σ} {k fd m : Nat} (found : (s.procs k).fd fd = some (.pipeWrite m))
    (idle : (s.pipes m).writer = none) (bytes : List UInt8) :
    s.write k fd bytes = some ((pipewrite (fun _ => false) (s.pipes m).pipe 0 (bytes.map some)).1,
      s.setPipe m fun _ => { s.pipes m with calls := (s.pipes m).calls ++ [bytes] }.writerStretch bytes 0) := by
  unfold System.write
  rw [found]
  simp [idle]

/-- A `write` of the console appends its bytes and returns their number. -/
theorem write_inherited {s : System σ} {k fd i : Nat} (found : (s.procs k).fd fd = some (.inherited i))
    (bytes : List UInt8) :
    s.write k fd bytes = some (.returns bytes.length, { s with console := s.console ++ bytes }) := by
  unfold System.write
  rw [found]

theorem resume_pipeWrite {s s' : System σ} {k fd m : Nat} {stop : Stop}
    (found : (s.procs k).fd fd = some (.pipeWrite m)) (resumed : s.resume k fd = some (stop, s')) :
    ∃ record i, (s.pipes m).writer = some (record, i) ∧
      stop = (pipewrite (fun _ => false) (s.pipes m).pipe i ((record.drop i).map some)).1 ∧ stop ≠ .sleeps i ∧
      s' = s.setPipe m fun r => r.writerStretch record i := by
  unfold System.resume at resumed
  split at resumed
  · rename_i m' found'
    obtain rfl : m' = m := by simpa [found] using found'.symm
    split at resumed
    · rename_i record i waiting
      dsimp only at resumed
      split at resumed
      · cases resumed
      · rename_i awake
        simp only [Option.some.injEq, Prod.mk.injEq] at resumed
        obtain ⟨rfl, rfl⟩ := resumed
        exact ⟨record, i, waiting, rfl, awake, rfl⟩
    · cases resumed
  · cases resumed

/-- A woken `write` whose stretch does not sleep again at once returns from
`resume`. -/
theorem resume_pipeWrite_awake {s : System σ} {k fd m : Nat} {record : List UInt8} {i : Nat}
    (found : (s.procs k).fd fd = some (.pipeWrite m)) (waiting : (s.pipes m).writer = some (record, i))
    (awake : (pipewrite (fun _ => false) (s.pipes m).pipe i ((record.drop i).map some)).1 ≠ .sleeps i) :
    ∃ r, s.resume k fd = some r := by
  unfold System.resume
  rw [found]
  simp only [waiting, awake, if_false]
  exact ⟨_, rfl⟩

@[simp] theorem writerStretch_calls (w : Records) (record : List UInt8) (i : Nat) :
    (w.writerStretch record i).calls = w.calls := rfl

@[simp] theorem writerStretch_taken (w : Records) (record : List UInt8) (i : Nat) :
    (w.writerStretch record i).taken = w.taken := rfl

/-- A `write` changes no process and takes nothing from a pipe. -/
theorem write_frame {s s' : System σ} {k fd : Nat} {bytes : List UInt8} {stop : Stop}
    (wrote : s.write k fd bytes = some (stop, s')) :
    s'.procs = s.procs ∧ s'.count = s.count ∧ ∀ n, (s'.pipes n).taken = (s.pipes n).taken := by
  unfold System.write at wrote
  split at wrote
  · rename_i m _
    split at wrote
    · cases wrote
      refine ⟨rfl, rfl, fun n => ?_⟩
      by_cases same : n = m <;> simp [same]
    · cases wrote
  · cases wrote
    exact ⟨rfl, rfl, fun _ => rfl⟩
  · cases wrote
    exact ⟨rfl, rfl, fun _ => rfl⟩

/-- A woken `write` changes no process and takes nothing from a pipe. -/
theorem resume_frame {s s' : System σ} {k fd : Nat} {stop : Stop} (resumed : s.resume k fd = some (stop, s')) :
    s'.procs = s.procs ∧ s'.count = s.count ∧ ∀ n, (s'.pipes n).taken = (s.pipes n).taken := by
  unfold System.resume at resumed
  split at resumed
  · rename_i m _
    split at resumed
    · dsimp only at resumed
      split at resumed
      · cases resumed
      · cases resumed
        refine ⟨rfl, rfl, fun n => ?_⟩
        by_cases same : n = m <;> simp [same]
    · cases resumed
  · cases resumed

/-- The call in progress after a stretch: none once it returns, asleep where it
slept otherwise. -/
theorem writerStretch_writer (w : Records) (record : List UInt8) (i : Nat) :
    (w.writerStretch record i).writer =
      match (pipewrite (fun _ => false) w.pipe i ((record.drop i).map some)).1 with
      | .sleeps j => some (record, j)
      | .returns _ => none := rfl

/-! ### `wait`, `exitStep` -/

/-- `wait` that returns: a ZOMBIE child freed, or no child at all. -/
theorem wait_some {s s' : System σ} {k : Nat} {ret : Int} (waited : s.wait k = some (ret, s')) :
    (∃ j < s.count, (s.procs j).parent = some k ∧ (s.procs j).life.isZombie = true ∧ ret = j ∧
        s' = s.setProc j fun p => { p with life := .freed, parent := none }) ∨
      (∀ j < s.count, (s.procs j).parent ≠ some k) ∧ ret = -1 ∧ s' = s := by
  unfold System.wait at waited
  split at waited
  · rename_i j found
    simp only [Option.some.injEq, Prod.mk.injEq] at waited
    obtain ⟨rfl, rfl⟩ := waited
    have picked := List.find?_some found
    have within := List.mem_range.mp (List.mem_of_find?_eq_some found)
    simp only [Bool.and_eq_true, decide_eq_true_eq] at picked
    exact .inl ⟨j, within, picked.1, picked.2, rfl, rfl⟩
  · split at waited
    · cases waited
    · rename_i none
      simp only [Option.some.injEq, Prod.mk.injEq] at waited
      obtain ⟨rfl, rfl⟩ := waited
      exact .inr ⟨fun j lt parent => none ⟨j, lt, parent⟩, rfl, rfl⟩

/-- A process with a ZOMBIE child does not sleep in `wait`. -/
theorem wait_of_zombie {s : System σ} {k j : Nat} (lt : j < s.count) (parent : (s.procs j).parent = some k)
    (zombie : (s.procs j).life.isZombie = true) : ∃ r, s.wait k = some r := by
  unfold System.wait
  split
  · exact ⟨_, rfl⟩
  · rename_i none
    have found := List.find?_eq_none.mp none j (List.mem_range.mpr lt)
    simp [parent, zombie] at found

theorem exitStep_lt (s : System σ) (k : Nat) (status : Int) {fd : Nat} (lt : fd < nOFile) :
    s.exitStep k status fd = (s.close k fd).setProc k fun p => { p with life := .exiting status (fd + 1) } := by
  rw [System.exitStep, if_pos lt]

/-- Past the last descriptor the process is a ZOMBIE; with no child left, nothing
else changes. -/
theorem exitStep_ge (s : System σ) (k : Nat) (status : Int) {fd : Nat} (ge : ¬fd < nOFile) :
    s.exitStep k status fd =
      { s with procs := fun j => if j = k then { s.procs k with life := .zombie status }
                                 else if (s.procs j).parent = some k then { s.procs j with parent := none }
                                 else s.procs j } := by
  rw [System.exitStep, if_neg ge]

@[simp] theorem exitStep_count (s : System σ) (k : Nat) (status : Int) (fd : Nat) :
    (s.exitStep k status fd).count = s.count := by
  unfold System.exitStep
  split <;> simp

@[simp] theorem exitStep_taken (s : System σ) (k : Nat) (status : Int) (fd n : Nat) :
    ((s.exitStep k status fd).pipes n).taken = (s.pipes n).taken := by
  unfold System.exitStep
  split <;> simp

/-! ### `step` -/

theorem step_running (run : Nat → System σ → σ → Option (System σ)) {s : System σ} {k : Nat}
    (lt : k < s.count)
    (running : (s.procs k).life = .running) : s.step run k = run k s (s.procs k).pc := by
  simp [System.step, lt, running]

theorem step_exiting (run : Nat → System σ → σ → Option (System σ)) {s : System σ} {k : Nat}
    (lt : k < s.count) {status : Int} {fd : Nat} (exiting : (s.procs k).life = .exiting status fd) :
    s.step run k = some (s.exitStep k status fd) := by
  simp [System.step, lt, exiting]

end Xv6.Pipes.System
