import Xv6.User.PrimesOutput

/-!
Contract: `primes` does not deadlock. While `main` runs, some process can take a
step (`reachable_progress`); so a run in which no process can go on is one where
`main` has exited, and the console then holds every line
(`reachable_stuck_console`).

A running process that cannot step is at one of three calls: `wait` with no
ZOMBIE child, a `read` of an empty pipe whose write end is open, or a `write`
asleep on a full pipe. The last process that runs is never asleep in `write`:
its child is done, so it no longer holds the write end; its `wait` finds its
child a ZOMBIE; and a `read` of it that sleeps leads down the pipeline to a
writer that can go on, since the pipe it would fill is empty.

Owns: `Pc.mayBlock`.
-/

namespace Xv6.Primes

open Xv6.Pipes Xv6.Sh

/-- The lines where a running process may be unable to go on: `wait`, a read of
its input, and a write asleep on a full pipe. -/
def Pc.mayBlock : Pc → Bool
  | .wait | .readPrime | .filter .. | .mainWrite .. | .sieveWrite .. => true
  | _ => false

/-! ### Who holds the write end of a pipe -/

theorem home_ne_pipeWrite (j fd m : Nat) : home j fd ≠ some (.pipeWrite m) := by
  unfold home shellEnv
  by_cases zero : j = 0 <;> by_cases input : fd = 0 <;> by_cases small : fd < 3 <;>
    simp [zero, input, small]

/-- Only a line of process `m` that holds its write end, and its child before
`close(p[1])`, hold the write end of pipe `m`. -/
theorem envAt_pipeWrite {i m fd : Nat} {pc : Pc} (holds : envAt i pc fd = some (.pipeWrite m)) :
    i = m ∧ pc.holdsWrite = true ∨ m = i - 1 ∧ ∃ p0 p1, pc = .childCloseWrite p0 p1 := by
  have home := home_ne_pipeWrite
  cases pc <;> simp only [envAt, withEnds, Function.update_apply] at holds <;> (try split_ifs at holds) <;>
    simp_all [Pc.holdsWrite]

variable {N : Nat} {s : System Pc}

/-- Who holds the write end of pipe `m`: process `m` at a line that writes it,
or its child before `close(p[1])`. -/
theorem PipelineInv.holder (inv : PipelineInv N s) {m : Nat} (held : s.Held (.pipeWrite m)) :
    Writing (s.procs m) ∨
      (s.procs (m + 1)).life = .running ∧ ∃ p0 p1, (s.procs (m + 1)).pc = .childCloseWrite p0 p1 := by
  obtain ⟨i, lt, fd, found⟩ := held
  have stage := inv.stages i lt
  rw [stage.fds] at found
  change envOf i (s.procs i) fd.val = some (.pipeWrite m) at found
  by_cases running : (s.procs i).life = .running
  · rw [envOf_running running] at found
    rcases envAt_pipeWrite found with ⟨rfl, writes⟩ | ⟨rfl, p0, p1, at_⟩
    · exact .inl ⟨running, writes⟩
    · -- the child of process `i - 1`, which is not `main`
      have ok := stage.run running
      rw [at_] at ok
      obtain ⟨pos, -⟩ := ok
      rw [Nat.sub_add_cancel pos]
      exact .inr ⟨running, p0, p1, at_⟩
  · -- an exiting process is past its loop: its line holds no write end
    have holds : envAt i (s.procs i).pc fd.val = some (.pipeWrite m) := by
      cases life : (s.procs i).life with
      | running => exact absurd life running
      | exiting status f =>
        simp only [envOf, life] at found
        split at found
        · cases found
        · exact found
      | zombie status => simp [envOf, life] at found
      | freed => simp [envOf, life] at found
    rcases stage.done running with ⟨at_, -⟩ | ⟨at_, -⟩ <;> rw [at_] at holds <;>
      rcases envAt_pipeWrite holds with ⟨-, writes⟩ | ⟨-, p0, p1, line⟩
    all_goals first | cases writes | cases line

/-! ### The calls that do not block -/

section Steps

variable {k : Nat} (inv : PipelineInv N s) (lt : k < s.count) (running : (s.procs k).life = .running)
include inv lt running

/-- A running process at a line that cannot block takes its step. -/
theorem PipelineInv.step_of_free (free : (s.procs k).pc.mayBlock = false) :
    ∃ s', s.step (run N) k = some s' := by
  have stage := inv.stages k lt
  have ok := stage.run running
  have fds := stage.fds
  rw [envOf_running running] at fds
  rw [System.step_running _ lt running]
  cases at_ : (s.procs k).pc
  case start =>
    rw [at_] at fds
    simp only [run]
    rw [System.pipe_standard fds (standard_home k)]
    exact ⟨_, rfl⟩
  case mainLoop p1 i =>
    rw [at_] at ok fds
    obtain ⟨-, rfl, -, -, -, idle⟩ := ok
    simp only [run]
    split
    · -- `write` finds no call in progress on the pipe
      have found : (s.procs k).fd 4 = some (.pipeWrite k) := by
        rw [System.fd_toFds fds (by decide)]
        simp [envAt]
      rw [System.write_pipeWrite found idle]
      exact ⟨_, rfl⟩
    · exact ⟨_, rfl⟩
  case test prime num q1 =>
    rw [at_] at ok fds
    obtain ⟨-, rfl, idle, -⟩ := ok
    simp only [run]
    split
    · have found : (s.procs k).fd 4 = some (.pipeWrite k) := by
        rw [System.fd_toFds fds (by decide)]
        simp [envAt]
      rw [System.write_pipeWrite found idle]
      exact ⟨_, rfl⟩
    · exact ⟨_, rfl⟩
  case print prime rest =>
    cases rest with
    | nil => exact ⟨_, rfl⟩
    | cons c rest =>
      rw [at_] at fds
      -- `putc` on the console
      have found : (s.procs k).fd 1 = some (.inherited 1) := by
        rw [System.fd_toFds fds (by decide)]
        simp [envAt]
      simp only [run]
      rw [System.write_inherited found]
      exact ⟨_, rfl⟩
  case sievePipe prime =>
    simp only [run]
    split <;> exact ⟨_, rfl⟩
  case error rest =>
    rw [at_] at ok
    exact ok.elim
  -- the lines that may block are not free; the others step at once
  all_goals first | exact ⟨_, rfl⟩ | (rw [at_] at free; cases free)

/-- A `write` asleep on pipe `k` before its record's first byte is woken once the
pipe is empty. -/
theorem PipelineInv.resume_of_empty (writes : (s.procs k).pc.holdsWrite = true) {x : Nat}
    (waiting : (s.pipes k).writer = some (word x, 0)) (reading : (s.pipes k).pipe.readopen = true)
    (empty : (s.pipes k).stored.length = (s.pipes k).taken.length) : ∃ r, s.resume k 4 = some r := by
  have fds := (inv.stages k lt).fds
  rw [envOf_running running] at fds
  have found : (s.procs k).fd 4 = some (.pipeWrite k) := by
    rw [System.fd_toFds fds (by decide)]
    exact envAt_output k writes
  apply System.resume_pipeWrite_awake found waiting
  -- the record fits in the empty ring
  have room : (s.pipes k).stored.length + (word x).length ≤ (s.pipes k).taken.length + pipeSize := by
    rw [length_word, empty, show pipeSize = 512 from rfl]
    omega
  rw [List.drop_zero, (pipewrite_whole reading (word x) 0 (inv.wholes k).fifo room).1]
  intro asleep
  cases asleep

end Steps

/-! ### Reads -/

/-- A stage at a read of its input reads, or finds its input empty with the
write end open. -/
theorem PipelineInv.read_or_empty (inv : PipelineInv N s) {j : Nat} (lt : j + 1 < s.count)
    (running : (s.procs (j + 1)).life = .running)
    (reads : (s.procs (j + 1)).pc = .readPrime ∨ ∃ prime q1, (s.procs (j + 1)).pc = .filter prime q1) :
    (∃ s', s.step (run N) (j + 1) = some s') ∨ (s.pipes j).pipe.writeopen = true ∧
      (s.pipes j).stored.length = (s.pipes j).taken.length ∧ (s.pipes j).pipe.readopen = true := by
  have stage := inv.stages (j + 1) lt
  have fds := stage.fds
  rw [envOf_running running] at fds
  have awake : ¬AtEof (s.procs (j + 1)) := by
    rintro (stopped | past)
    · exact stopped running
    · rcases reads with at_ | ⟨prime, q1, at_⟩ <;> rw [at_] at past <;> cases past
  have found : (s.procs (j + 1)).fd 0 = some (.pipeRead j) := by
    rw [System.fd_toFds fds (by decide)]
    rcases reads with at_ | ⟨prime, q1, at_⟩ <;> rw [at_] <;> simpa [envAt] using home_zero (Nat.succ_pos j)
  have reading := (inv.refs.readopen j).mpr (stage.holds_input lt awake)
  obtain ⟨m, g, -, -, stored, taken, -, outcome⟩ := (inv.wholes j).read (by decide) reading
  -- the read returns unless the ring is empty with the write end open
  have returns : ∀ ret, (piperead (s.pipes j).pipe false (List.replicate 4 true)).1 = .returns ret →
      ∃ s', s.step (run N) (j + 1) = some s' := by
    intro ret returned
    obtain ⟨bytes, s₁, red⟩ := System.read_pipeRead_returns found returned
    rw [System.step_running _ lt running]
    rcases reads with at_ | ⟨prime, q1, at_⟩ <;> rw [at_] <;> simp only [run] <;> rw [red] <;> exact ⟨_, rfl⟩
  rcases outcome with ⟨-, same, opened⟩ | ⟨eof, -, -⟩ | ⟨-, record, -⟩
  · exact .inr ⟨opened, by rw [stored, taken, same], reading⟩
  · exact .inl (returns 0 (by rw [eof]))
  · exact .inl (returns 4 record)

/-- A stage at a read of its input, or a process before it, can step: a read
that would sleep finds its writer holding the write end of an empty pipe, so the
writer is not asleep in `write`, and if it reads itself the same holds of it. -/
theorem PipelineInv.progress_of_reader (inv : PipelineInv N s) :
    ∀ j, j < s.count → (s.procs j).life = .running →
      ((s.procs j).pc = .readPrime ∨ ∃ prime q1, (s.procs j).pc = .filter prime q1) →
      ∃ k s', s.step (run N) k = some s' := by
  intro j
  induction j with
  | zero =>
    intro lt running reads
    -- `main` reads nothing
    have ok := (inv.stages 0 lt).run running
    rcases reads with at_ | ⟨prime, q1, at_⟩ <;> rw [at_] at ok
    · exact absurd ok.1 (Nat.lt_irrefl 0)
    · exact absurd ok.1 (Nat.lt_irrefl 0)
  | succ j ih =>
    intro lt running reads
    rcases inv.read_or_empty lt running reads with stepped | ⟨opened, empty, reading⟩
    · exact ⟨j + 1, stepped⟩
    have lt' : j < s.count := by omega
    -- the write end is held by the writer: the reader is past `close(p[1])`
    rcases inv.holder ((inv.refs.writeopen j).mp opened) with ⟨running', writes⟩ | ⟨-, p0, p1, at_⟩
    · by_cases free : (s.procs j).pc.mayBlock = false
      · exact ⟨j, inv.step_of_free lt' running' free⟩
      have ok := (inv.stages j lt').run running'
      cases at_ : (s.procs j).pc <;> rw [at_] at free writes ok <;>
        simp only [Pc.mayBlock, Pc.holdsWrite, not_true_eq_false, Bool.false_eq_true] at free writes
      case mainWrite p1 i =>
        obtain ⟨-, rfl, -, -, -, waiting⟩ := ok
        obtain ⟨r, resumed⟩ := inv.resume_of_empty lt' running' (by rw [at_]; rfl) waiting reading empty
        refine ⟨j, ?_⟩
        rw [System.step_running _ lt' running', at_]
        simp only [run]
        rw [resumed]
        exact ⟨_, rfl⟩
      case sieveWrite prime q1 =>
        obtain ⟨-, rfl, m, rest, g, x, -, -, -, -, -, -, waiting⟩ := ok
        obtain ⟨r, resumed⟩ := inv.resume_of_empty lt' running' (by rw [at_]; rfl) waiting reading empty
        refine ⟨j, ?_⟩
        rw [System.step_running _ lt' running', at_]
        simp only [run]
        rw [resumed]
        exact ⟨_, rfl⟩
      case filter prime q1 => exact ih lt' running' (.inr ⟨prime, q1, at_⟩)
    · rcases reads with reads | ⟨prime, q1, reads⟩ <;> rw [reads] at at_ <;> cases at_

/-! ### Progress -/

/-- A running process whose child, if it made one, is done: it steps, or a
process before it does. Asleep in `write` it is not, since its child no longer
reads; at `wait` it finds its child a ZOMBIE. -/
theorem PipelineInv.progress_last (inv : PipelineInv N s) {i : Nat} (lt : i < s.count)
    (running : (s.procs i).life = .running)
    (child : i + 1 < s.count → (s.procs (i + 1)).life = .freed ∨ (s.procs (i + 1)).life.isZombie = true) :
    ∃ k s', s.step (run N) k = some s' := by
  by_cases free : (s.procs i).pc.mayBlock = false
  · exact ⟨i, inv.step_of_free lt running free⟩
  have made := (inv.stages i lt).made
  have stopped : i + 1 < s.count → (s.procs (i + 1)).life ≠ .running := by
    intro inside running'
    rcases child inside with freed | zombie
    · rw [freed] at running'
      cases running'
    · rw [running'] at zombie
      cases zombie
  cases at_ : (s.procs i).pc <;> rw [at_] at free made <;> simp only [Pc.mayBlock, Made, not_true_eq_false] at free made
  case readPrime => exact inv.progress_of_reader i lt running (.inl at_)
  case filter prime q1 => exact inv.progress_of_reader i lt running (.inr ⟨prime, q1, at_⟩)
  case wait =>
    rcases child (by omega) with freed | zombie
    · exact absurd ((inv.linked i (by omega)).freed.mp freed).2 (not_not.mpr running)
    · have kept : (s.procs (i + 1)).life ≠ .freed := fun freed => by
        rw [freed] at zombie
        cases zombie
      have parent : (s.procs (i + 1)).parent = some i := by
        simp [(inv.stages (i + 1) (by omega)).parent, kept]
      obtain ⟨r, waited⟩ := System.wait_of_zombie (by omega) parent zombie
      refine ⟨i, ?_⟩
      rw [System.step_running _ lt running, at_]
      simp only [run]
      rw [waited]
      exact ⟨_, rfl⟩
  case mainWrite p1 j =>
    have idle := (inv.linked i (by omega)).eof (.inl (stopped (by omega)))
    exact absurd ⟨running, by rw [at_]; rfl⟩ idle
  case sieveWrite prime q1 =>
    have idle := (inv.linked i (by omega)).eof (.inl (stopped (by omega)))
    exact absurd ⟨running, by rw [at_]; rfl⟩ idle

/-- **No deadlock.** While some process runs, some process can step. -/
theorem PipelineInv.progress (inv : PipelineInv N s) {i : Nat} (lt : i < s.count)
    (running : (s.procs i).life = .running) : ∃ k s', s.step (run N) k = some s' := by
  -- induction on the number of processes after `i`
  obtain ⟨d, last⟩ : ∃ d, i + d + 1 = s.count := ⟨s.count - i - 1, by omega⟩
  induction d generalizing i with
  | zero => exact inv.progress_last lt running fun child => by omega
  | succ d ih =>
    have child : i + 1 < s.count := by omega
    cases life : (s.procs (i + 1)).life with
    | running => exact ih child life (by omega)
    | exiting status fd => exact ⟨i + 1, _, System.step_exiting _ child life⟩
    | zombie status => exact inv.progress_last lt running fun _ => .inr (by rw [life]; rfl)
    | freed => exact inv.progress_last lt running fun _ => .inl life

/-! ### Every run -/

section Runs

variable {w : World}

/-- **No deadlock.** In every run in which each `fork` and `pipe` succeeds, some
process can take a step as long as `main` runs. -/
theorem reachable_progress (bound : N < 2 ^ 31) (reach : Reachable N w) (ok : w.failed = false)
    (main : (w.sys.procs 0).life = .running) : ∃ k w', step N w (.run k) = some w' := by
  have inv := (reach.good bound).resolve_left (by simp [ok])
  obtain ⟨k, s', stepped⟩ := inv.progress inv.count_pos main
  exact ⟨k, { w with sys := s' }, by simp [step, stepped]⟩

set_option maxRecDepth 4000 in
/-- `main` has filled pipe 0 with `2, …, 129` and sleeps writing 130, and stage 1
has read nothing yet: `main` cannot step, but some process can. -/
theorem reachable_progress_full :
    let w := (Machine.run (step sourceLimit) boot (List.replicate 132 (.run 0))).getD boot
    Reachable sourceLimit w ∧ w.failed = false ∧ (w.sys.procs 0).life = .running ∧
      step sourceLimit w (.run 0) = none ∧ ∃ k w', step sourceLimit w (.run k) = some w' := by
  intro w
  have ran : Machine.run (step sourceLimit) boot (List.replicate 132 (.run 0)) = some w := rfl
  have reach : Reachable sourceLimit w := Machine.reachable_of_run Relation.ReflTransGen.refl ran
  have main : (w.sys.procs 0).life = .running := rfl
  exact ⟨reach, rfl, main, rfl, reachable_progress (by decide) reach rfl main⟩

/-- **A run that stops has printed every prime.** In a run in which each `fork`
and `pipe` succeeds, a state from which no event can happen has all the lines
`prime p` on the console. -/
theorem reachable_stuck_console (bound : N < 2 ^ 31) (reach : Reachable N w) (ok : w.failed = false)
    (stuck : ∀ e, step N w e = none) : w.sys.console = expected N := by
  have inv := (reach.good bound).resolve_left (by simp [ok])
  apply inv.console_done
  intro main
  obtain ⟨k, s', stepped⟩ := inv.progress inv.count_pos main
  have none := stuck (.run k)
  simp [step, stepped] at none

/-- The whole run up to 2 stops with `main` a ZOMBIE and its children freed. -/
theorem reachable_stuck_console_two :
    let w := (Machine.run (step 2) boot (List.replicate 5 (.run 0) ++ List.replicate 19 (.run 1) ++
      List.replicate 22 (.run 2) ++ List.replicate 18 (.run 1) ++ List.replicate 18 (.run 0))).getD boot
    Reachable 2 w ∧ w.failed = false ∧ (∀ e, step 2 w e = none) ∧ w.sys.console = expected 2 := by
  intro w
  have ran : Machine.run (step 2) boot (List.replicate 5 (.run 0) ++ List.replicate 19 (.run 1) ++
      List.replicate 22 (.run 2) ++ List.replicate 18 (.run 1) ++ List.replicate 18 (.run 0)) = some w := rfl
  have reach : Reachable 2 w := Machine.reachable_of_run Relation.ReflTransGen.refl ran
  have count : w.sys.count = 3 := rfl
  -- no process runs or exits: each of the three is done, and there are no others
  have stuck : ∀ e, step 2 w e = none := by
    intro e
    cases e with
    | run k =>
      by_cases small : k < 3
      · interval_cases k <;> rfl
      · simp [step, System.step, count, small]
    | fail k =>
      by_cases small : k < 3
      · interval_cases k <;> rfl
      · simp [step, count, small]
  exact ⟨reach, rfl, stuck, reachable_stuck_console (by decide) reach rfl stuck⟩

end Runs

end Xv6.Primes
