import Xv6.User.Primes
import Xv6.Pipe.Calls
import Xv6.Lib.Sieve

/-!
Contract: the invariant of `primes` over every interleaving of its processes, while
every `fork` and `pipe` succeeds, and the frame lemmas its step lemmas use.

Stage `j + 1`, the process that process `j` forks, reads pipe `j` and writes pipe
`j + 1`; `main`, process `0`, writes pipe `0`. In every reachable state each
process holds the descriptors of its line of the source (`envOf`), the processes
and pipes made are those its line has seen made (`Made`), pipe `j` has been sent
the first numbers of `Sieve.stream N j` as 4-byte records and stage `j + 1` has
taken the first of them (`RunOk`, `DoneOk`), a stage sees end of file only once
its writer is done with the write end and is freed exactly when its parent has
waited for it (`Linked`), and the console holds what the stages have printed, in
stage order (`consoleOf`).

Owns: `word`, `words`, `passed`, `home`, `withEnds`, `envAt`, `envOf`, `Made`,
`Drained`, `RunOk`, `DoneOk`, `Pc.holdsWrite`, `Pc.pastEof`, `Writing`, `AtEof`,
`printed`, `lineOf`, `consoleOf`, `inputTaken`, `StageOk`, `Linked`,
`PipelineInv`.
-/

namespace Xv6.Primes

open Xv6.Pipes Xv6.Sh

/-- The record `write(fd, &x, sizeof(int))` sends for a number `x`. -/
def word (x : Nat) : List UInt8 :=
  intBytes (BitVec.ofNat 32 x)

def words (xs : List Nat) : List (List UInt8) :=
  xs.map word

/-- What a stage whose first number is `m` passes on of the numbers after it. -/
def passed (m : Nat) (rest : List Nat) : List Nat :=
  rest.filter fun x => x % m ≠ 0

/-! ### The descriptors of each line -/

/-- Descriptors 0, 1 and 2 of process `j`: the console, with the stage's input,
pipe `j - 1`, on 0. -/
def home (j : Nat) : Nat → Option Chan :=
  if j = 0 then shellEnv else Function.update shellEnv 0 (some (.pipeRead (j - 1)))

/-- Both ends of pipe `n` on 3 and 4. -/
def withEnds (n : Nat) (env : Nat → Option Chan) : Nat → Option Chan :=
  Function.update (Function.update env 3 (some (.pipeRead n))) 4 (some (.pipeWrite n))

/-- The descriptors process `j` has at `pc` while it runs. -/
def envAt (j : Nat) : Pc → Nat → Option Chan
  | .start | .wait | .readPrime | .print .. | .sievePipe _ | .error _ => home j
  | .mainFork .. | .mainClose .. | .sieveFork .. | .sieveClose .. => withEnds j (home j)
  | .mainLoop .. | .mainWrite .. | .filter .. | .test .. | .sieveWrite .. | .sieveDone _ =>
    Function.update (home j) 4 (some (.pipeWrite j))
  -- the child of process `j - 1`, from the descriptors its parent had at `fork`
  | .childCloseWrite .. => withEnds (j - 1) (home (j - 1))
  | .childCloseInput _ => Function.update (home (j - 1)) 3 (some (.pipeRead (j - 1)))
  | .childDup _ => Function.update (Function.update (home (j - 1)) 3 (some (.pipeRead (j - 1)))) 0 none
  | .childCloseRead _ => Function.update (home j) 3 (some (.pipeRead (j - 1)))

/-- The descriptors of process `j`: those of its line while it runs, those `exit`
has not closed yet, none once it is a ZOMBIE. -/
def envOf (j : Nat) (p : Proc Pc) : Nat → Option Chan :=
  match p.life with
  | .running => envAt j p.pc
  | .exiting _ fd => fun i => if i < fd then none else envAt j p.pc i
  | .zombie _ | .freed => fun _ => none

/-! ### What each process has made, read and sent -/

/-- The processes (`count`) and pipes (`npipes`) made when process `j` is at `pc`:
up to its own until it forks, and its child's once it has. -/
def Made (j count npipes : Nat) : Pc → Prop
  | .start | .childCloseWrite .. | .childCloseInput _ | .childDup _ | .childCloseRead _ | .readPrime
  | .print .. | .sievePipe _ | .error _ => count = j + 1 ∧ npipes = j
  | .mainFork .. | .sieveFork .. => count = j + 1 ∧ npipes = j + 1
  | .mainClose .. | .mainLoop .. | .mainWrite .. | .wait | .sieveClose .. | .filter .. | .test ..
  | .sieveWrite .. | .sieveDone _ => j + 2 ≤ count ∧ j < npipes

/-- Process `j` past its loop: a stage has read all of its input, and all it
passes on has been sent. -/
def Drained (N j : Nat) (taken : List UInt8) (calls : List (List UInt8)) (writer : Option (List UInt8 × Nat)) :
    Prop :=
  (j = 0 ∨ Sieve.stream N (j - 1) ≠ [] ∧ taken = (words (Sieve.stream N (j - 1))).flatten) ∧
    calls = words (Sieve.stream N j) ∧ writer = none

/-- Where process `j` is while it runs, against the records it has taken from pipe
`j - 1` (`taken`) and sent to pipe `j` (`calls`, with the call in progress
`writer`). -/
def RunOk (N j : Nat) (taken : List UInt8) (calls : List (List UInt8)) (writer : Option (List UInt8 × Nat)) :
    Pc → Prop
  | .start => j = 0
  | .mainFork p0 p1 | .mainClose p0 p1 => j = 0 ∧ p0 = 3 ∧ p1 = 4 ∧ calls = [] ∧ writer = none
  | .mainLoop p1 i =>
    j = 0 ∧ p1 = 4 ∧ 2 ≤ i ∧ i - 2 ≤ N - 1 ∧ calls = words ((Sieve.stream N 0).take (i - 2)) ∧
      writer = none
  | .mainWrite p1 i =>
    j = 0 ∧ p1 = 4 ∧ 2 ≤ i ∧ i ≤ N ∧ calls = words ((Sieve.stream N 0).take (i - 1)) ∧
      writer = some (word i, 0)
  | .wait => Drained N j taken calls writer
  | .childCloseWrite p0 p1 => 0 < j ∧ p0 = 3 ∧ p1 = 4 ∧ taken = []
  | .childCloseInput p0 | .childDup p0 | .childCloseRead p0 => 0 < j ∧ p0 = 3 ∧ taken = []
  | .readPrime => 0 < j ∧ taken = []
  | .print prime rest =>
    0 < j ∧ rest <:+ primeLine prime ∧
      ∃ m, (Sieve.stream N (j - 1)).head? = some m ∧ prime = BitVec.ofNat 32 m ∧ taken = word m
  | .sievePipe prime =>
    0 < j ∧ ∃ m, (Sieve.stream N (j - 1)).head? = some m ∧ prime = BitVec.ofNat 32 m ∧ taken = word m
  | .sieveFork prime q0 q1 | .sieveClose prime q0 q1 =>
    0 < j ∧ q0 = 3 ∧ q1 = 4 ∧ calls = [] ∧ writer = none ∧
      ∃ m, (Sieve.stream N (j - 1)).head? = some m ∧ prime = BitVec.ofNat 32 m ∧ taken = word m
  | .filter prime q1 =>
    0 < j ∧ q1 = 4 ∧ writer = none ∧ ∃ m rest g, Sieve.stream N (j - 1) = m :: rest ∧
      prime = BitVec.ofNat 32 m ∧ g ≤ rest.length ∧ taken = (words (m :: rest.take g)).flatten ∧
      calls = words (passed m (rest.take g))
  | .test prime num q1 =>
    0 < j ∧ q1 = 4 ∧ writer = none ∧ ∃ m rest g x, Sieve.stream N (j - 1) = m :: rest ∧
      prime = BitVec.ofNat 32 m ∧ rest[g]? = some x ∧ num = BitVec.ofNat 32 x ∧
      taken = (words (m :: rest.take (g + 1))).flatten ∧ calls = words (passed m (rest.take g))
  | .sieveWrite prime q1 =>
    0 < j ∧ q1 = 4 ∧ ∃ m rest g x, Sieve.stream N (j - 1) = m :: rest ∧ prime = BitVec.ofNat 32 m ∧
      rest[g]? = some x ∧ x % m ≠ 0 ∧ taken = (words (m :: rest.take (g + 1))).flatten ∧
      calls = words (passed m (rest.take (g + 1))) ∧ writer = some (word x, 0)
  | .sieveDone q1 => 0 < j ∧ q1 = 4 ∧ Drained N j taken calls writer
  | .error _ => False

/-- Where process `j` is once it has called `exit`: past `wait`, or a stage that
read end of file for its first number. -/
def DoneOk (N j : Nat) (taken : List UInt8) (calls : List (List UInt8)) (writer : Option (List UInt8 × Nat))
    (pc : Pc) : Prop :=
  pc = .wait ∧ Drained N j taken calls writer ∨
    pc = .readPrime ∧ 0 < j ∧ Sieve.stream N (j - 1) = [] ∧ taken = []

/-- The lines where a process holds the write end of its own pipe. -/
def Pc.holdsWrite : Pc → Bool
  | .mainFork .. | .mainClose .. | .mainLoop .. | .mainWrite .. | .sieveFork .. | .sieveClose ..
  | .filter .. | .test .. | .sieveWrite .. | .sieveDone _ => true
  | _ => false

/-- The lines past the end of a stage's input. -/
def Pc.pastEof : Pc → Bool
  | .wait | .sieveDone _ => true
  | _ => false

/-- The process runs a line that holds the write end of its pipe. -/
def Writing (p : Proc Pc) : Prop :=
  p.life = .running ∧ p.pc.holdsWrite = true

/-- The stage has read end of file on its input, or called `exit`. -/
def AtEof (p : Proc Pc) : Prop :=
  p.life ≠ .running ∨ p.pc.pastEof = true

/-! ### The console -/

/-- What a stage has printed of its `line` at `pc`. -/
def printed (line : List Char) : Pc → List Char
  | .childCloseWrite .. | .childCloseInput _ | .childDup _ | .childCloseRead _ | .readPrime => []
  | .print _ rest => line.take (line.length - rest.length)
  | _ => line

/-- The line stage `k + 1` prints: the first number it receives. -/
def lineOf (N k : Nat) : List Char :=
  primeLine (BitVec.ofNat 32 ((Sieve.stream N k).headD 0))

/-- What the stages have printed, in stage order. -/
def consoleOf (N : Nat) (s : System Pc) : List UInt8 :=
  ((List.range (s.count - 1)).map fun k => (printed (lineOf N k) (s.procs (k + 1)).pc).map byte).flatten

/-! ### The invariant -/

/-- What process `j` has taken from its input pipe. -/
def inputTaken (s : System Pc) (j : Nat) : List UInt8 :=
  if j = 0 then [] else (s.pipes (j - 1)).taken

/-- What the invariant asks of process `j` alone. -/
structure StageOk (N : Nat) (s : System Pc) (j : Nat) : Prop where
  fds : (s.procs j).fds = toFds (envOf j (s.procs j))
  parent : (s.procs j).parent = if j = 0 ∨ (s.procs j).life = .freed then none else some (j - 1)
  made : Made j s.count s.npipes (s.procs j).pc
  run : (s.procs j).life = .running →
    RunOk N j (inputTaken s j) (s.pipes j).calls (s.pipes j).writer (s.procs j).pc
  done : (s.procs j).life ≠ .running →
    DoneOk N j (inputTaken s j) (s.pipes j).calls (s.pipes j).writer (s.procs j).pc

/-- Between process `k` and its child: the child sees end of file only once `k` is
done with the write end, and is freed exactly when `k` has waited for it. -/
structure Linked (s : System Pc) (k : Nat) : Prop where
  eof : AtEof (s.procs (k + 1)) → ¬Writing (s.procs k)
  freed : (s.procs (k + 1)).life = .freed ↔ (s.procs k).pc = .wait ∧ (s.procs k).life ≠ .running

structure PipelineInv (N : Nat) (s : System Pc) : Prop where
  refs : s.Refs
  wholes : s.Wholes 4
  count_pos : 0 < s.count
  stages : ∀ j < s.count, StageOk N s j
  linked : ∀ k, k + 1 < s.count → Linked s k
  console : s.console = consoleOf N s

/-! ### Records of numbers -/

@[simp] theorem length_word (x : Nat) : (word x).length = 4 := rfl

@[simp] theorem length_words (xs : List Nat) : (words xs).length = xs.length := List.length_map ..

@[simp] theorem words_nil : words [] = [] := rfl

theorem words_append (xs ys : List Nat) : words (xs ++ ys) = words xs ++ words ys := List.map_append ..

theorem sized_words (xs : List Nat) : ∀ r ∈ words xs, r.length = 4 := by
  intro r member
  obtain ⟨x, -, rfl⟩ := List.mem_map.mp member
  rfl

theorem intOfBytes_word (x : Nat) : intOfBytes (word x) = BitVec.ofNat 32 x :=
  intOfBytes_intBytes _

theorem length_flatten_words (xs : List Nat) : (words xs).flatten.length = xs.length * 4 := by
  have whole := length_flatten_take (sized_words xs) (le_refl (words xs).length)
  rwa [List.take_length, length_words] at whole

theorem take_succ_of_getElem? {xs : List Nat} {g x : Nat} (at_ : xs[g]? = some x) :
    xs.take (g + 1) = xs.take g ++ [x] := by
  rw [List.take_add_one, at_, Option.toList_some]

/-- A stage past its first number `m` of `m :: rest` passes on the rest it keeps. -/
theorem stream_of_first {N j m : Nat} {rest : List Nat} (pos : 0 < j)
    (first : Sieve.stream N (j - 1) = m :: rest) : Sieve.stream N j = passed m rest := by
  obtain ⟨i, rfl⟩ : ∃ i, j = i + 1 := ⟨j - 1, by omega⟩
  simp only [Nat.add_sub_cancel] at first
  rw [Sieve.stream, first, Sieve.sift, passed]

/-- What `main` sends: the numbers `2, …, N`, of which the first `i - 2` are sent
before `i`. -/
theorem stream_zero_take_succ {N i : Nat} (two : 2 ≤ i) (le : i ≤ N) :
    (Sieve.stream N 0).take (i - 2) ++ [i] = (Sieve.stream N 0).take (i - 1) := by
  rw [Sieve.stream, show i - 1 = (i - 2) + 1 by omega, List.take_add_one, List.getElem?_range' (by omega)]
  simp only [Option.toList_some]
  congr 2
  omega

theorem stream_zero_take_all (N : Nat) : (Sieve.stream N 0).take (N + 1 - 2) = Sieve.stream N 0 := by
  rw [List.take_of_length_le]
  simp [Sieve.stream]

/-! ### The descriptors of each line -/

@[simp] theorem home_one (j : Nat) : home j 1 = some (.inherited 1) := by
  unfold home
  split <;> simp [shellEnv]

@[simp] theorem home_three (j : Nat) : home j 3 = none := by
  unfold home
  split <;> simp [shellEnv]

@[simp] theorem home_four (j : Nat) : home j 4 = none := by
  unfold home
  split <;> simp [shellEnv]

theorem home_zero {j : Nat} (pos : 0 < j) : home j 0 = some (.pipeRead (j - 1)) := by
  simp [home, Nat.pos_iff_ne_zero.mp pos]

theorem standard_home (j : Nat) : Standard (home j) := by
  unfold home
  split
  · exact standard_shellEnv
  · exact standard_shellEnv.update (by decide) _

/-- Putting the read end of pipe `j` on 0 makes the descriptors of stage `j + 1`. -/
theorem update_home (j : Nat) : Function.update (home j) 0 (some (.pipeRead j)) = home (j + 1) := by
  unfold home
  by_cases zero : j = 0
  · simp [zero]
  · simp [zero, Function.update_idem]

/-- `close(p[0])` after `pipe` and `fork`: the write end stays on 4. -/
theorem withEnds_close_read (n : Nat) {env : Nat → Option Chan} (free : env 3 = none) :
    Function.update (withEnds n env) 3 none = Function.update env 4 (some (.pipeWrite n)) := by
  have restore : Function.update env 3 none = env := Function.update_eq_self_iff.mpr free.symm
  unfold withEnds
  rw [Function.update_comm (by decide : (4 : Nat) ≠ 3), Function.update_idem, restore]

/-- The child's `close(p[1])`: the read end stays on 3. -/
theorem withEnds_close_write (n : Nat) {env : Nat → Option Chan} (free : env 4 = none) :
    Function.update (withEnds n env) 4 none = Function.update env 3 (some (.pipeRead n)) := by
  unfold withEnds
  rw [Function.update_idem]
  apply Function.update_eq_self_iff.mpr
  rw [Function.update_of_ne (by decide : (4 : Nat) ≠ 3), free]

/-- `close` of a descriptor that an update opened gives back what was there before. -/
theorem update_close {env : Nat → Option Chan} {fd : Nat} (free : env fd = none) (c : Option Chan) :
    Function.update (Function.update env fd c) fd none = env := by
  rw [Function.update_idem, Function.update_eq_self_iff.mpr free.symm]

/-- The child's `dup(p[0])` lands on 0, which `close(0)` freed: stage `j`'s
descriptors, with the read end still on 3. -/
theorem childDup_env {j : Nat} (pos : 0 < j) :
    Function.update (envAt j (.childDup 3)) 0 (some (.pipeRead (j - 1))) = envAt j (.childCloseRead 3) := by
  have input := update_home (j - 1)
  rw [Nat.sub_add_cancel pos] at input
  simp only [envAt]
  rw [Function.update_idem, Function.update_comm (by decide : (3 : Nat) ≠ 0), input]

theorem envOf_running {j : Nat} {p : Proc Pc} (running : p.life = .running) : envOf j p = envAt j p.pc := by
  simp [envOf, running]

/-- `exit` has closed nothing yet. -/
theorem envOf_exit (j : Nat) (p : Proc Pc) (status : Int) :
    envOf j { p with life := .exiting status 0 } = envAt j p.pc := by
  funext i
  simp [envOf]

/-- One turn of `exit`'s loop closes descriptor `fd`. -/
theorem envOf_exiting_succ {j : Nat} {p : Proc Pc} {status : Int} {fd : Nat}
    (exiting : p.life = .exiting status fd) :
    Function.update (envOf j p) fd none = envOf j { p with life := .exiting status (fd + 1) } := by
  funext i
  by_cases same : i = fd
  · subst same
    simp [envOf]
  · have below : i < fd + 1 ↔ i < fd := by omega
    simp [envOf, exiting, Function.update_of_ne same, below]

/-- Past the last descriptor `exit` holds none. -/
theorem toFds_envOf_past {j : Nat} {p : Proc Pc} {status : Int} {fd : Nat}
    (exiting : p.life = .exiting status fd) (past : ¬fd < nOFile) : toFds (envOf j p) = toFds fun _ => none := by
  funext i
  have closed : i.val < fd := by omega
  simp [toFds, envOf, exiting, closed]

/-- A running stage holds the read end of its input: on 0, or on 3 before `sieve`. -/
theorem envAt_input (j : Nat) (pc : Pc) : ∃ fd < nOFile, envAt (j + 1) pc fd = some (.pipeRead j) := by
  have zero : home (j + 1) 0 = some (.pipeRead j) := home_zero (Nat.succ_pos j)
  cases pc <;>
    first
    | exact ⟨0, by decide, by simpa [envAt, withEnds] using zero⟩
    | exact ⟨3, by decide, by simp [envAt, withEnds]⟩

/-- A line that holds the write end of the process's pipe holds it on 4. -/
theorem envAt_output (j : Nat) {pc : Pc} (writes : pc.holdsWrite = true) :
    envAt j pc 4 = some (.pipeWrite j) := by
  cases pc <;> simp_all [Pc.holdsWrite, envAt, withEnds]

/-! ### Frames -/

section Frame

variable {N : Nat} {s s' : System Pc}

theorem Made.grow {j count count' npipes npipes' : Nat} {pc : Pc} (made : Made j count npipes pc)
    (reader : j + 2 ≤ count) (more : count ≤ count') (morePipes : npipes ≤ npipes') :
    Made j count' npipes' pc := by
  cases pc <;> simp only [Made] at made ⊢ <;> omega

theorem StageOk.congr {j : Nat} (stage : StageOk N s j) (proc : s'.procs j = s.procs j)
    (taken : inputTaken s' j = inputTaken s j) (calls : (s'.pipes j).calls = (s.pipes j).calls)
    (writer : (s'.pipes j).writer = (s.pipes j).writer) (count : s'.count = s.count)
    (npipes : s'.npipes = s.npipes) : StageOk N s' j where
  fds := by rw [proc]; exact stage.fds
  parent := by rw [proc]; exact stage.parent
  made := by rw [proc, count, npipes]; exact stage.made
  run := by rw [proc, taken, calls, writer]; exact stage.run
  done := by rw [proc, taken, calls, writer]; exact stage.done

/-- A process with a child keeps what it asks as more processes and pipes are made. -/
theorem StageOk.grow {j : Nat} (stage : StageOk N s j) (proc : s'.procs j = s.procs j)
    (taken : inputTaken s' j = inputTaken s j) (calls : (s'.pipes j).calls = (s.pipes j).calls)
    (writer : (s'.pipes j).writer = (s.pipes j).writer) (reader : j + 2 ≤ s.count)
    (count : s.count ≤ s'.count) (npipes : s.npipes ≤ s'.npipes) : StageOk N s' j where
  fds := by rw [proc]; exact stage.fds
  parent := by rw [proc]; exact stage.parent
  made := by rw [proc]; exact stage.made.grow reader count npipes
  run := by rw [proc, taken, calls, writer]; exact stage.run
  done := by rw [proc, taken, calls, writer]; exact stage.done

/-- A step that leaves the process running, with the same parent, at a line whose
descriptors it holds. -/
theorem StageOk.running {k : Nat} (stage : StageOk N s k) (running : (s.procs k).life = .running)
    (life : (s'.procs k).life = .running) (parent : (s'.procs k).parent = (s.procs k).parent)
    (fds : (s'.procs k).fds = toFds (envAt k (s'.procs k).pc)) (made : Made k s'.count s'.npipes (s'.procs k).pc)
    (ok : RunOk N k (inputTaken s' k) (s'.pipes k).calls (s'.pipes k).writer (s'.procs k).pc) :
    StageOk N s' k where
  fds := by rw [envOf_running life]; exact fds
  parent := by rw [parent, stage.parent, life, running]
  made := made
  run _ := ok
  done stopped := absurd life stopped

theorem Linked.congr {i : Nat} (linked : Linked s i) (lo : s'.procs i = s.procs i)
    (hi : s'.procs (i + 1) = s.procs (i + 1)) : Linked s' i where
  eof := by rw [lo, hi]; exact linked.eof
  freed := by rw [lo, hi]; exact linked.freed

/-- A stage that runs before and after a step keeps the link to its writer if it is
past end of file no sooner. -/
theorem Linked.running_reader {i : Nat} (linked : Linked s i) (lo : s'.procs i = s.procs i)
    (running : (s.procs (i + 1)).life = .running) (running' : (s'.procs (i + 1)).life = .running)
    (eof : (s'.procs (i + 1)).pc.pastEof = true → (s.procs (i + 1)).pc.pastEof = true) : Linked s' i where
  eof := by
    rintro (stopped | past)
    · exact absurd running' stopped
    · rw [lo]
      exact linked.eof (.inr (eof past))
  freed := by
    rw [lo, running', ← linked.freed, running]

/-- A writer that runs before and after a step keeps the link to its child if it
holds the write end no more than before. -/
theorem Linked.running_writer {k : Nat} (linked : Linked s k) (hi : s'.procs (k + 1) = s.procs (k + 1))
    (running : (s.procs k).life = .running) (running' : (s'.procs k).life = .running)
    (writes : (s'.procs k).pc.holdsWrite = true → (s.procs k).pc.holdsWrite = true) : Linked s' k where
  eof := by
    rw [hi]
    intro eof writing
    exact linked.eof eof ⟨running, writes writing.2⟩
  freed := by
    rw [hi, linked.freed, running, running']
    simp

/-- A stage that has called `exit` keeps its link to its writer through `exit`'s
steps. -/
theorem Linked.done_reader {i : Nat} (linked : Linked s i) (lo : s'.procs i = s.procs i)
    (done : (s.procs (i + 1)).life ≠ .running)
    (kept : (s.procs (i + 1)).life ≠ .freed) (kept' : (s'.procs (i + 1)).life ≠ .freed) : Linked s' i where
  eof _ := by
    rw [lo]
    exact linked.eof (.inl done)
  freed := by
    rw [lo, ← linked.freed]
    exact ⟨fun freed => absurd freed kept', fun freed => absurd freed kept⟩

theorem Linked.done_writer {k : Nat} (linked : Linked s k) (hi : s'.procs (k + 1) = s.procs (k + 1))
    (done : (s.procs k).life ≠ .running) (done' : (s'.procs k).life ≠ .running)
    (pc : (s'.procs k).pc = (s.procs k).pc) : Linked s' k where
  eof _ writing := done' writing.1
  freed := by
    rw [hi, linked.freed, pc]
    simp [done, done']

end Frame

/-! ### The console -/

section Console

variable {N : Nat} {s s' : System Pc}

theorem consoleOf_congr (count : s'.count = s.count)
    (same : ∀ k, k + 1 < s.count →
      printed (lineOf N k) (s'.procs (k + 1)).pc = printed (lineOf N k) (s.procs (k + 1)).pc) :
    consoleOf N s' = consoleOf N s := by
  unfold consoleOf
  rw [count]
  congr 1
  apply List.map_congr_left
  intro k member
  rw [same k (by simp at member; omega)]

/-- A step of process `k` alone that keeps what it has printed keeps the console's
account. -/
theorem consoleOf_step {k : Nat} (count : s'.count = s.count)
    (others : ∀ j < s.count, j ≠ k → s'.procs j = s.procs j)
    (same : 0 < k → printed (lineOf N (k - 1)) (s'.procs k).pc = printed (lineOf N (k - 1)) (s.procs k).pc) :
    consoleOf N s' = consoleOf N s := by
  apply consoleOf_congr count
  intro i lt
  by_cases at_ : i + 1 = k
  · subst at_
    simpa using same (Nat.succ_pos i)
  · rw [others (i + 1) lt at_]

/-- The last process's text ends the console's account. -/
theorem consoleOf_last {j : Nat} (last : s.count = j + 1) (pos : 0 < j) :
    consoleOf N s = ((List.range (j - 1)).map fun k => (printed (lineOf N k) (s.procs (k + 1)).pc).map byte).flatten ++
      (printed (lineOf N (j - 1)) (s.procs j).pc).map byte := by
  obtain ⟨i, rfl⟩ : ∃ i, j = i + 1 := ⟨j - 1, by omega⟩
  unfold consoleOf
  rw [last]
  simp [List.range_succ]

/-- A new child has printed nothing. -/
theorem consoleOf_fork {k : Nat} (count : s'.count = s.count + 1) (last : s.count = k + 1)
    (others : ∀ j < s.count, j ≠ k → s'.procs j = s.procs j)
    (same : 0 < k → printed (lineOf N (k - 1)) (s'.procs k).pc = printed (lineOf N (k - 1)) (s.procs k).pc)
    (child : printed (lineOf N k) (s'.procs (k + 1)).pc = []) : consoleOf N s' = consoleOf N s := by
  unfold consoleOf
  rw [count, last, Nat.add_sub_cancel, Nat.add_sub_cancel, List.range_succ, List.map_append, List.flatten_append]
  simp only [List.map_cons, List.map_nil, List.flatten_cons, List.flatten_nil, child, List.map_nil,
    List.append_nil]
  congr 1
  apply List.map_congr_left
  intro i member
  have lt : i < k := List.mem_range.mp member
  by_cases at_ : i + 1 = k
  · subst at_
    have printedSame := same (Nat.succ_pos i)
    rw [Nat.add_sub_cancel] at printedSame
    rw [printedSame]
  · rw [others (i + 1) (by omega) at_]

/-- The last process prints one more character. -/
theorem consoleOf_print {j : Nat} {c : Char} (count : s'.count = s.count) (last : s.count = j + 1) (pos : 0 < j)
    (others : ∀ i < s.count, i ≠ j → s'.procs i = s.procs i)
    (more : printed (lineOf N (j - 1)) (s'.procs j).pc = printed (lineOf N (j - 1)) (s.procs j).pc ++ [c]) :
    consoleOf N s' = consoleOf N s ++ [byte c] := by
  rw [consoleOf_last (count ▸ last) pos, consoleOf_last last pos, more, List.map_append, ← List.append_assoc]
  congr 3
  apply List.map_congr_left
  intro i member
  have lt : i < j - 1 := List.mem_range.mp member
  rw [others (i + 1) (by omega) (by omega)]

/-- What `printf` has written after one more character of its line. -/
theorem printed_print_cons {line : List Char} {prime : BitVec 32} {c : Char} {rest : List Char}
    (suffix : c :: rest <:+ line) :
    printed line (.print prime rest) = printed line (.print prime (c :: rest)) ++ [c] := by
  obtain ⟨pre, rfl⟩ := suffix
  simp only [printed, List.length_append, List.length_cons]
  rw [show pre.length + (rest.length + 1) - rest.length = pre.length + 1 by omega,
    show pre.length + (rest.length + 1) - (rest.length + 1) = pre.length by omega]
  simp [List.take_append]

/-- Stage `k + 1`'s line is that of the first number it receives. -/
theorem lineOf_eq {N k m : Nat} (first : (Sieve.stream N k).head? = some m) :
    lineOf N k = primeLine (BitVec.ofNat 32 m) := by
  obtain ⟨rest, stream⟩ := List.head?_eq_some_iff.mp first
  simp [lineOf, stream]

end Console

/-! ### What the invariant gives a step -/

section Facts

variable {N : Nat} {s : System Pc}

/-- A stage that is not past end of file holds the read end of its input. -/
theorem StageOk.holds_input {j : Nat} (stage : StageOk N s (j + 1)) (lt : j + 1 < s.count)
    (awake : ¬AtEof (s.procs (j + 1))) : s.Held (.pipeRead j) := by
  have running : (s.procs (j + 1)).life = .running := by
    by_contra stopped
    exact awake (.inl stopped)
  obtain ⟨fd, inside, holds⟩ := envAt_input j (s.procs (j + 1)).pc
  refine ⟨j + 1, lt, ⟨fd, inside⟩, ?_⟩
  rw [stage.fds, envOf_running running]
  exact holds

theorem StageOk.holds_output {j : Nat} (stage : StageOk N s j) (lt : j < s.count)
    (writing : Writing (s.procs j)) : s.Held (.pipeWrite j) := by
  refine ⟨j, lt, ⟨4, by decide⟩, ?_⟩
  rw [stage.fds, envOf_running writing.1]
  exact envAt_output j writing.2

/-- A process with a child that no longer holds the write end of its pipe has
sent all it sends. -/
theorem StageOk.drained {j : Nat} (stage : StageOk N s j) (reader : j + 2 ≤ s.count)
    (idle : ¬Writing (s.procs j)) : Drained N j (inputTaken s j) (s.pipes j).calls (s.pipes j).writer := by
  have made := stage.made
  by_cases running : (s.procs j).life = .running
  · have ok := stage.run running
    have free : (s.procs j).pc.holdsWrite = false := by
      by_contra writes
      exact idle ⟨running, by simpa using writes⟩
    -- every line of a process with a child holds the write end, but `wait`
    cases at_ : (s.procs j).pc <;> rw [at_] at ok made free <;> simp only [Made, Pc.holdsWrite, RunOk] at ok made free
    case wait => exact ok
    all_goals first | omega | cases free
  · rcases stage.done running with ⟨-, drained⟩ | ⟨at_, -⟩
    · exact drained
    · rw [at_] at made
      simp only [Made] at made
      omega

/-- A process with a child has sent the first numbers of its stream, each as a
record. -/
theorem StageOk.sent {j : Nat} (stage : StageOk N s j) (reader : j + 2 ≤ s.count) :
    ∃ ws, ws <+: Sieve.stream N j ∧ (s.pipes j).calls = words ws := by
  have made := stage.made
  by_cases running : (s.procs j).life = .running
  · have ok := stage.run running
    cases at_ : (s.procs j).pc <;> rw [at_] at ok made <;> simp only [Made, RunOk, Drained] at ok made
    all_goals try omega
    case mainClose => exact ⟨[], List.nil_prefix, ok.2.2.2.1⟩
    case mainLoop =>
      obtain ⟨rfl, -, -, -, calls, -⟩ := ok
      exact ⟨_, List.take_prefix _ _, calls⟩
    case mainWrite =>
      obtain ⟨rfl, -, -, -, calls, -⟩ := ok
      exact ⟨_, List.take_prefix _ _, calls⟩
    case wait => exact ⟨_, List.prefix_refl _, ok.2.1⟩
    case sieveClose => exact ⟨[], List.nil_prefix, ok.2.2.2.1⟩
    case filter =>
      obtain ⟨pos, -, -, m, rest, g, first, -, -, -, calls⟩ := ok
      rw [stream_of_first pos first]
      exact ⟨_, (List.take_prefix g rest).filter _, calls⟩
    case test =>
      obtain ⟨pos, -, -, m, rest, g, x, first, -, -, -, -, calls⟩ := ok
      rw [stream_of_first pos first]
      exact ⟨_, (List.take_prefix g rest).filter _, calls⟩
    case sieveWrite =>
      obtain ⟨pos, -, m, rest, g, x, first, -, -, -, -, calls, -⟩ := ok
      rw [stream_of_first pos first]
      exact ⟨_, (List.take_prefix (g + 1) rest).filter _, calls⟩
    case sieveDone => exact ⟨_, List.prefix_refl _, ok.2.2.2.1⟩
  · rcases stage.done running with ⟨-, -, calls, -⟩ | ⟨at_, -⟩
    · exact ⟨_, List.prefix_refl _, calls⟩
    · rw [at_] at made
      simp only [Made] at made
      omega

end Facts

/-! ### The first state -/

theorem pipelineInv_boot (N : Nat) : PipelineInv N boot.sys where
  refs := by
    refine ⟨fun n => ?_, fun n => ?_, fun n _ => rfl⟩
    · simp only [boot, closedPipe, pipeclose, System.Held]
      simp [toFds, shellEnv]
    · simp only [boot, closedPipe, pipeclose, System.Held]
      simp [toFds, shellEnv]
  wholes _ := System.whole_closedPipe 4
  count_pos := by decide
  stages j lt := by
    obtain rfl : j = 0 := by simpa [boot] using lt
    exact ⟨rfl, rfl, ⟨rfl, rfl⟩, fun _ => rfl, fun stopped => absurd rfl stopped⟩
  linked k lt := by simp [boot] at lt
  console := rfl

end Xv6.Primes
