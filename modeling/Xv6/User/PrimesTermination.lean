import Xv6.User.PrimesProgress

/-!
Contract: `primes` ends. A run made of process steps, in which no `fork` or `pipe`
fails, has at most `50 (N + 2)^2` of them (`primes_runs_end`); so a scheduler that
picks, while some process can go on, one that can, reaches within that many steps a
state where none can, and there `main` has exited and the console holds every line
(`primes_scheduled_done`).

## The rank

What a state has left to do (`potential`) is what its processes have left of their
lines (`Pc.cost`, `procCost`), and 12 for each byte the stages have still to take,
out of the most they could take (`takenBound`). Each line costs more than the lines
it goes on to; a `fork` pays for its child's lines up to its first `read`; `exit`'s
loop costs a turn for each descriptor left. A `read` of a record costs nothing of
its own: the 48 its 4 bytes release pay for the line the stage prints and the child
it forks, and a woken `write` stores its whole record, so no stretch of a `write`
comes back to the line it left. Every step lowers the rank
(`PipelineInv.potential_step`).

Owns: `Pc.cost`, `procCost`, `costSum`, `takenSum`, `takenBound`, `potential`,
`Quiet`, `lowest`.

Does not own: termination of runs in which a call fails; the invariant the rank
rests on is `PipelineInv`, which such runs leave.
-/

namespace Xv6.Primes

open Xv6.Pipes Xv6.Printf

variable {N : Nat} {s s' : System Pc}

/-! ### The length of a line -/

theorem primeLine_eq (v : BitVec 32) :
    primeLine v = "prime ".toList ++ signedNumeral User.digits 10 v.toInt ++ ['\n'] := by
  -- the format unfolds by evaluation, and `%d` to `printint` of the argument
  have literal : "prime %d\n".toList = ['p', 'r', 'i', 'm', 'e', ' ', '%', 'd', '\n'] := rfl
  have unfolded : User.vprintf ['p', 'r', 'i', 'm', 'e', ' ', '%', 'd', '\n'] [.ofInt v] =
      ['p', 'r', 'i', 'm', 'e', ' '] ++ User.printint ((Arg.ofInt v).int.signExtend 32) 10 true ++ ['\n'] :=
    rfl
  rw [primeLine, literal, unfolded, Arg.int_ofInt, BitVec.signExtend_eq, User.printint,
    printintWith_signed User.digits (by decide)]
  rfl

/-- An `int` has a sign and at most ten digits. -/
theorem length_primeLine_le (v : BitVec 32) : (primeLine v).length ≤ 18 := by
  have digits : (numeral User.digits 10 v.toInt.natAbs).length ≤ 10 := by
    apply numeral_length_le User.digits (by decide) _ (by decide)
    have := v.toInt_le
    have := v.le_toInt
    omega
  rw [primeLine_eq, signedNumeral]
  simp only [List.length_append]
  split <;> simp <;> omega

/-! ### What is left to do -/

/-- What a process at a line has left to do, but for the records it has still to
read. A line costs one more than the line it goes on to, `exit`'s loop `NOFILE + 1`
(17), and a `fork` adds its child's 22; `main`'s loop costs 2 for each number it has
still to write, and a `write` asleep one less than the `write` that slept. -/
def Pc.cost (N : Nat) : Pc → Nat
  | .start => 2 * (N - 1) + 44
  | .mainFork .. => 2 * (N - 1) + 43
  | .mainClose .. => 2 * (N - 1) + 20
  | .mainLoop _ i => 2 * (N + 1 - i) + 19
  | .mainWrite _ i => 2 * (N - i) + 20
  | .wait => 18
  | .childCloseWrite .. => 22
  | .childCloseInput _ => 21
  | .childDup _ => 20
  | .childCloseRead _ => 19
  | .readPrime => 18
  | .print _ rest => rest.length + 46
  | .sievePipe _ => 45
  | .sieveFork .. => 44
  | .sieveClose .. => 21
  | .filter .. => 20
  | .test .. => 22
  | .sieveWrite .. => 21
  | .sieveDone _ => 19
  | .error rest => rest.length + 18

/-- What a process has left to do: its line's cost while it runs, the turns of
`exit`'s loop still to come, nothing once it is a ZOMBIE. -/
def procCost (N : Nat) (p : Proc Pc) : Nat :=
  match p.life with
  | .running => p.pc.cost N
  | .exiting _ fd => nOFile - fd + 1
  | .zombie _ | .freed => 0

def costSum (N : Nat) (s : System Pc) : Nat :=
  ∑ j ∈ Finset.range s.count, procCost N (s.procs j)

/-- The bytes the stages have taken from their input. -/
def takenSum (s : System Pc) : Nat :=
  ∑ j ∈ Finset.range s.count, (inputTaken s j).length

/-- At most `N + 2` processes, each taking at most `N` records of 4 bytes. -/
def takenBound (N : Nat) : Nat :=
  4 * N * (N + 2)

/-- The rank of a state. -/
def potential (N : Nat) (s : System Pc) : Nat :=
  costSum N s + 12 * (takenBound N - takenSum s)

@[simp] theorem inputTaken_setPc (s : System Pc) (k : Nat) (pc : Pc) (j : Nat) :
    inputTaken (s.setPc k pc) j = inputTaken s j := rfl

@[simp] theorem inputTaken_exit (s : System Pc) (k : Nat) (status : Int) (j : Nat) :
    inputTaken (s.exit k status) j = inputTaken s j := rfl

theorem takenSum_setPc (s : System Pc) (k : Nat) (pc : Pc) : takenSum (s.setPc k pc) = takenSum s := rfl

theorem takenSum_exit (s : System Pc) (k : Nat) (status : Int) : takenSum (s.exit k status) = takenSum s := rfl

theorem procCost_running {p : Proc Pc} (running : p.life = .running) : procCost N p = p.pc.cost N := by
  simp [procCost, running]

/-! ### Sums over the processes -/

/-- A sum over `range n` in which the term at `k` alone may change. -/
theorem sum_range_change {f g : Nat → Nat} {n k : Nat} (lt : k < n) (others : ∀ j < n, j ≠ k → g j = f j) :
    ∑ j ∈ Finset.range n, g j + f k = ∑ j ∈ Finset.range n, f j + g k := by
  have mem : k ∈ Finset.range n := Finset.mem_range.mpr lt
  have rest : ∑ j ∈ (Finset.range n).erase k, g j = ∑ j ∈ (Finset.range n).erase k, f j :=
    Finset.sum_congr rfl fun j member =>
      others j (Finset.mem_range.mp (Finset.mem_of_mem_erase member)) (Finset.ne_of_mem_erase member)
  rw [← Finset.add_sum_erase _ _ mem, ← Finset.add_sum_erase _ _ mem, rest]
  omega

/-- A step that changes the cost of process `k` alone. -/
theorem costSum_change {k : Nat} (lt : k < s.count) (count : s'.count = s.count)
    (others : ∀ j < s.count, j ≠ k → procCost N (s'.procs j) = procCost N (s.procs j)) :
    costSum N s' + procCost N (s.procs k) = costSum N s + procCost N (s'.procs k) := by
  unfold costSum
  rw [count]
  exact sum_range_change lt others

/-- A step that changes the cost of process `k` and adds a process. -/
theorem costSum_fork {k : Nat} (lt : k < s.count) (count : s'.count = s.count + 1)
    (others : ∀ j < s.count, j ≠ k → procCost N (s'.procs j) = procCost N (s.procs j)) :
    costSum N s' + procCost N (s.procs k) =
      costSum N s + procCost N (s'.procs k) + procCost N (s'.procs s.count) := by
  have changed := sum_range_change (f := fun j => procCost N (s.procs j)) (g := fun j => procCost N (s'.procs j))
    lt others
  unfold costSum
  rw [count, Finset.sum_range_succ]
  omega

/-- A step that changes what process `k` alone has taken. -/
theorem takenSum_change {k : Nat} (lt : k < s.count) (count : s'.count = s.count)
    (others : ∀ j < s.count, j ≠ k → inputTaken s' j = inputTaken s j) :
    takenSum s' + (inputTaken s k).length = takenSum s + (inputTaken s' k).length := by
  unfold takenSum
  rw [count]
  exact sum_range_change (f := fun j => (inputTaken s j).length) (g := fun j => (inputTaken s' j).length) lt
    fun j lt other => by rw [others j lt other]

/-- A step that adds a process and changes what no other has taken. -/
theorem takenSum_fork (count : s'.count = s.count + 1) (others : ∀ j < s.count, inputTaken s' j = inputTaken s j) :
    takenSum s ≤ takenSum s' := by
  have same : ∑ j ∈ Finset.range s.count, (inputTaken s' j).length = ∑ j ∈ Finset.range s.count, (inputTaken s j).length :=
    Finset.sum_congr rfl fun j member => by rw [others j (Finset.mem_range.mp member)]
  unfold takenSum
  rw [count, Finset.sum_range_succ, same]
  omega

/-! ### The bytes a stage can take -/

theorem PipelineInv.inputTaken_length_le (inv : PipelineInv N s) {j : Nat} (lt : j < s.count) :
    (inputTaken s j).length ≤ 4 * N := by
  unfold inputTaken
  split
  · simp
  · obtain ⟨i, rfl⟩ : ∃ i, j = i + 1 := ⟨j - 1, by omega⟩
    -- stage `i + 1` has taken the records of a prefix of stage `i`'s stream
    obtain ⟨ys, xs, ys_xs, xs_stream, -, taken⟩ := inv.pipe_prefix_stream lt
    rw [Nat.add_sub_cancel, taken, length_flatten_words]
    have := ys_xs.length_le
    have := xs_stream.length_le
    have := Sieve.length_stream_le N i
    omega

theorem PipelineInv.takenSum_le (inv : PipelineInv N s) : takenSum s ≤ takenBound N := by
  have count := inv.count_le
  have primes := Sieve.length_primesUpTo_le N
  calc takenSum s ≤ ∑ _j ∈ Finset.range s.count, 4 * N :=
        Finset.sum_le_sum fun j member => inv.inputTaken_length_le (Finset.mem_range.mp member)
    _ = s.count * (4 * N) := by simp
    _ ≤ (N + 2) * (4 * N) := Nat.mul_le_mul_right _ (by omega)
    _ = takenBound N := by unfold takenBound; ring

/-! ### Stretches of one process -/

/-- A stretch of process `k`'s step that changes no other process and not `k`'s
life, and adds `d` bytes to what `k` has taken and nothing to what the others
have. -/
structure Quiet (k d : Nat) (s s' : System Pc) : Prop where
  count : s'.count = s.count
  others : ∀ j, j ≠ k → s'.procs j = s.procs j
  life : (s'.procs k).life = (s.procs k).life
  taken : ∀ j, j ≠ k → inputTaken s' j = inputTaken s j
  own : (inputTaken s' k).length = (inputTaken s k).length + d

namespace Quiet

variable {k : Nat}

theorem refl (k : Nat) (s : System Pc) : Quiet k 0 s s :=
  ⟨rfl, fun _ _ => rfl, rfl, fun _ _ => rfl, rfl⟩

/-- A stretch that changes process `k` but for its life, and takes nothing. -/
theorem of_taken (count : s'.count = s.count) (others : ∀ j, j ≠ k → s'.procs j = s.procs j)
    (life : (s'.procs k).life = (s.procs k).life) (taken : ∀ n, (s'.pipes n).taken = (s.pipes n).taken) :
    Quiet k 0 s s' := by
  have same : ∀ j, inputTaken s' j = inputTaken s j := fun j => by simp only [inputTaken, taken]
  exact ⟨count, others, life, fun j _ => same j, by rw [same]; rfl⟩

theorem close (s : System Pc) (k fd : Nat) : Quiet k 0 s (s.close k fd) :=
  .of_taken (System.close_count s k fd) (fun j other => by rw [System.close_procs, if_neg other])
    (by rw [System.close_procs, if_pos rfl]) (System.close_taken s k fd)

theorem dup (s : System Pc) (k fd : Nat) : Quiet k 0 s (s.dup k fd) :=
  .of_taken rfl (fun j other => by rw [System.dup_procs, if_neg other]) (by rw [System.dup_procs, if_pos rfl])
    fun _ => rfl

theorem write {fd : Nat} {bytes : List UInt8} {stop : Stop} {s₁ : System Pc}
    (wrote : s.write k fd bytes = some (stop, s₁)) : Quiet k 0 s s₁ := by
  obtain ⟨procs, count, taken⟩ := System.write_frame wrote
  exact .of_taken count (fun _ _ => by rw [procs]) (by rw [procs]) taken

theorem resume {fd : Nat} {stop : Stop} {s₁ : System Pc} (resumed : s.resume k fd = some (stop, s₁)) :
    Quiet k 0 s s₁ := by
  obtain ⟨procs, count, taken⟩ := System.resume_frame resumed
  exact .of_taken count (fun _ _ => by rw [procs]) (by rw [procs]) taken

/-- `pipe()` makes a pipe in the place of one not made, from which nothing was
taken. -/
theorem pipe (refs : s.Refs) {s₁ : System Pc} {r w : Nat} (made : s.pipe k = some (s₁, r, w)) :
    Quiet k 0 s s₁ := by
  unfold System.pipe at made
  split at made
  · cases made
  · cases made
    refine .of_taken rfl (fun j other => by simp [other]) (by simp) fun n => ?_
    by_cases fresh : n = s.npipes
    · subst fresh
      simp [refs.unmade s.npipes le_rfl, newPipe, closedPipe]
    · simp [fresh]

/-- A `read` by stage `k` of its input adds what it copied to what `k` has taken. -/
theorem read {fd n : Nat} (pos : 0 < k) (found : (s.procs k).fd fd = some (.pipeRead (k - 1))) {ret : Int}
    {bytes : List UInt8} {s₁ : System Pc} (red : s.read k fd n = some (ret, bytes, s₁)) :
    Quiet k bytes.length s s₁ := by
  obtain ⟨pi, -, rfl⟩ := System.read_pipeRead found red
  refine ⟨rfl, fun _ _ => rfl, rfl, fun j other => ?_, ?_⟩
  · unfold inputTaken
    split
    · rfl
    · have differ : j - 1 ≠ k - 1 := by omega
      simp [differ]
  · simp [inputTaken, Nat.pos_iff_ne_zero.mp pos]

theorem trans {d d' : Nat} {s₁ s₂ : System Pc} (first : Quiet k d s s₁) (second : Quiet k d' s₁ s₂) :
    Quiet k (d + d') s s₂ where
  count := second.count.trans first.count
  others j other := (second.others j other).trans (first.others j other)
  life := second.life.trans first.life
  taken j other := (second.taken j other).trans (first.taken j other)
  own := by rw [second.own, first.own, Nat.add_assoc]

end Quiet

/-! ### The rank falls -/

section Falls

variable {k : Nat} (lt : k < s.count) (running : (s.procs k).life = .running)
include lt running

/-- A quiet stretch, then on to `pc'`: the rank falls when `pc'` costs less than
the line left and 12 for each byte taken. -/
theorem potential_setPc {d : Nat} {s₁ : System Pc} {pc' : Pc} (quiet : Quiet k d s s₁)
    (paid : pc'.cost N < (s.procs k).pc.cost N + 12 * d) (bounded : takenSum (s₁.setPc k pc') ≤ takenBound N) :
    potential N (s₁.setPc k pc') < potential N s := by
  have costs : costSum N (s₁.setPc k pc') + procCost N (s.procs k) =
      costSum N s + procCost N ((s₁.setPc k pc').procs k) :=
    costSum_change lt (by simp [quiet.count]) fun j _ other => by simp [other, quiet.others j other]
  have taken := takenSum_change lt quiet.count fun j _ other => quiet.taken j other
  have own := quiet.own
  have before : procCost N (s.procs k) = (s.procs k).pc.cost N := procCost_running running
  have after : procCost N ((s₁.setPc k pc').procs k) = pc'.cost N := by
    have life : ((s₁.setPc k pc').procs k).life = .running := by simp [quiet.life, running]
    rw [procCost_running life]
    simp
  rw [takenSum_setPc] at bounded
  unfold potential
  rw [takenSum_setPc]
  omega

/-- A quiet stretch, then `exit`: the rank falls when the line left costs more
than `exit`'s loop. -/
theorem potential_exit {d : Nat} {s₁ : System Pc} {status : Int} (quiet : Quiet k d s s₁)
    (paid : nOFile + 1 < (s.procs k).pc.cost N + 12 * d) (bounded : takenSum (s₁.exit k status) ≤ takenBound N) :
    potential N (s₁.exit k status) < potential N s := by
  have costs : costSum N (s₁.exit k status) + procCost N (s.procs k) =
      costSum N s + procCost N ((s₁.exit k status).procs k) :=
    costSum_change lt (by simp [quiet.count]) fun j _ other => by simp [other, quiet.others j other]
  have taken := takenSum_change lt quiet.count fun j _ other => quiet.taken j other
  have own := quiet.own
  have before : procCost N (s.procs k) = (s.procs k).pc.cost N := procCost_running running
  have after : procCost N ((s₁.exit k status).procs k) = nOFile - 0 + 1 := by simp [procCost]
  rw [takenSum_exit] at bounded
  unfold potential
  rw [takenSum_exit]
  omega

/-- `fork()`, then on to `pc'`: the rank falls when `pc'` and the child's first line
together cost less than the line left. -/
theorem potential_fork {child pc' : Pc} (paid : pc'.cost N + child.cost N < (s.procs k).pc.cost N)
    (bounded : takenSum ((s.fork k child).setPc k pc') ≤ takenBound N) :
    potential N ((s.fork k child).setPc k pc') < potential N s := by
  have fresh : s.count ≠ k := by omega
  have costs : costSum N ((s.fork k child).setPc k pc') + procCost N (s.procs k) =
      costSum N s + procCost N (((s.fork k child).setPc k pc').procs k) +
        procCost N (((s.fork k child).setPc k pc').procs s.count) :=
    costSum_fork lt (by simp) fun j lt other => by simp [other, show j ≠ s.count by omega]
  have taken : takenSum s ≤ takenSum ((s.fork k child).setPc k pc') :=
    takenSum_fork (by simp) fun j _ => rfl
  have before : procCost N (s.procs k) = (s.procs k).pc.cost N := procCost_running running
  have after : procCost N (((s.fork k child).setPc k pc').procs k) = pc'.cost N := by
    have life : (((s.fork k child).setPc k pc').procs k).life = .running := by simp [Nat.ne_of_lt lt, running]
    rw [procCost_running life]
    simp
  have born : procCost N (((s.fork k child).setPc k pc').procs s.count) = child.cost N := by
    have life : (((s.fork k child).setPc k pc').procs s.count).life = .running := by simp [fresh]
    rw [procCost_running life]
    simp [fresh]
  unfold potential
  omega

/-- `wait(0)`, then `exit(0)`: the child freed, if any, was a ZOMBIE and cost
nothing. -/
theorem potential_wait (at_ : (s.procs k).pc = .wait) {ret : Int} {s₁ : System Pc}
    (waited : s.wait k = some (ret, s₁)) : potential N (s₁.exit k 0) < potential N s := by
  obtain ⟨procs, count, pipes⟩ : (∀ j, j ≠ k → procCost N (s₁.procs j) = procCost N (s.procs j)) ∧
      s₁.count = s.count ∧ s₁.pipes = s.pipes := by
    rcases System.wait_some waited with ⟨j, -, -, zombie, -, rfl⟩ | ⟨-, -, rfl⟩
    · refine ⟨fun i _ => ?_, rfl, rfl⟩
      by_cases freed : i = j
      · subst freed
        cases life : (s.procs i).life <;> simp_all [procCost, Life.isZombie]
      · simp [freed]
    · exact ⟨fun _ _ => rfl, rfl, rfl⟩
  have costs : costSum N (s₁.exit k 0) + procCost N (s.procs k) =
      costSum N s + procCost N ((s₁.exit k 0).procs k) :=
    costSum_change lt (by simp [count]) fun j _ other => by simp [other, procs j other]
  have taken : takenSum (s₁.exit k 0) = takenSum s := by
    unfold takenSum inputTaken
    simp [count, pipes]
  have before : procCost N (s.procs k) = 18 := by rw [procCost_running running, at_]; rfl
  have after : procCost N ((s₁.exit k 0).procs k) = nOFile - 0 + 1 := by simp [procCost]
  unfold potential
  rw [taken]
  simp only [nOFile] at after
  omega

end Falls

/-- One turn of `exit`'s loop: a descriptor fewer left, or a ZOMBIE. -/
theorem potential_exitStep {k : Nat} (lt : k < s.count) {status : Int} {fd : Nat}
    (exiting : (s.procs k).life = .exiting status fd) : potential N (s.exitStep k status fd) < potential N s := by
  have others : ∀ j < s.count, j ≠ k → procCost N ((s.exitStep k status fd).procs j) = procCost N (s.procs j) := by
    intro j _ other
    by_cases inside : fd < nOFile
    · rw [System.exitStep_lt s k status inside]
      simp [other, System.close_procs]
    · -- a child given to `init` keeps its line and its life
      rw [System.exitStep_ge s k status inside]
      simp only [other, if_false]
      split <;> rfl
  have costs := costSum_change lt (System.exitStep_count s k status fd) others
  have taken : takenSum (s.exitStep k status fd) = takenSum s := by
    unfold takenSum inputTaken
    simp
  have before : procCost N (s.procs k) = nOFile - fd + 1 := by simp [procCost, exiting]
  have after : procCost N ((s.exitStep k status fd).procs k) < nOFile - fd + 1 := by
    by_cases inside : fd < nOFile
    · rw [System.exitStep_lt s k status inside]
      simp [procCost]
      omega
    · rw [System.exitStep_ge s k status inside]
      simp [procCost]
  unfold potential
  rw [taken]
  omega

/-! ### Every step lowers the rank -/

/-- Where a `write` leaves the program: on its way, asleep, or at the error. -/
theorem afterWrite_cases (stop : Stop) (next asleep failed : Pc) :
    afterWrite stop next asleep failed = next ∨ afterWrite stop next asleep failed = asleep ∨
      afterWrite stop next asleep failed = failed := by
  unfold afterWrite
  split
  · exact .inl rfl
  · exact .inr (.inr rfl)
  · exact .inr (.inl rfl)

theorem afterWrite_returns_four (next asleep failed : Pc) : afterWrite (.returns 4) next asleep failed = next :=
  rfl

/-- No running process of the invariant is at `fprintf`'s error. -/
theorem PipelineInv.not_error (inv : PipelineInv N s) {k : Nat} (lt : k < s.count)
    (running : (s.procs k).life = .running) (e : List Char) : (s.procs k).pc ≠ .error e := by
  intro at_
  have ok := (inv.stages k lt).run running
  rw [at_] at ok
  exact ok

/-- A `write` asleep on a full pipe that wakes stores its whole record. -/
theorem PipelineInv.resume_returns (inv : PipelineInv N s) {k : Nat} (lt : k < s.count)
    (running : (s.procs k).life = .running) {fd : Nat}
    (asleep : (∃ i, (s.procs k).pc = .mainWrite fd i) ∨ ∃ prime, (s.procs k).pc = .sieveWrite prime fd)
    {stop : Stop} {s₁ : System Pc} (resumed : s.resume k fd = some (stop, s₁)) : stop = .returns 4 := by
  have stage := inv.stages k lt
  have writing : Writing (s.procs k) := ⟨running, by rcases asleep with ⟨i, at_⟩ | ⟨prime, at_⟩ <;> rw [at_] <;> rfl⟩
  -- the call asleep is a number's record, before its first byte, and the child reads
  obtain ⟨x, rfl, waiting, reader⟩ : ∃ x, fd = 4 ∧ (s.pipes k).writer = some (word x, 0) ∧ k + 1 < s.count := by
    have ok := stage.run running
    have made := stage.made
    rcases asleep with ⟨i, at_⟩ | ⟨prime, at_⟩ <;> rw [at_] at ok made <;> simp only [Made] at made
    · obtain ⟨-, rfl, -, -, -, waiting⟩ := ok
      exact ⟨i, rfl, waiting, by omega⟩
    · obtain ⟨-, rfl, m, rest, g, x, -, -, -, -, -, -, waiting⟩ := ok
      exact ⟨x, rfl, waiting, by omega⟩
  have found : (s.procs k).fd 4 = some (.pipeWrite k) := by
    rw [System.fd_toFds stage.fds (by decide), envOf_running running]
    exact envAt_output k writing.2
  exact (inv.resume_output reader writing found waiting resumed).1

section Steps

variable {k : Nat} (lt : k < s.count) (running : (s.procs k).life = .running)
include lt running

/-- A `write`, then on to where it leaves the program: neither line it may go on to
costs as much as the line left, and the error is not reached. -/
theorem potential_afterWrite {s₁ : System Pc} {stop : Stop} {next asleep : Pc} {e : List Char}
    (quiet : Quiet k 0 s s₁) (inv' : PipelineInv N (s₁.setPc k (afterWrite stop next asleep (.error e))))
    (toNext : next.cost N < (s.procs k).pc.cost N) (toAsleep : asleep.cost N < (s.procs k).pc.cost N) :
    potential N (s₁.setPc k (afterWrite stop next asleep (.error e))) < potential N s := by
  have bounded := inv'.takenSum_le
  have lt' : k < (s₁.setPc k (afterWrite stop next asleep (.error e))).count := by simp [quiet.count, lt]
  have running' : ((s₁.setPc k (afterWrite stop next asleep (.error e))).procs k).life = .running := by
    simp [quiet.life, running]
  rcases afterWrite_cases stop next asleep (.error e) with goes | sleeps | fails
  · rw [goes] at bounded ⊢
    exact potential_setPc lt running quiet (by omega) bounded
  · rw [sleeps] at bounded ⊢
    exact potential_setPc lt running quiet (by omega) bounded
  · exact absurd (by simp [fails]) (inv'.not_error lt' running' e)

/-- **Step lemma.** A step of a running process's program lowers the rank, on every
line. -/
theorem PipelineInv.potential_run_step (inv : PipelineInv N s) (stepped : run N k s (s.procs k).pc = some s')
    (inv' : PipelineInv N s') : potential N s' < potential N s := by
  have bounded := inv'.takenSum_le
  have stage := inv.stages k lt
  cases at_ : (s.procs k).pc with
  | start =>
    rw [at_] at stepped
    simp only [run] at stepped
    split at stepped
    · rename_i s₁ p0 p1 piped
      cases stepped
      exact potential_setPc lt running (Quiet.pipe inv.refs piped) (by rw [at_]; simp only [Pc.cost]; omega) bounded
    · cases stepped
  | mainFork p0 p1 =>
    rw [at_] at stepped
    cases stepped
    exact potential_fork lt running (by rw [at_]; simp only [Pc.cost]; omega) bounded
  | mainClose p0 p1 =>
    rw [at_] at stepped
    cases stepped
    exact potential_setPc lt running (Quiet.close s k p0) (by rw [at_]; simp only [Pc.cost]; omega) bounded
  | mainLoop p1 i =>
    rw [at_] at stepped
    simp only [run] at stepped
    split at stepped
    · rename_i within
      obtain ⟨⟨stop, s₁⟩, wrote, rfl⟩ := Option.map_eq_some_iff.mp stepped
      exact potential_afterWrite lt running (Quiet.write wrote) inv' (by rw [at_]; simp only [Pc.cost]; omega)
        (by rw [at_]; simp only [Pc.cost]; omega)
    · cases stepped
      exact potential_setPc lt running (Quiet.close s k p1) (by rw [at_]; simp only [Pc.cost]; omega) bounded
  | mainWrite p1 i =>
    rw [at_] at stepped
    obtain ⟨⟨stop, s₁⟩, resumed, rfl⟩ := Option.map_eq_some_iff.mp stepped
    dsimp only at bounded ⊢
    -- the woken `write` stores its record: on to the next number
    rw [inv.resume_returns lt running (.inl ⟨i, at_⟩) resumed, afterWrite_returns_four] at bounded ⊢
    exact potential_setPc lt running (Quiet.resume resumed) (by rw [at_]; simp only [Pc.cost]; omega) bounded
  | wait =>
    rw [at_] at stepped
    obtain ⟨⟨ret, s₁⟩, waited, rfl⟩ := Option.map_eq_some_iff.mp stepped
    exact potential_wait lt running at_ waited
  | childCloseWrite p0 p1 =>
    rw [at_] at stepped
    cases stepped
    exact potential_setPc lt running (Quiet.close s k p1) (by rw [at_]; simp only [Pc.cost]; omega) bounded
  | childCloseInput p0 =>
    rw [at_] at stepped
    cases stepped
    exact potential_setPc lt running (Quiet.close s k 0) (by rw [at_]; simp only [Pc.cost]; omega) bounded
  | childDup p0 =>
    rw [at_] at stepped
    cases stepped
    exact potential_setPc lt running (Quiet.dup s k p0) (by rw [at_]; simp only [Pc.cost]; omega) bounded
  | childCloseRead p0 =>
    rw [at_] at stepped
    cases stepped
    exact potential_setPc lt running (Quiet.close s k p0) (by rw [at_]; simp only [Pc.cost]; omega) bounded
  | readPrime =>
    rw [at_] at stepped
    obtain ⟨⟨ret, bytes, s₁⟩, red, rfl⟩ := Option.map_eq_some_iff.mp stepped
    dsimp only at bounded inv' ⊢
    have ok := stage.run running
    rw [at_] at ok
    obtain ⟨pos, taken⟩ := ok
    have found : (s.procs k).fd 0 = some (.pipeRead (k - 1)) := by
      rw [System.fd_toFds stage.fds (by decide), envOf_running running, at_]
      simpa [envAt] using home_zero pos
    have quiet := Quiet.read pos found red
    split
    · rename_i eof
      rw [if_pos eof] at bounded
      exact potential_exit lt running quiet (by rw [at_]; simp only [Pc.cost, nOFile]; omega) bounded
    · rename_i number
      rw [if_neg number] at bounded inv'
      -- the record read is the prime's, 4 bytes: they pay for its line and its child
      have four : bytes.length = 4 := by
        have ok' := (inv'.stages k (by simp [quiet.count, lt])).run (by simp [quiet.life, running])
        simp only [System.setPc_procs, if_true] at ok'
        obtain ⟨-, -, m, -, -, taken'⟩ := ok'
        have own := quiet.own
        rw [inputTaken_setPc] at taken'
        rw [taken', taken, length_word] at own
        simp at own
        omega
      have line := length_primeLine_le (intOfBytes bytes)
      exact potential_setPc lt running quiet (by rw [at_, four]; simp only [Pc.cost]; omega) bounded
  | print prime rest =>
    rw [at_] at stepped
    cases rest with
    | nil =>
      cases stepped
      exact potential_setPc lt running (Quiet.refl k s) (by rw [at_]; simp only [Pc.cost]; omega) bounded
    | cons c rest =>
      obtain ⟨⟨stop, s₁⟩, wrote, rfl⟩ := Option.map_eq_some_iff.mp stepped
      exact potential_setPc lt running (Quiet.write wrote) (by rw [at_]; simp only [Pc.cost, List.length_cons]; omega)
        bounded
  | sievePipe prime =>
    rw [at_] at stepped
    simp only [run] at stepped
    split at stepped
    · rename_i s₁ q0 q1 piped
      cases stepped
      exact potential_setPc lt running (Quiet.pipe inv.refs piped) (by rw [at_]; simp only [Pc.cost]; omega) bounded
    · cases stepped
      exact potential_exit lt running (Quiet.refl k s) (by rw [at_]; simp only [Pc.cost, nOFile]; omega) bounded
  | sieveFork prime q0 q1 =>
    rw [at_] at stepped
    cases stepped
    exact potential_fork lt running (by rw [at_]; simp only [Pc.cost]; omega) bounded
  | sieveClose prime q0 q1 =>
    rw [at_] at stepped
    cases stepped
    exact potential_setPc lt running (Quiet.close s k q0) (by rw [at_]; simp only [Pc.cost]; omega) bounded
  | filter prime q1 =>
    rw [at_] at stepped
    obtain ⟨⟨ret, bytes, s₁⟩, red, rfl⟩ := Option.map_eq_some_iff.mp stepped
    dsimp only at bounded inv' ⊢
    have pos : 0 < k := by
      have ok := stage.run running
      rw [at_] at ok
      exact ok.1
    have found : (s.procs k).fd 0 = some (.pipeRead (k - 1)) := by
      rw [System.fd_toFds stage.fds (by decide), envOf_running running, at_]
      simpa [envAt] using home_zero pos
    have quiet := Quiet.read pos found red
    split
    · rename_i number
      rw [if_pos number] at bounded
      -- a read that returns a number took a byte at least
      have some := System.read_pipeRead_length found red
      exact potential_setPc lt running quiet (by rw [at_]; simp only [Pc.cost]; omega) bounded
    · rename_i eof
      rw [if_neg eof] at bounded
      exact potential_setPc lt running quiet (by rw [at_]; simp only [Pc.cost]; omega) bounded
  | test prime num q1 =>
    rw [at_] at stepped
    simp only [run] at stepped
    split at stepped
    · obtain ⟨⟨stop, s₁⟩, wrote, rfl⟩ := Option.map_eq_some_iff.mp stepped
      exact potential_afterWrite lt running (Quiet.write wrote) inv' (by rw [at_]; simp only [Pc.cost]; omega)
        (by rw [at_]; simp only [Pc.cost]; omega)
    · cases stepped
      exact potential_setPc lt running (Quiet.refl k s) (by rw [at_]; simp only [Pc.cost]; omega) bounded
  | sieveWrite prime q1 =>
    rw [at_] at stepped
    obtain ⟨⟨stop, s₁⟩, resumed, rfl⟩ := Option.map_eq_some_iff.mp stepped
    dsimp only at bounded ⊢
    rw [inv.resume_returns lt running (.inr ⟨prime, at_⟩) resumed, afterWrite_returns_four] at bounded ⊢
    exact potential_setPc lt running (Quiet.resume resumed) (by rw [at_]; simp only [Pc.cost]; omega) bounded
  | sieveDone q1 =>
    rw [at_] at stepped
    cases stepped
    exact potential_setPc lt running (Quiet.close s k q1) (by rw [at_]; simp only [Pc.cost]; omega) bounded
  | error rest =>
    exact absurd at_ (inv.not_error lt running rest)

end Steps

/-- Every step of a process, of its program or of its `exit`, lowers the rank. -/
theorem PipelineInv.potential_step (inv : PipelineInv N s) (bound : N < 2 ^ 31) {k : Nat}
    (stepped : s.step (run N) k = some s') : potential N s' < potential N s := by
  have inv' := inv.step bound stepped
  unfold System.step at stepped
  split at stepped
  · rename_i lt
    split at stepped
    · rename_i running
      exact inv.potential_run_step lt running stepped inv'
    · rename_i status fd exiting
      cases stepped
      exact potential_exitStep lt exiting
    all_goals cases stepped
  · cases stepped

/-! ### Every run ends -/

theorem step_run_sys {w w' : World} {k : Nat} (stepped : step N w (.run k) = some w') :
    w.sys.step (run N) k = some w'.sys := by
  obtain ⟨s', stepped', rfl⟩ := Option.map_eq_some_iff.mp stepped
  exact stepped'

theorem step_run_of_sys {w : World} {k : Nat} (stepped : w.sys.step (run N) k = some s') :
    step N w (.run k) = some { w with sys := s' } := by
  simp [step, stepped]

theorem step_run_lt {w w' : World} {k : Nat} (stepped : step N w (.run k) = some w') : k < w.sys.count := by
  have stepped' := step_run_sys stepped
  by_contra out
  simp [System.step, out] at stepped'

/-- The rank at `boot`: `main`'s lines, and every byte still to take. -/
theorem potential_boot (N : Nat) : potential N boot.sys = 2 * (N - 1) + 44 + 12 * takenBound N := by
  simp [potential, costSum, takenSum, boot, procCost, Pc.cost, inputTaken]

theorem potential_boot_le (N : Nat) : potential N boot.sys ≤ 50 * (N + 2) ^ 2 := by
  rw [potential_boot, takenBound]
  have pred : N - 1 ≤ N := Nat.sub_le N 1
  nlinarith

/-- **Run lemma.** A run of process steps from a state of the invariant has at most
as many steps as the rank goes down. -/
theorem steps_add_potential_le (bound : N < 2 ^ 31) {w w' : World} {ks : List Nat}
    (inv : PipelineInv N w.sys) (ran : Machine.run (fun w k => step N w (.run k)) w ks = some w') :
    ks.length + potential N w'.sys ≤ potential N w.sys := by
  have preserve : ∀ (w : World) (k : Nat) (w' : World), PipelineInv N w.sys → step N w (.run k) = some w' →
      PipelineInv N w'.sys := fun _ _ _ inv stepped => inv.step bound (step_run_sys stepped)
  have lower : ∀ (w : World) (k : Nat) (w' : World), PipelineInv N w.sys → step N w (.run k) = some w' →
      potential N w'.sys < potential N w.sys := fun _ _ _ inv stepped => inv.potential_step bound (step_run_sys stepped)
  exact Machine.run_length_add_le preserve lower inv ran

/-- A run of `primes` from `boot` in which every event is a process's step has at
most `50 (N + 2)^2` of them. -/
theorem primes_runs_end (bound : N < 2 ^ 31) {ks : List Nat} {w : World}
    (ran : Machine.run (step N) boot (ks.map Event.run) = some w) : ks.length ≤ 50 * (N + 2) ^ 2 := by
  rw [Machine.run_map] at ran
  have steps := steps_add_potential_le bound (pipelineInv_boot N) ran
  have start := potential_boot_le N
  omega

/-- The whole run of `primes 2` that ends with every line printed. -/
theorem primes_runs_end_two :
    let ks := List.replicate 5 0 ++ List.replicate 19 1 ++ List.replicate 22 2 ++ List.replicate 18 1 ++
      List.replicate 18 0
    let w := (Machine.run (step 2) boot (ks.map Event.run)).getD boot
    (2 : Nat) < 2 ^ 31 ∧ Machine.run (step 2) boot (ks.map Event.run) = some w ∧ ks.length ≤ 50 * (2 + 2) ^ 2 := by
  intro ks w
  have ran : Machine.run (step 2) boot (ks.map Event.run) = some w := rfl
  exact ⟨by decide, ran, primes_runs_end (by decide) ran⟩

/-- A scheduler: the lowest process that can take a step. -/
def lowest (N : Nat) (w : World) : Option Nat :=
  (List.range w.sys.count).find? fun k => (step N w (.run k)).isSome

/-- While some process can take a step, `lowest` picks one that can. -/
theorem lowest_picks (N : Nat) (w : World) (can : ∃ k w', step N w (.run k) = some w') :
    ∃ k w', lowest N w = some k ∧ step N w (.run k) = some w' := by
  obtain ⟨k, w', stepped⟩ := can
  have found : (lowest N w).isSome := by
    apply List.find?_isSome.mpr
    exact ⟨k, List.mem_range.mpr (step_run_lt stepped), by simp [stepped]⟩
  obtain ⟨j, picked⟩ := Option.isSome_iff_exists.mp found
  have first : (List.range w.sys.count).find? (fun k => (step N w (.run k)).isSome) = some j := picked
  have can : (step N w (.run j)).isSome := List.find?_some (p := fun k => (step N w (.run k)).isSome) first
  obtain ⟨w'', stepped'⟩ := Option.isSome_iff_exists.mp can
  exact ⟨j, w'', picked, stepped'⟩

/-- **`primes` ends.** A scheduler that, while some process can take a step, picks
one that can, reaches within `50 (N + 2)^2` steps a state where none can; there
`main` has exited, and the console holds every line. -/
theorem primes_scheduled_done (bound : N < 2 ^ 31) (next : World → Option Nat)
    (picks : ∀ w, (∃ k w', step N w (.run k) = some w') → ∃ k w', next w = some k ∧ step N w (.run k) = some w') :
    let w := Machine.drive (fun w k => step N w (.run k)) next (50 * (N + 2) ^ 2) boot
    (∀ k, step N w (.run k) = none) ∧ (w.sys.procs 0).life ≠ .running ∧ w.sys.console = expected N := by
  intro w
  have preserve : ∀ w w', PipelineInv N w.sys → (next w).bind (fun k => step N w (.run k)) = some w' →
      PipelineInv N w'.sys := by
    intro w w' inv picked
    obtain ⟨k, -, stepped⟩ := Option.bind_eq_some_iff.mp picked
    exact inv.step bound (step_run_sys stepped)
  have lower : ∀ w w', PipelineInv N w.sys → (next w).bind (fun k => step N w (.run k)) = some w' →
      potential N w'.sys < potential N w.sys := by
    intro w w' inv picked
    obtain ⟨k, -, stepped⟩ := Option.bind_eq_some_iff.mp picked
    exact inv.potential_step bound (step_run_sys stepped)
  obtain ⟨inv, stuck⟩ := Machine.drive_stuck preserve lower _ boot (pipelineInv_boot N) (potential_boot_le N)
  -- a process that could step would be picked, and the drive would go on
  have idle : ∀ k, step N w (.run k) = none := by
    intro k
    cases can : step N w (.run k) with
    | none => rfl
    | some w' =>
      obtain ⟨k', w'', chosen, stepped⟩ := picks w ⟨k, w', can⟩
      rw [chosen, Option.bind_some, stepped] at stuck
      cases stuck
  -- were `main` still running, some process could step
  have exited : (w.sys.procs 0).life ≠ .running := by
    intro main
    obtain ⟨k, s', stepped⟩ := inv.progress inv.count_pos main
    have moves := step_run_of_sys stepped
    rw [idle k] at moves
    cases moves
  exact ⟨idle, exited, inv.console_done exited⟩

theorem primes_scheduled_done_lowest :
    let w := Machine.drive (fun w k => step sourceLimit w (.run k)) (lowest sourceLimit)
      (50 * (sourceLimit + 2) ^ 2) boot
    (sourceLimit : Nat) < 2 ^ 31 ∧
      ((∀ k, step sourceLimit w (.run k) = none) ∧ (w.sys.procs 0).life ≠ .running ∧
        w.sys.console = expected sourceLimit) :=
  ⟨by decide, primes_scheduled_done (by decide) (lowest sourceLimit) (lowest_picks sourceLimit)⟩

end Xv6.Primes
