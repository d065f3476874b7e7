import Xv6.User.PrimesRun

/-!
Contract: what `primes` is for, and that every run in which each `fork` and
`pipe` succeeds does it. The console holds, at every moment, the beginning of a
line `prime p` for each prime `p ≤ N` in order (`expected`), and all of them once
`main` has exited; pipe `j` carries, each once and in order, the first numbers
that stage `j` of the abstract sieve (`Sieve.stream`) passes on, and stage `j + 1`
has taken the first of those.

Owns: `expected`, `lines`.
-/

namespace Xv6.Primes

open Xv6.Pipes

/-- What `primes` prints: `prime p` for each prime `p ≤ N`, in order. -/
def expected (N : Nat) : List UInt8 :=
  ((Sieve.primesUpTo N).map fun p => (primeLine (BitVec.ofNat 32 p)).map byte).flatten

/-- The lines of the first `n` stages. -/
def lines (N n : Nat) : List UInt8 :=
  ((List.range n).map fun k => (lineOf N k).map byte).flatten

/-! ### The lines of the stages -/

theorem lines_succ (N n : Nat) : lines N (n + 1) = lines N n ++ (lineOf N n).map byte := by
  simp [lines, List.range_succ]

theorem lines_prefix_of_le (N : Nat) {n n' : Nat} (le : n ≤ n') : lines N n <+: lines N n' := by
  obtain ⟨d, rfl⟩ := Nat.exists_eq_add_of_le le
  rw [lines, lines, List.range_add, List.map_append, List.flatten_append]
  exact List.prefix_append _ _

/-- Stage `k + 1` prints the `k`-th prime. -/
theorem lineOf_prime {N k : Nat} (lt : k < (Sieve.primesUpTo N).length) :
    lineOf N k = primeLine (BitVec.ofNat 32 (Sieve.primesUpTo N)[k]) := by
  apply lineOf_eq
  rw [Sieve.head?_stream, List.getElem?_eq_getElem lt]

/-- A stage for each prime prints all of `expected`. -/
theorem lines_primes (N : Nat) : lines N (Sieve.primesUpTo N).length = expected N := by
  have same : (List.range (Sieve.primesUpTo N).length).map (fun k => (lineOf N k).map byte) =
      (Sieve.primesUpTo N).map fun p => (primeLine (BitVec.ofNat 32 p)).map byte := by
    apply List.ext_getElem (by simp)
    intro k inside _
    rw [List.getElem_map, List.getElem_range, List.getElem_map, lineOf_prime (by simpa using inside)]
  rw [lines, expected, same]

theorem printed_prefix_line (line : List Char) (pc : Pc) : printed line pc <+: line := by
  cases pc <;> simp only [printed]
  all_goals first | exact List.nil_prefix | exact List.prefix_refl _ | exact List.take_prefix _ _

/-! ### What the stages have printed -/

section Stages

variable {N : Nat} {s : System Pc}

/-- A stage with a child has printed all of its line, for a number it received. -/
theorem StageOk.forked {j : Nat} (stage : StageOk N s (j + 1)) (child : j + 3 ≤ s.count) :
    printed (lineOf N j) (s.procs (j + 1)).pc = lineOf N j ∧ Sieve.stream N j ≠ [] := by
  have made := stage.made
  by_cases running : (s.procs (j + 1)).life = .running
  · have ok := stage.run running
    -- the lines of a stage with a child are past `printf`, and past its first read
    cases at_ : (s.procs (j + 1)).pc <;> rw [at_] at ok made <;>
      simp only [Made, RunOk, Drained, Nat.add_sub_cancel] at ok made
    all_goals try omega
    case wait => exact ⟨rfl, (ok.1.resolve_left (Nat.succ_ne_zero j)).1⟩
    case sieveClose =>
      obtain ⟨-, -, -, -, -, m, first, -⟩ := ok
      exact ⟨rfl, fun none => by simp [none] at first⟩
    case filter =>
      obtain ⟨-, -, -, m, rest, g, first, -⟩ := ok
      exact ⟨rfl, by simp [first]⟩
    case test =>
      obtain ⟨-, -, -, m, rest, g, x, first, -⟩ := ok
      exact ⟨rfl, by simp [first]⟩
    case sieveWrite =>
      obtain ⟨-, -, m, rest, g, x, first, -⟩ := ok
      exact ⟨rfl, by simp [first]⟩
    case sieveDone => exact ⟨rfl, (ok.2.2.1.resolve_left (Nat.succ_ne_zero j)).1⟩
  · rcases stage.done running with ⟨at_, drained⟩ | ⟨at_, -⟩
    · rw [at_]
      simp only [Drained, Nat.add_sub_cancel] at drained
      exact ⟨rfl, (drained.1.resolve_left (Nat.succ_ne_zero j)).1⟩
    · rw [at_] at made
      simp only [Made] at made
      omega

/-- The last stage has printed nothing, or is printing a number it received. -/
theorem StageOk.last_printed {j : Nat} (stage : StageOk N s (j + 1)) (last : s.count = j + 2) :
    printed (lineOf N j) (s.procs (j + 1)).pc = [] ∨ Sieve.stream N j ≠ [] := by
  have made := stage.made
  by_cases running : (s.procs (j + 1)).life = .running
  · have ok := stage.run running
    cases at_ : (s.procs (j + 1)).pc <;> rw [at_] at ok made <;>
      simp only [Made, RunOk, Nat.add_sub_cancel] at ok made
    all_goals first | omega | exact .inl rfl | skip
    case print =>
      obtain ⟨-, -, m, first, -⟩ := ok
      exact .inr fun none => by simp [none] at first
    case sievePipe =>
      obtain ⟨-, m, first, -⟩ := ok
      exact .inr fun none => by simp [none] at first
    case sieveFork =>
      obtain ⟨-, -, -, -, -, m, first, -⟩ := ok
      exact .inr fun none => by simp [none] at first
  · rcases stage.done running with ⟨at_, -⟩ | ⟨at_, -⟩
    · rw [at_] at made
      simp only [Made] at made
      omega
    · rw [at_]
      exact .inl rfl

/-- No more stages than primes, and `main`: each stage with a child received a
prime. -/
theorem PipelineInv.count_le (inv : PipelineInv N s) : s.count ≤ (Sieve.primesUpTo N).length + 2 := by
  by_contra more
  obtain ⟨j, stages⟩ : ∃ j, s.count = j + 3 := ⟨s.count - 3, by omega⟩
  have received := ((inv.stages (j + 1) (by omega)).forked (by omega)).2
  rw [Ne, Sieve.stream_eq_nil_iff] at received
  omega

/-- The console: the whole lines of the stages with a child, then what the last
stage has printed of its own. -/
theorem PipelineInv.console_eq (inv : PipelineInv N s) (two : 2 ≤ s.count) :
    s.console = lines N (s.count - 2) ++ (printed (lineOf N (s.count - 2)) (s.procs (s.count - 1)).pc).map byte := by
  rw [inv.console, consoleOf_last (show s.count = s.count - 1 + 1 by omega) (by omega : 0 < s.count - 1)]
  rw [show s.count - 1 - 1 = s.count - 2 by omega]
  congr 1
  unfold lines
  congr 1
  apply List.map_congr_left
  intro k member
  have lt := List.mem_range.mp member
  rw [((inv.stages (k + 1) (by omega)).forked (by omega)).1]

/-- A stage past end of file has taken all of its input. -/
theorem StageOk.taken_of_eof {j : Nat} (stage : StageOk N s (j + 1)) (eof : AtEof (s.procs (j + 1))) :
    (s.pipes j).taken = (words (Sieve.stream N j)).flatten := by
  have taken : inputTaken s (j + 1) = (s.pipes j).taken := rfl
  by_cases running : (s.procs (j + 1)).life = .running
  · have past := eof.resolve_left (not_not.mpr running)
    have ok := stage.run running
    -- only `wait` and `sieveDone` are past end of file
    cases at_ : (s.procs (j + 1)).pc <;> rw [at_] at ok past <;> simp only [Pc.pastEof] at past
    all_goals try exact absurd past Bool.false_ne_true
    case wait =>
      simp only [RunOk, Drained, Nat.add_sub_cancel] at ok
      rw [← taken]
      exact (ok.1.resolve_left (Nat.succ_ne_zero j)).2
    case sieveDone =>
      simp only [RunOk, Drained, Nat.add_sub_cancel] at ok
      rw [← taken]
      exact (ok.2.2.1.resolve_left (Nat.succ_ne_zero j)).2
  · rcases stage.done running with ⟨-, drained⟩ | ⟨-, -, none, nothing⟩
    · simp only [Drained, Nat.add_sub_cancel] at drained
      rw [← taken]
      exact (drained.1.resolve_left (Nat.succ_ne_zero j)).2
    · simp only [Nat.add_sub_cancel] at none
      rw [← taken, nothing, none]
      rfl

end Stages

/-! ### The console and the pipes in every good state -/

section Good

variable {N : Nat} {s : System Pc}

/-- At every moment the console holds the beginning of what `primes` prints. -/
theorem PipelineInv.console_prefix_expected (inv : PipelineInv N s) : s.console <+: expected N := by
  by_cases two : 2 ≤ s.count
  · rw [inv.console_eq two, ← lines_primes]
    have within := inv.count_le
    obtain ⟨j, last⟩ : ∃ j, s.count = j + 2 := ⟨s.count - 2, by omega⟩
    have stage := inv.stages (j + 1) (by omega)
    rw [last, show j + 2 - 2 = j by omega, show j + 2 - 1 = j + 1 by omega]
    rcases stage.last_printed last with none | received
    · rw [none, List.map_nil, List.append_nil]
      exact lines_prefix_of_le N (by omega)
    · -- the last stage is printing the `j`-th prime
      rw [Ne, Sieve.stream_eq_nil_iff, not_le] at received
      have printing : lines N j ++ (printed (lineOf N j) (s.procs (j + 1)).pc).map byte <+: lines N (j + 1) := by
        rw [lines_succ]
        exact (List.prefix_append_right_inj _).mpr ((printed_prefix_line _ _).map byte)
      exact printing.trans (lines_prefix_of_le N received)
  · have one : s.count = 1 := by
      have := inv.count_pos
      omega
    rw [inv.console, consoleOf, one]
    exact List.nil_prefix

/-- Once `main` has exited, so has every stage: each waited for its child, and the
last read end of file for its first number. -/
theorem PipelineInv.all_done (inv : PipelineInv N s) (main : (s.procs 0).life ≠ .running) :
    ∀ j < s.count, (s.procs j).life ≠ .running := by
  intro j
  induction j with
  | zero => exact fun _ => main
  | succ j ih =>
    intro lt
    have done := ih (by omega)
    rcases (inv.stages j (by omega)).done done with ⟨at_, -⟩ | ⟨at_, -⟩
    · -- `j` waited for its child, which is freed
      rw [(inv.linked j lt).freed.mpr ⟨at_, done⟩]
      simp
    · have made := (inv.stages j (by omega)).made
      rw [at_] at made
      simp only [Made] at made
      omega

/-- Once `main` has exited, the console holds all of what `primes` prints. -/
theorem PipelineInv.console_done (inv : PipelineInv N s) (main : (s.procs 0).life ≠ .running) :
    s.console = expected N := by
  have within := inv.count_le
  obtain ⟨j, last⟩ : ∃ j, s.count = j + 1 := ⟨s.count - 1, by have := inv.count_pos; omega⟩
  have stage := inv.stages j (by omega)
  rcases stage.done (inv.all_done main j (by omega)) with ⟨at_, -⟩ | ⟨at_, pos, none, -⟩
  · have made := stage.made
    rw [at_] at made
    simp only [Made] at made
    omega
  · -- the last stage read end of file for its first number: no prime is left
    rw [Sieve.stream_eq_nil_iff] at none
    rw [inv.console_eq (by omega), last, show j + 1 - 1 = j by omega, at_]
    simp only [printed, List.map_nil, List.append_nil]
    rw [show j + 1 - 2 = (Sieve.primesUpTo N).length by omega, lines_primes]

/-- Pipe `j` carries, each once and in order, the first numbers that stage `j` of
the sieve passes on, and its reader has taken the first of them. -/
theorem PipelineInv.pipe_prefix_stream (inv : PipelineInv N s) {j : Nat} (reader : j + 1 < s.count) :
    ∃ ys xs, ys <+: xs ∧ xs <+: Sieve.stream N j ∧ (s.pipes j).calls = words xs ∧
      (s.pipes j).taken = (words ys).flatten := by
  have writer := inv.stages j (by omega)
  obtain ⟨xs, sent, calls⟩ := writer.sent (by omega)
  by_cases eof : AtEof (s.procs (j + 1))
  · -- the reader is past end of file: its writer has sent all, and it took all
    have drained := writer.drained (by omega) ((inv.linked j reader).eof eof)
    have all : xs = Sieve.stream N j := by
      apply sent.eq_of_length
      have length := congrArg List.length (calls.symm.trans drained.2.1)
      simpa using length
    subst all
    exact ⟨_, _, List.prefix_refl _, List.prefix_refl _, calls, (inv.stages (j + 1) reader).taken_of_eof eof⟩
  · -- the reader holds the read end: it has taken the first records sent
    have reading := (inv.refs.readopen j).mpr ((inv.stages (j + 1) reader).holds_input reader eof)
    obtain ⟨m, g, -, -, -, taken, -⟩ := (inv.wholes j).whole reading
    refine ⟨xs.take g, xs, List.take_prefix g xs, sent, calls, ?_⟩
    rw [taken, calls, words, words, List.map_take]

end Good

/-! ### Every run -/

section Runs

variable {N : Nat} {w : World}

/-- **Safety.** In every run in which each `fork` and `pipe` succeeds, the console
holds, at every moment, the beginning of the lines `prime p` for the primes
`p ≤ N`, in order. -/
theorem reachable_console_prefix_expected (bound : N < 2 ^ 31) (reach : Reachable N w) (ok : w.failed = false) :
    w.sys.console <+: expected N :=
  (((reach.good bound).resolve_left (by simp [ok])).console_prefix_expected)

/-- `main` sends 2 and 3, and stage 1 has printed `prime` of its line. -/
theorem reachable_console_prefix_printing :
    let w := (Machine.run (step sourceLimit) boot (List.replicate 5 (.run 0) ++ List.replicate 10 (.run 1))).getD boot
    Reachable sourceLimit w ∧ w.failed = false ∧ w.sys.console <+: expected sourceLimit := by
  intro w
  have ran : Machine.run (step sourceLimit) boot (List.replicate 5 (.run 0) ++ List.replicate 10 (.run 1)) =
      some w := rfl
  have reach : Reachable sourceLimit w := Machine.reachable_of_run Relation.ReflTransGen.refl ran
  exact ⟨reach, rfl, reachable_console_prefix_expected (by decide) reach rfl⟩

/-- **Completion.** Once `main` has exited, the console holds every line. -/
theorem reachable_console_done (bound : N < 2 ^ 31) (reach : Reachable N w) (ok : w.failed = false)
    (main : (w.sys.procs 0).life ≠ .running) : w.sys.console = expected N :=
  ((reach.good bound).resolve_left (by simp [ok])).console_done main

/-- A whole run up to 2: `main`, stage 1 for the prime 2, and stage 2, which reads
end of file and exits; then each waits for its child and exits. -/
theorem reachable_console_done_two :
    let w := (Machine.run (step 2) boot (List.replicate 5 (.run 0) ++ List.replicate 19 (.run 1) ++
      List.replicate 22 (.run 2) ++ List.replicate 18 (.run 1) ++ List.replicate 18 (.run 0))).getD boot
    Reachable 2 w ∧ w.failed = false ∧ (w.sys.procs 0).life ≠ .running ∧ w.sys.console = expected 2 := by
  intro w
  have ran : Machine.run (step 2) boot (List.replicate 5 (.run 0) ++ List.replicate 19 (.run 1) ++
      List.replicate 22 (.run 2) ++ List.replicate 18 (.run 1) ++ List.replicate 18 (.run 0)) = some w := rfl
  have reach : Reachable 2 w := Machine.reachable_of_run Relation.ReflTransGen.refl ran
  have main : (w.sys.procs 0).life ≠ .running := by decide
  exact ⟨reach, rfl, main, reachable_console_done (by decide) reach rfl main⟩

/-- **No lost, repeated or reordered number.** Pipe `j` carries, as 4-byte
records, the first numbers of stage `j`'s stream of the sieve, and its reader has
taken the first of those. -/
theorem reachable_pipe_prefix_stream (bound : N < 2 ^ 31) (reach : Reachable N w) (ok : w.failed = false) {j : Nat}
    (reader : j + 1 < w.sys.count) :
    ∃ ys xs, ys <+: xs ∧ xs <+: Sieve.stream N j ∧ (w.sys.pipes j).calls = words xs ∧
      (w.sys.pipes j).taken = (words ys).flatten :=
  ((reach.good bound).resolve_left (by simp [ok])).pipe_prefix_stream reader

/-- Once `main` has forked, pipe 0 has a reader. -/
theorem reachable_pipe_prefix_forked :
    let w := (Machine.run (step sourceLimit) boot [.run 0, .run 0]).getD boot
    Reachable sourceLimit w ∧ w.failed = false ∧ 0 + 1 < w.sys.count ∧
      ∃ ys xs, ys <+: xs ∧ xs <+: Sieve.stream sourceLimit 0 ∧ (w.sys.pipes 0).calls = words xs ∧
        (w.sys.pipes 0).taken = (words ys).flatten := by
  intro w
  have ran : Machine.run (step sourceLimit) boot [.run 0, .run 0] = some w := rfl
  have reach : Reachable sourceLimit w := Machine.reachable_of_run Relation.ReflTransGen.refl ran
  have reader : 0 + 1 < w.sys.count := by decide
  exact ⟨reach, rfl, reader, reachable_pipe_prefix_stream (by decide) reach rfl reader⟩

/-- `primes` makes a process for each prime, and one more, at most. -/
theorem reachable_count_le (bound : N < 2 ^ 31) (reach : Reachable N w) (ok : w.failed = false) :
    w.sys.count ≤ (Sieve.primesUpTo N).length + 2 :=
  ((reach.good bound).resolve_left (by simp [ok])).count_le

theorem reachable_count_le_forked :
    let w := (Machine.run (step sourceLimit) boot [.run 0, .run 0]).getD boot
    Reachable sourceLimit w ∧ w.failed = false ∧ w.sys.count ≤ (Sieve.primesUpTo sourceLimit).length + 2 := by
  intro w
  have ran : Machine.run (step sourceLimit) boot [.run 0, .run 0] = some w := rfl
  have reach : Reachable sourceLimit w := Machine.reachable_of_run Relation.ReflTransGen.refl ran
  exact ⟨reach, rfl, reachable_count_le (by decide) reach rfl⟩

end Runs

end Xv6.Primes
