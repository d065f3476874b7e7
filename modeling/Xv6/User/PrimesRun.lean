import Xv6.User.PrimesPipeline

/-!
Contract: every step of `primes` keeps `PipelineInv`: one lemma for each line of
`main` and `sieve` and for `exit`'s steps, each from the spec lemmas of the calls
it makes (`Xv6.Pipe.Calls`); then every run in which no `fork` or `pipe` fails
keeps it (`Reachable.good`).

The numbers are at most `N < 2^31`, so that `num % prime` on the `int`s is the
remainder of the numbers.
-/

namespace Xv6.Primes

open Xv6.Pipes Xv6.Sh

variable {N : Nat} {s s' : System Pc}

/-! ### Steps that change one process, or two -/

/-- A step that changes processes `k` and `k + 1` and only process `k`'s records. -/
theorem PipelineInv.of_pair {k : Nat} (inv : PipelineInv N s) (count : s'.count = s.count)
    (npipes : s'.npipes = s.npipes) (others : ∀ j < s.count, j ≠ k → j ≠ k + 1 → s'.procs j = s.procs j)
    (views : ∀ j < s.count, j ≠ k → inputTaken s' j = inputTaken s j ∧
      (s'.pipes j).calls = (s.pipes j).calls ∧ (s'.pipes j).writer = (s.pipes j).writer)
    (refs : s'.Refs) (wholes : s'.Wholes 4) (stage : StageOk N s' k)
    (child : k + 1 < s.count → StageOk N s' (k + 1)) (below : ∀ i, i + 1 = k → Linked s' i)
    (above : k + 1 < s.count → Linked s' k) (beyond : k + 2 < s.count → Linked s' (k + 1))
    (console : s'.console = consoleOf N s') : PipelineInv N s' where
  refs := refs
  wholes := wholes
  count_pos := count ▸ inv.count_pos
  stages j lt := by
    rw [count] at lt
    by_cases self : j = k
    · subst self
      exact stage
    by_cases next : j = k + 1
    · subst next
      exact child lt
    obtain ⟨taken, calls, writer⟩ := views j lt self
    exact (inv.stages j lt).congr (others j lt self next) taken calls writer count npipes
  linked i lt := by
    rw [count] at lt
    by_cases low : i + 1 = k
    · exact below i low
    by_cases self : i = k
    · subst self
      exact above lt
    by_cases next : i = k + 1
    · subst next
      exact beyond lt
    exact (inv.linked i lt).congr (others i (by omega) self (by omega)) (others (i + 1) lt low (by omega))
  console := console

/-- A step that changes process `k` and its records only. -/
theorem PipelineInv.of_self {k : Nat} (inv : PipelineInv N s) (count : s'.count = s.count)
    (npipes : s'.npipes = s.npipes) (others : ∀ j < s.count, j ≠ k → s'.procs j = s.procs j)
    (views : ∀ j < s.count, j ≠ k → inputTaken s' j = inputTaken s j ∧
      (s'.pipes j).calls = (s.pipes j).calls ∧ (s'.pipes j).writer = (s.pipes j).writer)
    (refs : s'.Refs) (wholes : s'.Wholes 4) (stage : StageOk N s' k) (below : ∀ i, i + 1 = k → Linked s' i)
    (above : k + 1 < s.count → Linked s' k) (console : s'.console = consoleOf N s') : PipelineInv N s' := by
  apply inv.of_pair count npipes (fun j lt self _ => others j lt self) views refs wholes stage _ below above _ console
  · intro lt
    obtain ⟨taken, calls, writer⟩ := views (k + 1) lt (by omega)
    exact (inv.stages (k + 1) lt).congr (others (k + 1) lt (by omega)) taken calls writer count npipes
  · intro lt
    exact (inv.linked (k + 1) lt).congr (others (k + 1) (by omega) (by omega)) (others (k + 2) lt (by omega))

/-- A step of the last process, which may make a pipe or a child. -/
theorem PipelineInv.of_last {k : Nat} (inv : PipelineInv N s) (last : s.count = k + 1)
    (count : s.count ≤ s'.count) (born : s'.count ≤ k + 2) (npipes : s.npipes ≤ s'.npipes)
    (others : ∀ j < k, s'.procs j = s.procs j ∧ inputTaken s' j = inputTaken s j ∧
      (s'.pipes j).calls = (s.pipes j).calls ∧ (s'.pipes j).writer = (s.pipes j).writer)
    (refs : s'.Refs) (wholes : s'.Wholes 4) (stage : StageOk N s' k)
    (child : k + 1 < s'.count → StageOk N s' (k + 1)) (below : ∀ i, i + 1 = k → Linked s' i)
    (above : k + 1 < s'.count → Linked s' k) (console : s'.console = consoleOf N s') : PipelineInv N s' where
  refs := refs
  wholes := wholes
  count_pos := by omega
  stages j lt := by
    by_cases old : j < k
    · -- an older process has a child: it keeps what it asks as the last one makes more
      obtain ⟨proc, taken, calls, writer⟩ := others j old
      exact (inv.stages j (by omega)).grow proc taken calls writer (by omega) count npipes
    by_cases self : j = k
    · subst self
      exact stage
    obtain rfl : j = k + 1 := by omega
    exact child lt
  linked i lt := by
    by_cases low : i + 1 = k
    · exact below i low
    by_cases self : i = k
    · subst self
      exact above lt
    have old : i + 1 < k := by omega
    exact (inv.linked i (by omega)).congr (others i (by omega)).1 (others (i + 1) old).1
  console := console

/-- Where the pipes' records do not change, no process's view of them does. -/
theorem views_of_records (taken : ∀ n, (s'.pipes n).taken = (s.pipes n).taken)
    (calls : ∀ n, (s'.pipes n).calls = (s.pipes n).calls) (writer : ∀ n, (s'.pipes n).writer = (s.pipes n).writer)
    (j : Nat) : inputTaken s' j = inputTaken s j ∧ (s'.pipes j).calls = (s.pipes j).calls ∧
      (s'.pipes j).writer = (s.pipes j).writer :=
  ⟨by simp only [inputTaken, taken], calls j, writer j⟩

/-- A change of pipe `m` alone, to records with the same `taken`, is seen by
process `m` alone. -/
theorem views_setPipe {m : Nat} {f : Records → Records} (taken : (f (s.pipes m)).taken = (s.pipes m).taken)
    (j : Nat) (other : j ≠ m) :
    inputTaken (s.setPipe m f) j = inputTaken s j ∧ ((s.setPipe m f).pipes j).calls = (s.pipes j).calls ∧
      ((s.setPipe m f).pipes j).writer = (s.pipes j).writer := by
  refine ⟨?_, by simp [other], by simp [other]⟩
  unfold inputTaken
  split
  · rfl
  · by_cases same : j - 1 = m
    · simp [same, taken]
    · simp [same]

/-- A process's own pipe is not its input. -/
theorem inputTaken_setPipe_self (k : Nat) (f : Records → Records) :
    inputTaken (s.setPipe k f) k = inputTaken s k := by
  unfold inputTaken
  split
  · rfl
  · have differ : k - 1 ≠ k := by omega
    simp [differ]

/-- A reader that reads end of file keeps its link: its writer is done. -/
theorem Linked.eof_reader {i : Nat} (linked : Linked s i) (lo : s'.procs i = s.procs i)
    (running : (s.procs (i + 1)).life = .running) (kept : (s'.procs (i + 1)).life ≠ .freed)
    (idle : ¬Writing (s.procs i)) : Linked s' i where
  eof _ := by
    rw [lo]
    exact idle
  freed := by
    rw [lo, ← linked.freed, running]
    exact ⟨fun freed => absurd freed kept, fun freed => by cases freed⟩

/-- The console's account after a step of process `k` that prints nothing. -/
theorem PipelineInv.console_step {k : Nat} (inv : PipelineInv N s) {pc pc' : Pc} (at_ : (s.procs k).pc = pc)
    (count : s'.count = s.count) (others : ∀ j, j ≠ k → s'.procs j = s.procs j) (pcAt : (s'.procs k).pc = pc')
    (console : s'.console = s.console)
    (same : 0 < k → printed (lineOf N (k - 1)) pc' = printed (lineOf N (k - 1)) pc) :
    s'.console = consoleOf N s' := by
  rw [console, inv.console]
  symm
  apply consoleOf_step count (fun j _ other => others j other)
  intro pos
  rw [pcAt, at_]
  exact same pos

/-- A line past end of file was reached from one past it. -/
theorem PipelineInv.eof_of_past {k : Nat} (inv : PipelineInv N s) (lt : k < s.count) {pc' : Pc}
    (past : pc'.pastEof = true → (s.procs k).pc.pastEof = true) :
    ∀ i, i + 1 = k → pc'.pastEof = true → ¬Writing (s.procs i) := by
  intro i below eof
  subst below
  exact (inv.linked i lt).eof (.inr (past eof))

/-! ### What a read or a write of a record finds -/

/-- A read that changes pipe `m` only in its ring and what was taken is seen by
the reader of `m` alone. -/
theorem views_read {m : Nat} {f : Records → Records} (calls : (f (s.pipes m)).calls = (s.pipes m).calls)
    (writer : (f (s.pipes m)).writer = (s.pipes m).writer) (j : Nat) (other : j ≠ m + 1) :
    inputTaken (s.setPipe m f) j = inputTaken s j ∧ ((s.setPipe m f).pipes j).calls = (s.pipes j).calls ∧
      ((s.setPipe m f).pipes j).writer = (s.pipes j).writer := by
  refine ⟨?_, ?_, ?_⟩
  · unfold inputTaken
    split
    · rfl
    · have differ : j - 1 ≠ m := by omega
      simp [differ]
  · by_cases same : j = m <;> simp [same, calls]
  · by_cases same : j = m <;> simp [same, writer]

/-- What a read of 4 bytes by stage `j + 1` finds in pipe `j` when it has taken
the records of `xs`, a prefix of stage `j`'s stream: end of file once the writer
is done with the write end and all of the stream is taken, or the record of the
next number. -/
theorem PipelineInv.read_input {j fd : Nat} (inv : PipelineInv N s) (lt : j + 1 < s.count)
    (awake : ¬AtEof (s.procs (j + 1))) (found : (s.procs (j + 1)).fd fd = some (.pipeRead j))
    {xs : List Nat} (prefix_ : xs <+: Sieve.stream N j) (taken : (s.pipes j).taken = (words xs).flatten)
    {ret : Int} {bytes : List UInt8} (red : s.read (j + 1) fd 4 = some (ret, bytes, s')) :
    (∃ pi, s' = s.setPipe j fun r => { r with pipe := pi, taken := r.taken ++ bytes }) ∧
      (ret = 0 ∧ bytes = [] ∧ xs = Sieve.stream N j ∧ ¬Writing (s.procs j) ∨
        ret = 4 ∧ ∃ x, (Sieve.stream N j)[xs.length]? = some x ∧ bytes = word x) := by
  obtain ⟨pi, result, rfl⟩ := System.read_pipeRead found red
  refine ⟨⟨pi, rfl⟩, ?_⟩
  have writer := inv.stages j (by omega)
  have reading := (inv.refs.readopen j).mpr ((inv.stages (j + 1) lt).holds_input lt awake)
  have sized := (inv.wholes j).sized
  obtain ⟨m, g, -, bound, -, takenG, progress, outcome⟩ := (inv.wholes j).read (by decide) reading
  -- the reader has taken the first `xs.length` records
  have counted : g = xs.length := by
    have length := length_flatten_take sized (show g ≤ (s.pipes j).calls.length by omega)
    rw [← takenG, taken, length_flatten_words] at length
    omega
  obtain ⟨ws, sent, calls⟩ := writer.sent (by omega)
  rcases outcome with ⟨sleeps, -, -⟩ | ⟨zero, same, closed⟩ | ⟨pending, returns, took⟩
  · rw [sleeps] at result
    cases result
  · -- end of file: the writer has let go of the write end, so it has sent all its stream
    rw [zero] at result
    simp only [Prod.mk.injEq, Stop.returns.injEq] at result
    obtain ⟨rfl, -, rfl⟩ := result
    have idle : ¬Writing (s.procs j) := fun writing => by
      have opened := (inv.refs.writeopen j).mpr (writer.holds_output (by omega) writing)
      rw [closed] at opened
      cases opened
    obtain ⟨-, all, none⟩ := writer.drained (by omega) idle
    have length : (s.pipes j).calls.length = m := by
      rcases progress with ⟨-, length⟩ | ⟨r, waiting, -⟩
      · exact length
      · rw [none] at waiting
        cases waiting
    rw [all, length_words] at length
    exact .inl ⟨rfl, rfl, prefix_.eq_of_length (by omega), idle⟩
  · -- a record is pending: the next one the writer sent
    rw [result] at returns took
    cases returns
    rw [calls, words, List.getElem?_map, Option.map_eq_some_iff] at took
    obtain ⟨x, at_, rfl⟩ := took
    obtain ⟨inside, rfl⟩ := List.getElem?_eq_some_iff.mp at_
    refine .inr ⟨rfl, ws[g], ?_, rfl⟩
    rw [← counted]
    exact List.prefix_iff_getElem?.mp sent g inside

/-- A `write` of a number's record by process `j` on its own pipe, while it holds
the write end and its child reads: the record is sent and stored with 4
returned, or the call sleeps before its first byte. -/
theorem PipelineInv.write_output {j fd x : Nat} (inv : PipelineInv N s) (reader : j + 1 < s.count)
    (writing : Writing (s.procs j)) (found : (s.procs j).fd fd = some (.pipeWrite j))
    (idle : (s.pipes j).writer = none) {stop : Stop} {s₁ : System Pc}
    (wrote : s.write j fd (word x) = some (stop, s₁)) :
    s₁ = s.setPipe j (fun _ => { s.pipes j with calls := (s.pipes j).calls ++ [word x] }.writerStretch (word x) 0) ∧
      (stop = .returns 4 ∧ (s₁.pipes j).writer = none ∨
        stop = .sleeps 0 ∧ (s₁.pipes j).writer = some (word x, 0)) := by
  rw [System.write_pipeWrite found idle, Option.some.injEq, Prod.mk.injEq] at wrote
  obtain ⟨rfl, rfl⟩ := wrote
  refine ⟨rfl, ?_⟩
  -- the child holds the read end: it is not past end of file while `j` writes
  have awake : ¬AtEof (s.procs (j + 1)) := fun eof => (inv.linked j reader).eof eof writing
  have reading := (inv.refs.readopen j).mpr ((inv.stages (j + 1) reader).holds_input reader awake)
  simp only [System.setPipe_pipes, if_true, System.writerStretch_writer, List.drop_zero]
  rcases System.write_stop (by decide) (inv.wholes j) reading (length_word x) 0 with returns | sleeps
  · exact .inl ⟨returns, by simp [returns]⟩
  · exact .inr ⟨sleeps, by simp [sleeps]⟩

/-- The woken `write` of a record asleep before its first byte: it stores the
record and returns 4. -/
theorem PipelineInv.resume_output {j fd x : Nat} (inv : PipelineInv N s) (reader : j + 1 < s.count)
    (writing : Writing (s.procs j)) (found : (s.procs j).fd fd = some (.pipeWrite j))
    (waiting : (s.pipes j).writer = some (word x, 0)) {stop : Stop} {s₁ : System Pc}
    (resumed : s.resume j fd = some (stop, s₁)) :
    stop = .returns 4 ∧ s₁ = s.setPipe j (fun r => r.writerStretch (word x) 0) ∧
      (s₁.pipes j).writer = none := by
  obtain ⟨record, i, waiting', rfl, awake, rfl⟩ := System.resume_pipeWrite found resumed
  rw [waiting, Option.some.injEq, Prod.mk.injEq] at waiting'
  obtain ⟨rfl, rfl⟩ := waiting'
  have eof : ¬AtEof (s.procs (j + 1)) := fun eof => (inv.linked j reader).eof eof writing
  have reading := (inv.refs.readopen j).mpr ((inv.stages (j + 1) reader).holds_input reader eof)
  rw [List.drop_zero] at awake ⊢
  rcases System.write_stop (by decide) (inv.wholes j) reading (length_word x) 0 with returns | sleeps
  · refine ⟨by rw [returns]; rfl, rfl, ?_⟩
    simp only [System.setPipe_pipes, if_true, System.writerStretch_writer, List.drop_zero, returns]
  · exact absurd sleeps awake

/-! ### A step to the next line -/

section Lines

variable {k : Nat} (inv : PipelineInv N s) (lt : k < s.count) (running : (s.procs k).life = .running)
include inv lt running

/-- A step of process `k` from `pc` to `pc'`, running on with the descriptors of
`pc'`, that changes no other process and no other's records: it keeps the
invariant where `pc'` asks what `RunOk` asks of the records, is past end of file
only once the writer is done, and holds the write end no more than `pc`. -/
theorem PipelineInv.line_step {pc pc' : Pc} (at_ : (s.procs k).pc = pc) (count : s'.count = s.count)
    (npipes : s'.npipes = s.npipes) (others : ∀ j, j ≠ k → s'.procs j = s.procs j)
    (views : ∀ j < s.count, j ≠ k → inputTaken s' j = inputTaken s j ∧
      (s'.pipes j).calls = (s.pipes j).calls ∧ (s'.pipes j).writer = (s.pipes j).writer)
    (refs : s'.Refs) (wholes : s'.Wholes 4) (pcAt : (s'.procs k).pc = pc')
    (lifeAt : (s'.procs k).life = .running) (parentAt : (s'.procs k).parent = (s.procs k).parent)
    (fdsAt : (s'.procs k).fds = toFds (envAt k pc')) (made : Made k s.count s.npipes pc → Made k s.count s.npipes pc')
    (ok : RunOk N k (inputTaken s' k) (s'.pipes k).calls (s'.pipes k).writer pc')
    (eof : ∀ i, i + 1 = k → pc'.pastEof = true → ¬Writing (s.procs i))
    (writes : k + 1 < s.count → pc'.holdsWrite = true → pc.holdsWrite = true)
    (console : s'.console = consoleOf N s') : PipelineInv N s' := by
  have stage := inv.stages k lt
  apply inv.of_self count npipes (fun j _ other => others j other) views refs wholes
  · apply stage.running running lifeAt parentAt (by rw [pcAt]; exact fdsAt)
    · rw [pcAt, count, npipes]
      exact made (at_ ▸ stage.made)
    · rw [pcAt]
      exact ok
  · intro i below
    subst below
    have linked := inv.linked i lt
    refine ⟨?_, ?_⟩
    · rintro (stopped | past)
      · exact absurd lifeAt stopped
      · rw [others i (by omega)]
        exact eof i rfl (pcAt ▸ past)
    · rw [others i (by omega), lifeAt, ← linked.freed, running]
  · intro reader
    apply (inv.linked k reader).running_writer (others (k + 1) (by omega)) running lifeAt
    rw [pcAt, at_]
    exact writes reader
  · exact console

/-- `close(fd)` and on to `pc'`, whose descriptors are those of `pc` without `fd`:
no records change. -/
theorem PipelineInv.close_step {pc pc' : Pc} {fd : Nat} (at_ : (s.procs k).pc = pc) (inside : fd < nOFile)
    (env : Function.update (envAt k pc) fd none = envAt k pc')
    (made : Made k s.count s.npipes pc → Made k s.count s.npipes pc')
    (ok : RunOk N k (inputTaken s k) (s.pipes k).calls (s.pipes k).writer pc →
      RunOk N k (inputTaken s k) (s.pipes k).calls (s.pipes k).writer pc')
    (eof : ∀ i, i + 1 = k → pc'.pastEof = true → ¬Writing (s.procs i))
    (writes : k + 1 < s.count → pc'.holdsWrite = true → pc.holdsWrite = true)
    (same : 0 < k → printed (lineOf N (k - 1)) pc' = printed (lineOf N (k - 1)) pc) :
    PipelineInv N ((s.close k fd).setPc k pc') := by
  have stage := inv.stages k lt
  have others : ∀ j, j ≠ k → ((s.close k fd).setPc k pc').procs j = s.procs j := by
    intro j other
    simp [System.close_procs, other]
  have pcAt : (((s.close k fd).setPc k pc').procs k).pc = pc' := by simp
  have views := @views_of_records s ((s.close k fd).setPc k pc') (by simp) (by simp) (by simp)
  apply inv.line_step lt running at_ (by simp) (by simp) others (fun j _ _ => views j)
    ((inv.refs.close lt fd).setPc k pc') ((inv.wholes.close k fd).of_pipes rfl) pcAt
    (by simp [System.close_procs, running]) (by simp [System.close_procs]) _ made _ eof writes
    (inv.console_step at_ (by simp) others pcAt (by simp) same)
  · simp only [System.setPc_procs, System.close_procs, if_true]
    rw [stage.fds, envOf_running running, at_, close_toFds _ inside, env]
  · rw [(views k).1, (views k).2.1, (views k).2.2]
    exact ok (at_ ▸ stage.run running)

/-- A step of process `k` that changes pipe `m` alone and goes on to `pc'`, whose
descriptors are those of `pc`. -/
theorem PipelineInv.setPipe_step {pc pc' : Pc} {m : Nat} {f : Records → Records} (at_ : (s.procs k).pc = pc)
    (seen : ∀ j < s.count, j ≠ k → inputTaken (s.setPipe m f) j = inputTaken s j ∧
      ((s.setPipe m f).pipes j).calls = (s.pipes j).calls ∧ ((s.setPipe m f).pipes j).writer = (s.pipes j).writer)
    (refs : (s.setPipe m f).Refs) (wholes : (s.setPipe m f).Wholes 4) (env : envAt k pc' = envAt k pc)
    (made : Made k s.count s.npipes pc → Made k s.count s.npipes pc')
    (ok : RunOk N k (inputTaken (s.setPipe m f) k) ((s.setPipe m f).pipes k).calls
      ((s.setPipe m f).pipes k).writer pc')
    (eof : ∀ i, i + 1 = k → pc'.pastEof = true → ¬Writing (s.procs i))
    (writes : k + 1 < s.count → pc'.holdsWrite = true → pc.holdsWrite = true)
    (same : 0 < k → printed (lineOf N (k - 1)) pc' = printed (lineOf N (k - 1)) pc) :
    PipelineInv N ((s.setPipe m f).setPc k pc') := by
  have stage := inv.stages k lt
  have others : ∀ j, j ≠ k → ((s.setPipe m f).setPc k pc').procs j = s.procs j := by
    intro j other
    simp [other]
  have pcAt : (((s.setPipe m f).setPc k pc').procs k).pc = pc' := by simp
  refine inv.line_step lt running at_ (by simp) (by simp) others seen (refs.setPc k pc') (wholes.of_pipes rfl)
    pcAt (by simp [running]) (by simp) ?_ made ok eof writes
    (inv.console_step at_ (by simp) others pcAt (by simp) same)
  simp only [System.setPc_procs, System.setPipe_procs, if_true]
  rw [stage.fds, envOf_running running, at_, env]

/-- A step of process `k` to `pc'`, whose descriptors are those of `pc`, with no
call. -/
theorem PipelineInv.setPc_step {pc pc' : Pc} (at_ : (s.procs k).pc = pc) (env : envAt k pc' = envAt k pc)
    (made : Made k s.count s.npipes pc → Made k s.count s.npipes pc')
    (ok : RunOk N k (inputTaken s k) (s.pipes k).calls (s.pipes k).writer pc')
    (eof : ∀ i, i + 1 = k → pc'.pastEof = true → ¬Writing (s.procs i))
    (writes : k + 1 < s.count → pc'.holdsWrite = true → pc.holdsWrite = true)
    (same : 0 < k → printed (lineOf N (k - 1)) pc' = printed (lineOf N (k - 1)) pc) :
    PipelineInv N (s.setPc k pc') := by
  have stage := inv.stages k lt
  have others : ∀ j, j ≠ k → (s.setPc k pc').procs j = s.procs j := by
    intro j other
    simp [other]
  have pcAt : ((s.setPc k pc').procs k).pc = pc' := by simp
  refine inv.line_step lt running at_ (by simp) (by simp) others (fun j _ _ => ⟨rfl, rfl, rfl⟩)
    (inv.refs.setPc k pc') (inv.wholes.of_pipes rfl) pcAt (by simp [running]) (by simp) ?_ made ok eof writes
    (inv.console_step at_ (by simp) others pcAt (by simp) same)
  simp only [System.setPc_procs, if_true]
  rw [stage.fds, envOf_running running, at_, env]

theorem PipelineInv.mainClose_step {p0 p1 : Nat} (at_ : (s.procs k).pc = .mainClose p0 p1) :
    PipelineInv N ((s.close k p0).setPc k (.mainLoop p1 2)) := by
  have ok := (inv.stages k lt).run running
  rw [at_] at ok
  obtain ⟨rfl, rfl, rfl, calls, writer⟩ := ok
  refine inv.close_step lt running at_ (by decide) ?_ id ?_ (fun i below => absurd below (Nat.succ_ne_zero i))
    (fun _ writes => writes) (fun _ => rfl)
  · exact withEnds_close_read 0 (home_three 0)
  · exact fun _ => ⟨rfl, rfl, le_rfl, Nat.zero_le _, by simp [calls, words], writer⟩

/-- `main` past its loop: `close(p[1])`, and all of `2, …, N` has been sent. -/
theorem PipelineInv.mainExit_step {p1 i : Nat} (at_ : (s.procs k).pc = .mainLoop p1 i) (past : ¬i ≤ N) :
    PipelineInv N ((s.close k p1).setPc k .wait) := by
  have ok := (inv.stages k lt).run running
  rw [at_] at ok
  obtain ⟨rfl, rfl, -, -, calls, writer⟩ := ok
  refine inv.close_step lt running at_ (by decide) ?_ id ?_ (fun i below => absurd below (Nat.succ_ne_zero i))
    (fun _ writes => absurd writes (by decide)) (fun _ => rfl)
  · exact update_close (home_four 0) _
  · refine fun _ => ⟨.inl rfl, ?_, writer⟩
    rw [calls, List.take_of_length_le]
    simp only [Sieve.stream, List.length_range']
    omega

theorem PipelineInv.childCloseWrite_step {p0 p1 : Nat} (at_ : (s.procs k).pc = .childCloseWrite p0 p1) :
    PipelineInv N ((s.close k p1).setPc k (.childCloseInput p0)) := by
  have ok := (inv.stages k lt).run running
  rw [at_] at ok
  obtain ⟨pos, rfl, rfl, taken⟩ := ok
  refine inv.close_step lt running at_ (by decide) ?_ id (fun _ => ⟨pos, rfl, taken⟩)
    (fun _ _ eof => absurd eof (by decide)) (fun _ writes => absurd writes (by decide)) (fun _ => rfl)
  exact withEnds_close_write (k - 1) (home_four (k - 1))

theorem PipelineInv.childCloseInput_step {p0 : Nat} (at_ : (s.procs k).pc = .childCloseInput p0) :
    PipelineInv N ((s.close k 0).setPc k (.childDup p0)) := by
  have ok := (inv.stages k lt).run running
  rw [at_] at ok
  obtain ⟨pos, rfl, taken⟩ := ok
  refine inv.close_step lt running at_ (by decide) ?_ id (fun _ => ⟨pos, rfl, taken⟩)
    (fun _ _ eof => absurd eof (by decide)) (fun _ writes => absurd writes (by decide)) (fun _ => rfl)
  rfl

theorem PipelineInv.childCloseRead_step {p0 : Nat} (at_ : (s.procs k).pc = .childCloseRead p0) :
    PipelineInv N ((s.close k p0).setPc k .readPrime) := by
  have ok := (inv.stages k lt).run running
  rw [at_] at ok
  obtain ⟨pos, rfl, taken⟩ := ok
  refine inv.close_step lt running at_ (by decide) ?_ id (fun _ => ⟨pos, taken⟩)
    (fun _ _ eof => absurd eof (by decide)) (fun _ writes => absurd writes (by decide)) (fun _ => rfl)
  exact update_close (home_three k) _

/-- The parent's `close(p_right[0])`: the stage starts its loop with its first
number taken and nothing sent. -/
theorem PipelineInv.sieveClose_step {prime : BitVec 32} {q0 q1 : Nat}
    (at_ : (s.procs k).pc = .sieveClose prime q0 q1) :
    PipelineInv N ((s.close k q0).setPc k (.filter prime q1)) := by
  have ok := (inv.stages k lt).run running
  rw [at_] at ok
  obtain ⟨pos, rfl, rfl, calls, writer, m, first, rfl, taken⟩ := ok
  obtain ⟨rest, stream⟩ := List.head?_eq_some_iff.mp first
  refine inv.close_step lt running at_ (by decide) ?_ id ?_ (fun _ _ eof => by cases eof)
    (fun _ writes => writes) (fun _ => rfl)
  · exact withEnds_close_read k (home_three k)
  · refine fun _ => ⟨pos, rfl, writer, m, rest, 0, stream, rfl, Nat.zero_le _, ?_, ?_⟩
    · simp [taken, words]
    · simp [calls, words, passed]

/-- `close(p_right[1])` once the input is drained. -/
theorem PipelineInv.sieveDone_step {q1 : Nat} (at_ : (s.procs k).pc = .sieveDone q1) :
    PipelineInv N ((s.close k q1).setPc k .wait) := by
  have ok := (inv.stages k lt).run running
  rw [at_] at ok
  obtain ⟨pos, rfl, drained⟩ := ok
  refine inv.close_step lt running at_ (by decide) ?_ id (fun _ => drained)
    (inv.eof_of_past lt fun _ => by rw [at_]; rfl) (fun _ writes => absurd writes (by decide)) (fun _ => rfl)
  exact update_close (home_four k) _

/-- `dup(p[0])` in the child: the read end lands on 0, which `close(0)` freed. -/
theorem PipelineInv.childDup_step {p0 : Nat} (at_ : (s.procs k).pc = .childDup p0) :
    PipelineInv N ((s.dup k p0).setPc k (.childCloseRead p0)) := by
  have stage := inv.stages k lt
  have ok := stage.run running
  rw [at_] at ok
  obtain ⟨pos, rfl, taken⟩ := ok
  have others : ∀ j, j ≠ k → ((s.dup k 3).setPc k (.childCloseRead 3)).procs j = s.procs j := by
    intro j other
    simp [other]
  have pcAt : (((s.dup k 3).setPc k (.childCloseRead 3)).procs k).pc = .childCloseRead 3 := by simp
  refine inv.line_step lt running at_ (by simp) (by simp) others (fun j _ _ => ⟨rfl, rfl, rfl⟩)
    ((inv.refs.dup lt 3).setPc k _) (inv.wholes.of_pipes rfl) pcAt (by simp [running]) (by simp) ?_ id
    ⟨pos, rfl, taken⟩ (fun _ _ eof => absurd eof (by decide)) (fun _ writes => absurd writes (by decide))
    (inv.console_step at_ (by simp) others pcAt (by simp) fun _ => rfl)
  simp only [System.setPc_procs, System.dup_procs, if_true]
  rw [stage.fds, envOf_running running, at_, dup_toFds (by decide : 0 < nOFile) (by simp [envAt])
    (fun _ below => absurd below (Nat.not_lt_zero _)) (by decide : 3 < nOFile)
    (show envAt k (.childDup 3) 3 = some (.pipeRead (k - 1)) by simp [envAt]),
    childDup_env pos]

/-- `printf` done: on to `pipe(p_right)`. -/
theorem PipelineInv.printed_step {prime : BitVec 32} (at_ : (s.procs k).pc = .print prime []) :
    PipelineInv N (s.setPc k (.sievePipe prime)) := by
  have ok := (inv.stages k lt).run running
  rw [at_] at ok
  obtain ⟨pos, -, first⟩ := ok
  exact inv.setPc_step lt running at_ rfl id ⟨pos, first⟩ (fun _ _ eof => by cases eof)
    (fun _ writes => by cases writes) fun _ => by simp [printed]

/-- `write(p[1], &i, sizeof(int))` in `main`'s loop: on to `i + 1`, or asleep. -/
theorem PipelineInv.mainLoop_step {p1 i : Nat} (at_ : (s.procs k).pc = .mainLoop p1 i) (within : i ≤ N)
    {stop : Stop} {s₁ : System Pc} (wrote : s.write k p1 (intBytes (BitVec.ofNat 32 i)) = some (stop, s₁)) :
    PipelineInv N (s₁.setPc k (afterWrite stop (.mainLoop p1 (i + 1)) (.mainWrite p1 i) (.error mainError))) := by
  have stage := inv.stages k lt
  have ok := stage.run running
  rw [at_] at ok
  obtain ⟨rfl, rfl, two, -, calls, writer⟩ := ok
  have found : (s.procs 0).fd 4 = some (.pipeWrite 0) := by
    rw [System.fd_toFds stage.fds (by decide), envOf_running running, at_]
    rfl
  have reader : 1 < s.count := by
    have made := stage.made
    rw [at_] at made
    exact made.1
  obtain ⟨rfl, outcome⟩ := inv.write_output reader ⟨running, by rw [at_]; rfl⟩ found writer wrote
  have sent : words ((Sieve.stream N 0).take (i - 2)) ++ [word i] = words ((Sieve.stream N 0).take (i - 1)) := by
    rw [← stream_zero_take_succ two within, words_append]
    rfl
  rcases outcome with ⟨rfl, idle⟩ | ⟨rfl, asleep⟩
  · -- the record is stored: on to the next number
    refine inv.setPipe_step lt running at_ (fun j _ other => views_setPipe rfl j other) (inv.refs.write lt wrote)
      (inv.wholes.write (by decide) inv.refs lt (length_word i) wrote) rfl id ?_ (fun _ _ eof => by cases eof)
      (fun _ writes => writes) fun _ => rfl
    refine ⟨rfl, rfl, by omega, by omega, ?_, idle⟩
    simp [calls, sent, show i + 1 - 2 = i - 1 by omega]
  · -- the ring is full: asleep before the record's first byte
    refine inv.setPipe_step lt running at_ (fun j _ other => views_setPipe rfl j other) (inv.refs.write lt wrote)
      (inv.wholes.write (by decide) inv.refs lt (length_word i) wrote) rfl id ?_ (fun _ _ eof => by cases eof)
      (fun _ writes => writes) fun _ => rfl
    refine ⟨rfl, rfl, two, within, ?_, asleep⟩
    simp [calls, sent]

/-- `main`'s `write`, woken: the record is stored, on to the next number. -/
theorem PipelineInv.mainWrite_step {p1 i : Nat} (at_ : (s.procs k).pc = .mainWrite p1 i) {stop : Stop}
    {s₁ : System Pc} (resumed : s.resume k p1 = some (stop, s₁)) :
    PipelineInv N (s₁.setPc k (afterWrite stop (.mainLoop p1 (i + 1)) (.mainWrite p1 i) (.error mainError))) := by
  have stage := inv.stages k lt
  have ok := stage.run running
  rw [at_] at ok
  obtain ⟨rfl, rfl, two, within, calls, writer⟩ := ok
  have found : (s.procs 0).fd 4 = some (.pipeWrite 0) := by
    rw [System.fd_toFds stage.fds (by decide), envOf_running running, at_]
    rfl
  have reader : 1 < s.count := by
    have made := stage.made
    rw [at_] at made
    exact made.1
  obtain ⟨rfl, rfl, idle⟩ := inv.resume_output reader ⟨running, by rw [at_]; rfl⟩ found writer resumed
  refine inv.setPipe_step lt running at_ (fun j _ other => views_setPipe rfl j other) (inv.refs.resume lt resumed)
    (inv.wholes.resume (by decide) resumed) rfl id ?_ (fun _ _ eof => by cases eof) (fun _ writes => writes)
    fun _ => rfl
  refine ⟨rfl, rfl, by omega, by omega, ?_, idle⟩
  simp [calls, show i + 1 - 2 = i - 1 by omega]

/-- `write(p_right[1], &num, sizeof(int))` of a number the prime does not
divide: on to the next read, or asleep. -/
theorem PipelineInv.test_write_step (bound : N < 2 ^ 31) {prime num : BitVec 32} {q1 : Nat}
    (at_ : (s.procs k).pc = .test prime num q1) (apart : num.srem prime ≠ 0) {stop : Stop} {s₁ : System Pc}
    (wrote : s.write k q1 (intBytes num) = some (stop, s₁)) :
    PipelineInv N (s₁.setPc k (afterWrite stop (.filter prime q1) (.sieveWrite prime q1) (.error sieveError))) := by
  have stage := inv.stages k lt
  have ok := stage.run running
  have made := stage.made
  rw [at_] at ok made
  obtain ⟨pos, rfl, writer, m, rest, g, x, first, rfl, at_x, rfl, taken, calls⟩ := ok
  -- the numbers of the stream are at most `N`, so `%` on the `int`s is `%` on them
  have boundM := (Sieve.mem_stream (first ▸ List.mem_cons_self : m ∈ Sieve.stream N (k - 1))).2
  have boundX := (Sieve.mem_stream (first ▸ List.mem_cons_of_mem m (List.mem_of_getElem? at_x) :
    x ∈ Sieve.stream N (k - 1))).2
  have keeps : x % m ≠ 0 := (srem_ne_zero_iff (by omega) (by omega)).mp apart
  have found : (s.procs k).fd 4 = some (.pipeWrite k) := by
    rw [System.fd_toFds stage.fds (by decide), envOf_running running, at_]
    simp [envAt]
  have reader : k + 1 < s.count := by
    have := made.1
    omega
  obtain ⟨rfl, outcome⟩ := inv.write_output reader ⟨running, by rw [at_]; rfl⟩ found writer wrote
  have sent : words (passed m (rest.take g)) ++ [word x] = words (passed m (rest.take (g + 1))) := by
    rw [take_succ_of_getElem? at_x]
    simp [passed, List.filter_append, words, keeps]
  rcases outcome with ⟨rfl, idle⟩ | ⟨rfl, asleep⟩
  · refine inv.setPipe_step lt running at_ (fun j _ other => views_setPipe rfl j other) (inv.refs.write lt wrote)
      (inv.wholes.write (by decide) inv.refs lt (length_word x) wrote) rfl id ?_ (fun _ _ eof => by cases eof)
      (fun _ writes => writes) fun _ => rfl
    refine ⟨pos, rfl, idle, m, rest, g + 1, first, rfl, ?_, ?_, ?_⟩
    · exact (List.getElem?_eq_some_iff.mp at_x).1
    · rw [inputTaken_setPipe_self]
      exact taken
    · simp [calls, sent]
  · refine inv.setPipe_step lt running at_ (fun j _ other => views_setPipe rfl j other) (inv.refs.write lt wrote)
      (inv.wholes.write (by decide) inv.refs lt (length_word x) wrote) rfl id ?_ (fun _ _ eof => by cases eof)
      (fun _ writes => writes) fun _ => rfl
    refine ⟨pos, rfl, m, rest, g, x, first, rfl, at_x, keeps, ?_, ?_, asleep⟩
    · rw [inputTaken_setPipe_self]
      exact taken
    · simp [calls, sent]

/-- A number the prime divides is dropped: on to the next read. -/
theorem PipelineInv.test_skip_step (bound : N < 2 ^ 31) {prime num : BitVec 32} {q1 : Nat}
    (at_ : (s.procs k).pc = .test prime num q1) (divides : ¬num.srem prime ≠ 0) :
    PipelineInv N (s.setPc k (.filter prime q1)) := by
  have ok := (inv.stages k lt).run running
  rw [at_] at ok
  obtain ⟨pos, rfl, writer, m, rest, g, x, first, rfl, at_x, rfl, taken, calls⟩ := ok
  have boundM := (Sieve.mem_stream (first ▸ List.mem_cons_self : m ∈ Sieve.stream N (k - 1))).2
  have boundX := (Sieve.mem_stream (first ▸ List.mem_cons_of_mem m (List.mem_of_getElem? at_x) :
    x ∈ Sieve.stream N (k - 1))).2
  have drops : x % m = 0 := by
    by_contra keeps
    exact divides ((srem_ne_zero_iff (by omega) (by omega)).mpr keeps)
  refine inv.setPc_step lt running at_ rfl id ⟨pos, rfl, writer, m, rest, g + 1, first, rfl,
    (List.getElem?_eq_some_iff.mp at_x).1, taken, ?_⟩ (fun _ _ eof => by cases eof) (fun _ writes => writes)
    fun _ => rfl
  rw [calls, take_succ_of_getElem? at_x]
  simp [passed, List.filter_append, drops]

/-- `sieve`'s `write`, woken: the record is stored, on to the next read. -/
theorem PipelineInv.sieveWrite_step {prime : BitVec 32} {q1 : Nat} (at_ : (s.procs k).pc = .sieveWrite prime q1)
    {stop : Stop} {s₁ : System Pc} (resumed : s.resume k q1 = some (stop, s₁)) :
    PipelineInv N (s₁.setPc k (afterWrite stop (.filter prime q1) (.sieveWrite prime q1) (.error sieveError))) := by
  have stage := inv.stages k lt
  have ok := stage.run running
  have made := stage.made
  rw [at_] at ok made
  obtain ⟨pos, rfl, m, rest, g, x, first, rfl, at_x, -, taken, calls, writer⟩ := ok
  have found : (s.procs k).fd 4 = some (.pipeWrite k) := by
    rw [System.fd_toFds stage.fds (by decide), envOf_running running, at_]
    simp [envAt]
  have reader : k + 1 < s.count := by
    have := made.1
    omega
  obtain ⟨rfl, rfl, idle⟩ := inv.resume_output reader ⟨running, by rw [at_]; rfl⟩ found writer resumed
  refine inv.setPipe_step lt running at_ (fun j _ other => views_setPipe rfl j other) (inv.refs.resume lt resumed)
    (inv.wholes.resume (by decide) resumed) rfl id ?_ (fun _ _ eof => by cases eof) (fun _ writes => writes)
    fun _ => rfl
  refine ⟨pos, rfl, idle, m, rest, g + 1, first, rfl, (List.getElem?_eq_some_iff.mp at_x).1, ?_, ?_⟩
  · rw [inputTaken_setPipe_self]
    exact taken
  · simpa using calls

/-- `read(0, &num, sizeof(int))` in `sieve`'s loop: the next number, or end of
file once the input is drained. -/
theorem PipelineInv.filter_step {prime : BitVec 32} {q1 : Nat} (at_ : (s.procs k).pc = .filter prime q1)
    {ret : Int} {bytes : List UInt8} {s₁ : System Pc} (red : s.read k 0 4 = some (ret, bytes, s₁)) :
    PipelineInv N (if 0 < ret then s₁.setPc k (.test prime (intOfBytes bytes) q1)
      else s₁.setPc k (.sieveDone q1)) := by
  have stage := inv.stages k lt
  have ok := stage.run running
  rw [at_] at ok
  obtain ⟨pos, rfl, writer, m, rest, g, first, rfl, within, taken, calls⟩ := ok
  obtain ⟨j, rfl⟩ : ∃ j, k = j + 1 := ⟨k - 1, by omega⟩
  rw [Nat.add_sub_cancel] at first
  have found : (s.procs (j + 1)).fd 0 = some (.pipeRead j) := by
    rw [System.fd_toFds stage.fds (by decide), envOf_running running, at_]
    simpa [envAt] using home_zero (Nat.succ_pos j)
  have awake : ¬AtEof (s.procs (j + 1)) := by
    rintro (stopped | past)
    · exact stopped running
    · rw [at_] at past
      cases past
  have takenJ : (s.pipes j).taken = (words (m :: rest.take g)).flatten := by simpa [inputTaken] using taken
  have prefix_ : m :: rest.take g <+: Sieve.stream N j := by
    rw [first]
    exact List.cons_prefix_cons.mpr ⟨rfl, List.take_prefix g rest⟩
  obtain ⟨⟨pi, rfl⟩, outcome⟩ := inv.read_input lt awake found prefix_ takenJ red
  have seen : ∀ i < s.count, i ≠ j + 1 → _ := fun i _ other =>
    @views_read s j (fun r => { r with pipe := pi, taken := r.taken ++ bytes }) rfl rfl i other
  rcases outcome with ⟨rfl, rfl, all, idle⟩ | ⟨rfl, x, at_x, rfl⟩
  · -- end of file: all of the input is taken
    rw [first, List.cons.injEq] at all
    have whole : rest.take g = rest := all.2
    rw [if_neg (by decide)]
    refine inv.setPipe_step lt running at_ seen (inv.refs.read lt red) (inv.wholes.read (by decide) inv.refs lt red)
      rfl id ⟨Nat.succ_pos j, rfl, .inr ⟨?_, ?_⟩, ?_, by simpa using writer⟩ ?_ (fun _ writes => writes)
      fun _ => rfl
    · simp [first]
    · simp [inputTaken, takenJ, whole, first]
    · simpa [stream_of_first (Nat.succ_pos j) (by simpa using first), whole] using calls
    · intro i below _
      obtain rfl : i = j := by omega
      exact idle
  · -- the next number of the stream
    have next : rest[g]? = some x := by
      rw [first, List.length_cons, List.length_take, Nat.min_eq_left within] at at_x
      simpa using at_x
    rw [if_pos (by decide)]
    refine inv.setPipe_step lt running at_ seen (inv.refs.read lt red) (inv.wholes.read (by decide) inv.refs lt red)
      rfl id ⟨Nat.succ_pos j, rfl, by simpa using writer, m, rest, g, x, by simpa using first, rfl, next,
        intOfBytes_word x, ?_, by simpa using calls⟩ (fun _ _ eof => by cases eof) (fun _ writes => writes)
      fun _ => rfl
    simp [inputTaken, takenJ, take_succ_of_getElem? next, words]

/-- `read(0, &prime, sizeof(int))`: the stage's prime, or end of file for a stage
past the last prime, which then exits. -/
theorem PipelineInv.readPrime_step (at_ : (s.procs k).pc = .readPrime) {ret : Int} {bytes : List UInt8}
    {s₁ : System Pc} (red : s.read k 0 4 = some (ret, bytes, s₁)) :
    PipelineInv N (if ret = 0 then s₁.exit k 0
      else s₁.setPc k (.print (intOfBytes bytes) (primeLine (intOfBytes bytes)))) := by
  have stage := inv.stages k lt
  have ok := stage.run running
  have made := stage.made
  rw [at_] at ok made
  obtain ⟨pos, taken⟩ := ok
  obtain ⟨last, -⟩ := made
  obtain ⟨j, rfl⟩ : ∃ j, k = j + 1 := ⟨k - 1, by omega⟩
  have found : (s.procs (j + 1)).fd 0 = some (.pipeRead j) := by
    rw [System.fd_toFds stage.fds (by decide), envOf_running running, at_]
    simpa [envAt] using home_zero (Nat.succ_pos j)
  have awake : ¬AtEof (s.procs (j + 1)) := by
    rintro (stopped | past)
    · exact stopped running
    · rw [at_] at past
      cases past
  have takenJ : (s.pipes j).taken = (words []).flatten := by simpa [inputTaken] using taken
  obtain ⟨⟨pi, rfl⟩, outcome⟩ := inv.read_input lt awake found List.nil_prefix takenJ red
  have seen : ∀ i < s.count, i ≠ j + 1 → _ := fun i _ other =>
    @views_read s j (fun r => { r with pipe := pi, taken := r.taken ++ bytes }) rfl rfl i other
  rcases outcome with ⟨rfl, rfl, none, idle⟩ | ⟨rfl, x, at_x, rfl⟩
  · -- end of file before any number: the stage is past the last prime and exits
    rw [if_pos rfl]
    have others : ∀ i, i ≠ j + 1 → ((s.setPipe j fun r => { r with pipe := pi, taken := r.taken ++ [] }).exit
        (j + 1) 0).procs i = s.procs i := by
      intro i other
      simp [other]
    refine inv.of_self (by simp) (by simp) (fun i _ other => others i other) seen ((inv.refs.read lt red).exit _ 0)
      ((inv.wholes.read (by decide) inv.refs lt red).of_pipes rfl) ⟨?_, ?_, ?_, ?_, ?_⟩ ?_ ?_ ?_
    · simp only [System.exit_procs, System.setPipe_procs, if_true]
      -- `exit` has closed no descriptor yet
      rw [stage.fds, envOf_running running]
      congr 1
    · simp [stage.parent, running]
    · simpa [at_] using stage.made
    · intro running'
      simp at running'
    · intro _
      refine .inr ⟨by simp [at_], Nat.succ_pos j, none.symm, ?_⟩
      simp [inputTaken, takenJ, words]
    · intro i below
      obtain rfl : i = j := by omega
      exact (inv.linked i lt).eof_reader (others i (by omega)) running (by simp) idle
    · intro reader
      omega
    · rw [System.exit_console, System.setPipe_console, inv.console]
      symm
      apply consoleOf_step (by simp) (fun i _ other => others i other)
      intro _
      simp [at_]
  · -- the first number: the stage's prime
    have first : (Sieve.stream N j).head? = some x := by rwa [List.head?_eq_getElem?]
    rw [if_neg (by decide)]
    refine inv.setPipe_step lt running at_ seen (inv.refs.read lt red) (inv.wholes.read (by decide) inv.refs lt red)
      rfl id ⟨Nat.succ_pos j, List.suffix_refl _, x, by simpa using first, intOfBytes_word x, ?_⟩
      (fun _ _ eof => by cases eof) (fun _ writes => by cases writes) ?_
    · simp [inputTaken, takenJ, words]
    · intro _
      simp [printed, lineOf_eq first, intOfBytes_word]

/-- `printf` writes one more character of its line to the console, descriptor 1. -/
theorem PipelineInv.print_step {prime : BitVec 32} {c : Char} {rest : List Char}
    (at_ : (s.procs k).pc = .print prime (c :: rest)) {stop : Stop} {s₁ : System Pc}
    (wrote : s.write k 1 [byte c] = some (stop, s₁)) : PipelineInv N (s₁.setPc k (.print prime rest)) := by
  have stage := inv.stages k lt
  have ok := stage.run running
  have made := stage.made
  rw [at_] at ok made
  obtain ⟨pos, suffix, m, first, rfl, taken⟩ := ok
  have found : (s.procs k).fd 1 = some (.inherited 1) := by
    rw [System.fd_toFds stage.fds (by decide), envOf_running running, at_]
    simp [envAt]
  rw [System.write_inherited found, Option.some.injEq, Prod.mk.injEq] at wrote
  obtain ⟨-, rfl⟩ := wrote
  have others : ∀ j, j ≠ k →
      ({ s with console := s.console ++ [byte c] }.setPc k (.print (BitVec.ofNat 32 m) rest)).procs j =
        s.procs j := by
    intro j other
    simp [other]
  have pcAt : (({ s with console := s.console ++ [byte c] }.setPc k (.print (BitVec.ofNat 32 m) rest)).procs k).pc =
      .print (BitVec.ofNat 32 m) rest := by simp
  refine inv.line_step lt running at_ rfl rfl others (fun j _ _ => ⟨rfl, rfl, rfl⟩)
    ((show System.Refs { s with console := s.console ++ [byte c] } from
      inv.refs.of_procs rfl (fun _ _ => rfl) rfl rfl).setPc k _) (inv.wholes.of_pipes rfl) pcAt (by simp [running])
    (by simp) ?_ id ⟨pos, (List.suffix_cons c rest).trans suffix, m, first, rfl, taken⟩
    (fun _ _ eof => by cases eof)
    (fun _ writes => by cases writes) ?_
  · simp only [System.setPc_procs, if_true]
    rw [stage.fds, envOf_running running, at_]
    rfl
  · -- the console gets the character; the stage's account one more
    rw [System.setPc_console, inv.console]
    symm
    apply consoleOf_print (by simp) made.1 pos (fun j _ other => others j other)
    rw [pcAt, at_, lineOf_eq first]
    exact printed_print_cons suffix

/-- `pipe()` by the last process on its three standard descriptors: the new pipe's
ends land on 3 and 4, and nothing has been sent on it. -/
theorem PipelineInv.pipe_step {pc pc' : Pc} (at_ : (s.procs k).pc = pc) (env : envAt k pc = home k)
    (env' : envAt k pc' = withEnds k (home k)) (made : Made k s.count s.npipes pc → s.count = k + 1 ∧ s.npipes = k)
    (made' : Made k (k + 1) (k + 1) pc') (ok : RunOk N k (inputTaken s k) [] none pc')
    (eof : pc'.pastEof = true → pc.pastEof = true)
    (same : 0 < k → printed (lineOf N (k - 1)) pc' = printed (lineOf N (k - 1)) pc) {s₁ : System Pc} {r w : Nat}
    (piped : s.pipe k = some (s₁, r, w)) : PipelineInv N (s₁.setPc k pc') := by
  have stage := inv.stages k lt
  obtain ⟨last, npipes⟩ := made (at_ ▸ stage.made)
  have fds : (s.procs k).fds = toFds (home k) := by rw [stage.fds, envOf_running running, at_, env]
  have standard := System.pipe_standard fds (standard_home k)
  rw [piped, Option.some.injEq, Prod.mk.injEq] at standard
  have result := standard.1
  -- the new pipe is pipe `k`: no older process reads or writes it
  have pipes₁ : ∀ j, j ≠ k → s₁.pipes j = s.pipes j := by
    intro j other
    rw [result]
    exact Function.update_of_ne (by omega) _ _
  have procs₁ : ∀ j, j ≠ k → s₁.procs j = s.procs j := by
    intro j other
    rw [result]
    simp [other]
  have others : ∀ j, j ≠ k → (s₁.setPc k pc').procs j = s.procs j := by
    intro j other
    simp [other, procs₁ j other]
  have taken : ∀ j ≤ k, inputTaken (s₁.setPc k pc') j = inputTaken s j := by
    intro j le
    unfold inputTaken
    split
    · rfl
    · simp [pipes₁ (j - 1) (by omega)]
  refine inv.of_last last (by simp [result]) (by simp [result, last]) (by simp [result])
    (fun j lt' => ⟨others j (by omega), taken j (by omega), by simp [pipes₁ j (by omega)],
      by simp [pipes₁ j (by omega)]⟩) ((inv.refs.pipe lt piped).setPc k pc') ((inv.wholes.pipe piped).of_pipes rfl)
    ?_ (fun born => by simp [result, last] at born) ?_ (fun born => by simp [result, last] at born) ?_
  · refine ⟨?_, by simp [result, stage.parent, running], by simpa [result, last, npipes] using made', fun _ => ?_,
      fun stopped => absurd (by simp [result, running]) stopped⟩
    · simp [result, envOf, running, env', npipes, withEnds]
    · rw [taken k le_rfl]
      simpa [result, npipes, newPipe] using ok
  · intro i below
    subst below
    apply (inv.linked i lt).running_reader (others i (by omega)) running (by simp [result, running])
    rw [show ((s₁.setPc (i + 1) pc').procs (i + 1)).pc = pc' by simp, at_]
    exact eof
  · rw [System.setPc_console, show s₁.console = s.console by rw [result]; rfl, inv.console]
    symm
    apply consoleOf_step (by simp [result]) (fun j _ other => others j other)
    intro pos
    simpa [at_] using same pos

/-- `fork()` by the last process, holding both ends of its new pipe: the child
starts at `close(p[1])` with a copy of the descriptors, and the parent goes on to
`pc'`. -/
theorem PipelineInv.fork_step {pc pc' : Pc} (at_ : (s.procs k).pc = pc) (env : envAt k pc = withEnds k (home k))
    (env' : envAt k pc' = envAt k pc) (made : Made k s.count s.npipes pc → s.count = k + 1 ∧ s.npipes = k + 1)
    (made' : Made k (k + 2) (k + 1) pc')
    (ok : RunOk N k (inputTaken s k) (s.pipes k).calls (s.pipes k).writer pc →
      RunOk N k (inputTaken s k) (s.pipes k).calls (s.pipes k).writer pc' ∧ (s.pipes k).calls = [])
    (eof : pc'.pastEof = true → pc.pastEof = true) (idle : pc' ≠ .wait)
    (same : 0 < k → printed (lineOf N (k - 1)) pc' = printed (lineOf N (k - 1)) pc) :
    PipelineInv N ((s.fork k (.childCloseWrite 3 4)).setPc k pc') := by
  have stage := inv.stages k lt
  obtain ⟨last, npipes⟩ := made (at_ ▸ stage.made)
  obtain ⟨ok', calls⟩ := ok (at_ ▸ stage.run running)
  have fds : (s.procs k).fds = toFds (withEnds k (home k)) := by rw [stage.fds, envOf_running running, at_, env]
  have others : ∀ j, j ≠ k → j ≠ k + 1 →
      ((s.fork k (.childCloseWrite 3 4)).setPc k pc').procs j = s.procs j := by
    intro j other new
    simp [other, last, new]
  have child : ((s.fork k (.childCloseWrite 3 4)).setPc k pc').procs (k + 1) =
      ⟨.childCloseWrite 3 4, .running, some k, (s.procs k).fds⟩ := by simp [last]
  have pcAt : (((s.fork k (.childCloseWrite 3 4)).setPc k pc').procs k).pc = pc' := by simp
  have lifeAt : (((s.fork k (.childCloseWrite 3 4)).setPc k pc').procs k).life = .running := by
    simp [running, last]
  -- the new pipe holds nothing: its reader, the parent on 3, has taken nothing
  have nothing : (s.pipes k).taken = [] := by
    have reading := (inv.refs.readopen k).mpr ⟨k, lt, ⟨3, by decide⟩, by rw [fds]; simp [toFds, withEnds]⟩
    obtain ⟨m, g, -, -, -, taken, -⟩ := (inv.wholes k).whole reading
    simp [taken, calls]
  refine inv.of_last last (by simp) (by simp [last]) (by simp) (fun j lt' => ⟨others j (by omega) (by omega),
    rfl, rfl, rfl⟩) ((inv.refs.fork lt _).setPc k pc') (inv.wholes.of_pipes rfl) ?_ (fun _ => ?_) ?_ (fun _ => ?_) ?_
  · apply stage.running running lifeAt (by simp [last]) (by rw [pcAt, env', env]; simpa [last] using fds)
    · simpa [last, npipes] using made'
    · rw [pcAt]
      exact ok'
  · -- the child: the parent's descriptors, which are the child's line's
    refine ⟨?_, by rw [child]; simp, ?_, fun _ => ?_, fun stopped => absurd (by rw [child]) stopped⟩
    · rw [child]
      simp [fds, envOf, envAt]
    · rw [child]
      simp [last, npipes, Made]
    · rw [child]
      simp [RunOk, inputTaken, nothing]
  · intro i below
    subst below
    apply (inv.linked i lt).running_reader (others i (by omega) (by omega)) running lifeAt
    rw [pcAt, at_]
    exact eof
  · -- the new link: the child has not read end of file, and is not freed
    refine ⟨?_, ?_⟩
    · rw [child]
      rintro (stopped | past)
      · exact absurd rfl stopped
      · cases past
    · rw [child, pcAt, lifeAt]
      simp [idle]
  · rw [System.setPc_console, System.fork_console, inv.console]
    symm
    apply consoleOf_fork (by simp) last (fun j _ other => by rw [others j other (by omega)])
    · intro pos
      rw [pcAt, at_]
      exact same pos
    · rw [child]
      rfl

/-- `main`'s `pipe(p)`. -/
theorem PipelineInv.start_step (at_ : (s.procs k).pc = .start) {s₁ : System Pc} {p0 p1 : Nat}
    (piped : s.pipe k = some (s₁, p0, p1)) : PipelineInv N (s₁.setPc k (.mainFork p0 p1)) := by
  have stage := inv.stages k lt
  have ok := stage.run running
  rw [at_] at ok
  subst ok
  have fds : (s.procs 0).fds = toFds (home 0) := by rw [stage.fds, envOf_running running, at_]; rfl
  have ends := System.pipe_standard fds (standard_home 0)
  rw [piped, Option.some.injEq, Prod.mk.injEq, Prod.mk.injEq] at ends
  obtain ⟨-, rfl, rfl⟩ := ends
  refine inv.pipe_step lt running at_ ?_ ?_ ?_ ?_ ?_ ?_ ?_ piped
  exacts [rfl, rfl, id, ⟨rfl, rfl⟩, ⟨rfl, rfl, rfl, rfl, rfl⟩, fun eof => (by cases eof), fun _ => rfl]

/-- `sieve`'s `pipe(p_right)`, which finds 3 and 4 free. -/
theorem PipelineInv.sievePipe_step {prime : BitVec 32} (at_ : (s.procs k).pc = .sievePipe prime) {s₁ : System Pc}
    {q0 q1 : Nat} (piped : s.pipe k = some (s₁, q0, q1)) : PipelineInv N (s₁.setPc k (.sieveFork prime q0 q1)) := by
  have stage := inv.stages k lt
  have ok := stage.run running
  rw [at_] at ok
  obtain ⟨pos, first⟩ := ok
  have fds : (s.procs k).fds = toFds (home k) := by rw [stage.fds, envOf_running running, at_]; rfl
  have ends := System.pipe_standard fds (standard_home k)
  rw [piped, Option.some.injEq, Prod.mk.injEq, Prod.mk.injEq] at ends
  obtain ⟨-, rfl, rfl⟩ := ends
  refine inv.pipe_step lt running at_ ?_ ?_ ?_ ?_ ?_ ?_ ?_ piped
  exacts [rfl, rfl, id, ⟨rfl, rfl⟩, ⟨pos, rfl, rfl, rfl, rfl, first⟩, fun eof => (by cases eof), fun _ => rfl]

theorem PipelineInv.mainFork_step {p0 p1 : Nat} (at_ : (s.procs k).pc = .mainFork p0 p1) :
    PipelineInv N ((s.fork k (.childCloseWrite p0 p1)).setPc k (.mainClose p0 p1)) := by
  have ok := (inv.stages k lt).run running
  rw [at_] at ok
  obtain ⟨rfl, rfl, rfl, -, -⟩ := ok
  exact inv.fork_step lt running at_ rfl rfl id ⟨by omega, by omega⟩ (fun ok => ⟨ok, ok.2.2.2.1⟩)
    (fun eof => by cases eof) (by simp) fun _ => rfl

theorem PipelineInv.sieveFork_step {prime : BitVec 32} {q0 q1 : Nat}
    (at_ : (s.procs k).pc = .sieveFork prime q0 q1) :
    PipelineInv N ((s.fork k (.childCloseWrite q0 q1)).setPc k (.sieveClose prime q0 q1)) := by
  have ok := (inv.stages k lt).run running
  rw [at_] at ok
  obtain ⟨-, rfl, rfl, -, -, -⟩ := ok
  exact inv.fork_step lt running at_ rfl rfl id ⟨by omega, by omega⟩ (fun ok => ⟨ok, ok.2.2.2.1⟩)
    (fun eof => by cases eof) (by simp) fun _ => rfl

/-- `wait(0)`, then `exit(0)`: stage `k + 1`, the process's one child, is a ZOMBIE,
and is freed. -/
theorem PipelineInv.wait_step (at_ : (s.procs k).pc = .wait) {ret : Int} {s₁ : System Pc}
    (waited : s.wait k = some (ret, s₁)) : PipelineInv N (s₁.exit k 0) := by
  have stage := inv.stages k lt
  have made := stage.made
  rw [at_] at made
  have reader : k + 1 < s.count := by
    simp only [Made] at made
    omega
  have linked := inv.linked k reader
  -- the child is not freed while its parent runs: it is still the parent's child
  have kept : (s.procs (k + 1)).life ≠ .freed := fun freed => (linked.freed.mp freed).2 running
  have parent : (s.procs (k + 1)).parent = some k := by
    simp [(inv.stages (k + 1) reader).parent, kept]
  rcases System.wait_some waited with ⟨j, inside, parentJ, zombie, -, rfl⟩ | ⟨orphan, -, -⟩
  · obtain rfl : j = k + 1 := by
      have known := (inv.stages j inside).parent
      rw [parentJ] at known
      split at known
      · cases known
      · rename_i alive
        rw [not_or] at alive
        rw [Option.some.injEq] at known
        omega
    have child := inv.stages (k + 1) reader
    have done : (s.procs (k + 1)).life ≠ .running := by
      intro running'
      rw [running'] at zombie
      cases zombie
    have self : ((s.setProc (k + 1) fun p => { p with life := .freed, parent := none }).exit k 0).procs k =
        { s.procs k with life := .exiting 0 0 } := by simp
    have freedAt : ((s.setProc (k + 1) fun p => { p with life := .freed, parent := none }).exit k 0).procs (k + 1) =
        { s.procs (k + 1) with life := .freed, parent := none } := by simp
    have others : ∀ j, j ≠ k → j ≠ k + 1 →
        ((s.setProc (k + 1) fun p => { p with life := .freed, parent := none }).exit k 0).procs j = s.procs j := by
      intro j other new
      simp [other, new]
    apply inv.of_pair (by simp) (by simp) (fun j _ => others j) (fun j _ _ => ⟨rfl, rfl, rfl⟩)
      (((inv.refs.wait waited).exit k 0)) (inv.wholes.of_pipes rfl)
    · -- the parent starts `exit`, its descriptors all still open
      have ok := stage.run running
      rw [at_] at ok
      refine ⟨?_, by simp [stage.parent, running], by simpa [at_] using stage.made,
        fun running' => by simp at running', fun _ => ?_⟩
      · rw [self, envOf_exit, stage.fds, envOf_running running]
      · rw [self, at_]
        exact .inl ⟨rfl, ok⟩
    · -- the child: a ZOMBIE, whose descriptors `exit` has all closed, now freed
      refine fun _ => ⟨?_, by simp, by simpa using child.made, fun running' => by simp at running', fun _ => ?_⟩
      · rw [freedAt, child.fds]
        obtain ⟨status, life⟩ : ∃ status, (s.procs (k + 1)).life = .zombie status := by
          revert zombie
          cases (s.procs (k + 1)).life <;> simp [Life.isZombie]
        simp [envOf, life]
      · rw [freedAt]
        exact child.done done
    · intro i below
      subst below
      apply (inv.linked i lt).eof_reader (others i (by omega) (by omega)) running (by simp)
      exact (inv.linked i lt).eof (.inr (by rw [at_]; rfl))
    · intro _
      refine ⟨fun _ writing => ?_, ?_⟩
      · rw [self] at writing
        cases writing.1
      · simp [at_]
    · intro far
      exact (inv.linked (k + 1) far).done_writer (others (k + 2) (by omega) (by omega)) done (by simp) (by simp)
    · rw [System.exit_console, System.setProc_console, inv.console]
      symm
      apply consoleOf_congr (by simp)
      intro i _
      by_cases same : i + 1 = k
      · rw [same, self]
      by_cases next : i = k
      · rw [next, freedAt]
      · rw [others (i + 1) same (by omega)]
  · exact absurd parent (orphan (k + 1) reader)

end Lines

/-! ### `exit`'s loop -/

section Exits

variable {k : Nat} (inv : PipelineInv N s) (lt : k < s.count)
include inv lt

/-- One turn of `exit`'s loop: descriptor `fd` is closed, or past the last one the
process is a ZOMBIE, with no child left to give away. -/
theorem PipelineInv.exitStep_step {status : Int} {fd : Nat} (exiting : (s.procs k).life = .exiting status fd) :
    PipelineInv N (s.exitStep k status fd) := by
  have stage := inv.stages k lt
  have done : (s.procs k).life ≠ .running := by simp [exiting]
  have kept : (s.procs k).life ≠ .freed := by simp [exiting]
  have refs := inv.refs.exitStep lt status fd
  by_cases inside : fd < nOFile
  · rw [System.exitStep_lt _ _ _ inside] at refs ⊢
    have self : ((s.close k fd).setProc k fun p => { p with life := .exiting status (fd + 1) }).procs k =
        { s.procs k with fds := Sh.close (s.procs k).fds fd, life := .exiting status (fd + 1) } := by
      simp [System.close_procs]
    have others : ∀ j, j ≠ k →
        ((s.close k fd).setProc k fun p => { p with life := .exiting status (fd + 1) }).procs j = s.procs j := by
      intro j other
      simp [System.close_procs, other]
    have views := @views_of_records s ((s.close k fd).setProc k fun p => { p with life := .exiting status (fd + 1) })
      (by simp) (by simp) (by simp)
    apply inv.of_self (by simp) (by simp) (fun j _ => others j) (fun j _ _ => views j) refs
      ((inv.wholes.close k fd).of_pipes rfl)
    · refine ⟨?_, by rw [self]; simp [stage.parent, exiting], by rw [self]; simpa using stage.made,
        fun running => (by rw [self] at running; cases running), fun _ => ?_⟩
      · rw [self]
        change Sh.close (s.procs k).fds fd = toFds (envOf k { s.procs k with life := .exiting status (fd + 1) })
        rw [stage.fds, close_toFds _ inside, envOf_exiting_succ exiting]
      · rw [self, (views k).1, (views k).2.1, (views k).2.2]
        exact stage.done done
    · intro i below
      subst below
      exact (inv.linked i lt).done_reader (others i (by omega)) done kept (by rw [self]; simp)
    · intro reader
      exact (inv.linked k reader).done_writer (others (k + 1) (by omega)) done (by rw [self]; simp) (by rw [self])
    · exact inv.console_step rfl (by simp) others (by rw [self]) (by simp) fun _ => rfl
  · rw [System.exitStep_ge _ _ _ inside] at refs ⊢
    -- no process has `k` for parent: its child, if it made one, is freed
    have orphans : ∀ j < s.count, (s.procs j).parent ≠ some k := by
      intro j inside' parentJ
      have known := (inv.stages j inside').parent
      rw [parentJ] at known
      split at known
      · cases known
      · rename_i alive
        rw [not_or] at alive
        rw [Option.some.injEq] at known
        obtain rfl : j = k + 1 := by omega
        rcases stage.done done with ⟨at_, -⟩ | ⟨at_, -⟩
        · exact alive.2 ((inv.linked k inside').freed.mpr ⟨at_, done⟩)
        · have made := stage.made
          rw [at_] at made
          simp only [Made] at made
          omega
    have self : ({ s with procs := fun j => if j = k then { s.procs k with life := .zombie status }
        else if (s.procs j).parent = some k then { s.procs j with parent := none } else s.procs j } :
          System Pc).procs k = { s.procs k with life := .zombie status } := by simp
    have others : ∀ j < s.count, j ≠ k → ({ s with procs := fun j => if j = k then
        { s.procs k with life := .zombie status } else if (s.procs j).parent = some k then
          { s.procs j with parent := none } else s.procs j } : System Pc).procs j = s.procs j := by
      intro j inside' other
      simp [other, orphans j inside']
    apply inv.of_self (by rfl) (by rfl) others (fun j _ _ => ⟨rfl, rfl, rfl⟩) refs (inv.wholes.of_pipes rfl)
    · -- a ZOMBIE: `exit` has closed every descriptor
      refine ⟨?_, by rw [self]; simp [stage.parent, exiting], by rw [self]; exact stage.made,
        fun running => (by rw [self] at running; cases running), fun _ => ?_⟩
      · rw [self]
        change (s.procs k).fds = toFds (envOf k { s.procs k with life := .zombie status })
        rw [stage.fds, toFds_envOf_past exiting inside]
        rfl
      · rw [self]
        exact stage.done done
    · intro i below
      subst below
      exact (inv.linked i lt).done_reader (others i (by omega) (by omega)) done kept (by rw [self]; simp)
    · intro reader
      exact (inv.linked k reader).done_writer (others (k + 1) reader (by omega)) done (by rw [self]; simp)
        (by rw [self])
    · rw [show ({ s with procs := _ } : System Pc).console = s.console from rfl, inv.console]
      symm
      exact consoleOf_step rfl others fun _ => by rw [self]

end Exits

/-! ### Every step -/

/-- A step of a running process's program keeps the invariant, on every line. -/
theorem PipelineInv.run_step (inv : PipelineInv N s) (bound : N < 2 ^ 31) {k : Nat} (lt : k < s.count)
    (running : (s.procs k).life = .running) (stepped : run N k s (s.procs k).pc = some s') : PipelineInv N s' := by
  have ok := (inv.stages k lt).run running
  cases at_ : (s.procs k).pc with
  | start =>
    rw [at_] at stepped
    simp only [run] at stepped
    split at stepped
    · rename_i s₁ p0 p1 piped
      cases stepped
      exact inv.start_step lt running at_ piped
    · cases stepped
  | mainFork p0 p1 =>
    rw [at_] at stepped
    cases stepped
    exact inv.mainFork_step lt running at_
  | mainClose p0 p1 =>
    rw [at_] at stepped
    cases stepped
    exact inv.mainClose_step lt running at_
  | mainLoop p1 i =>
    rw [at_] at stepped
    simp only [run] at stepped
    split at stepped
    · rename_i within
      obtain ⟨⟨stop, s₁⟩, wrote, rfl⟩ := Option.map_eq_some_iff.mp stepped
      exact inv.mainLoop_step lt running at_ within wrote
    · rename_i past
      cases stepped
      exact inv.mainExit_step lt running at_ past
  | mainWrite p1 i =>
    rw [at_] at stepped
    obtain ⟨⟨stop, s₁⟩, resumed, rfl⟩ := Option.map_eq_some_iff.mp stepped
    exact inv.mainWrite_step lt running at_ resumed
  | wait =>
    rw [at_] at stepped
    obtain ⟨⟨ret, s₁⟩, waited, rfl⟩ := Option.map_eq_some_iff.mp stepped
    exact inv.wait_step lt running at_ waited
  | childCloseWrite p0 p1 =>
    rw [at_] at stepped
    cases stepped
    exact inv.childCloseWrite_step lt running at_
  | childCloseInput p0 =>
    rw [at_] at stepped
    cases stepped
    exact inv.childCloseInput_step lt running at_
  | childDup p0 =>
    rw [at_] at stepped
    cases stepped
    exact inv.childDup_step lt running at_
  | childCloseRead p0 =>
    rw [at_] at stepped
    cases stepped
    exact inv.childCloseRead_step lt running at_
  | readPrime =>
    rw [at_] at stepped
    obtain ⟨⟨ret, bytes, s₁⟩, red, rfl⟩ := Option.map_eq_some_iff.mp stepped
    exact inv.readPrime_step lt running at_ red
  | print prime rest =>
    rw [at_] at stepped
    cases rest with
    | nil =>
      cases stepped
      exact inv.printed_step lt running at_
    | cons c rest =>
      obtain ⟨⟨stop, s₁⟩, wrote, rfl⟩ := Option.map_eq_some_iff.mp stepped
      exact inv.print_step lt running at_ wrote
  | sievePipe prime =>
    rw [at_] at stepped
    simp only [run] at stepped
    split at stepped
    · rename_i s₁ q0 q1 piped
      cases stepped
      exact inv.sievePipe_step lt running at_ piped
    · -- descriptors 3 and 4 are free: `pipe` cannot fail for want of them
      rename_i none
      have fds : (s.procs k).fds = toFds (home k) := by
        rw [(inv.stages k lt).fds, envOf_running running, at_]
        rfl
      rw [System.pipe_standard fds (standard_home k)] at none
      cases none
  | sieveFork prime q0 q1 =>
    rw [at_] at stepped
    cases stepped
    exact inv.sieveFork_step lt running at_
  | sieveClose prime q0 q1 =>
    rw [at_] at stepped
    cases stepped
    exact inv.sieveClose_step lt running at_
  | filter prime q1 =>
    rw [at_] at stepped
    obtain ⟨⟨ret, bytes, s₁⟩, red, rfl⟩ := Option.map_eq_some_iff.mp stepped
    exact inv.filter_step lt running at_ red
  | test prime num q1 =>
    rw [at_] at stepped
    simp only [run] at stepped
    split at stepped
    · rename_i apart
      obtain ⟨⟨stop, s₁⟩, wrote, rfl⟩ := Option.map_eq_some_iff.mp stepped
      exact inv.test_write_step lt running bound at_ apart wrote
    · rename_i divides
      cases stepped
      exact inv.test_skip_step lt running bound at_ divides
  | sieveWrite prime q1 =>
    rw [at_] at stepped
    obtain ⟨⟨stop, s₁⟩, resumed, rfl⟩ := Option.map_eq_some_iff.mp stepped
    exact inv.sieveWrite_step lt running at_ resumed
  | sieveDone q1 =>
    rw [at_] at stepped
    cases stepped
    exact inv.sieveDone_step lt running at_
  | error rest =>
    -- no write of a record fails while the invariant holds
    rw [at_] at ok
    exact ok.elim

/-- Every step of a process, of its program or of its `exit`, keeps the invariant. -/
theorem PipelineInv.step (inv : PipelineInv N s) (bound : N < 2 ^ 31) {k : Nat}
    (stepped : s.step (run N) k = some s') : PipelineInv N s' := by
  unfold System.step at stepped
  split at stepped
  · rename_i lt
    split at stepped
    · rename_i running
      exact inv.run_step bound lt running stepped
    · rename_i status fd exiting
      cases stepped
      exact inv.exitStep_step lt exiting
    all_goals cases stepped
  · cases stepped

/-! ### Every run -/

/-- A state of `primes`: one after some `fork` or `pipe` failed, or one that keeps
the invariant. -/
def Good (N : Nat) (w : World) : Prop :=
  w.failed = true ∨ PipelineInv N w.sys

theorem good_step (bound : N < 2 ^ 31) {w w' : World} {e : Event} (good : Good N w)
    (stepped : step N w e = some w') : Good N w' := by
  cases e with
  | run k =>
    obtain ⟨s', stepped', rfl⟩ := Option.map_eq_some_iff.mp stepped
    rcases good with failed | inv
    · exact .inl failed
    · exact .inr (inv.step bound stepped')
  | fail k =>
    simp only [step] at stepped
    split at stepped
    · obtain ⟨s', -, rfl⟩ := Option.map_eq_some_iff.mp stepped
      exact .inl rfl
    · cases stepped

/-- Every reachable state of `primes` is good. -/
theorem Reachable.good (bound : N < 2 ^ 31) {w : World} (reach : Reachable N w) : Good N w :=
  Machine.Reachable.invariant (.inr (pipelineInv_boot N)) (fun _ _ _ good stepped => good_step bound good stepped)
    reach

end Xv6.Primes
