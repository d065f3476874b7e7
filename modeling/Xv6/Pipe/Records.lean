import Xv6.Pipe.Fifo

/-!
Contract: what one call of `pipewrite` or `piperead` (`kernel/pipe.c`) moves
through the pipe, and whole records through a pipe with one writer and one
reader.

`pipewrite` counts the bytes it stores: each stretch from byte `i` moves `nwrite`
by the bytes it stored and stops at `i` plus their number, so a call that returns
`i ≥ 0` has stored `i` bytes over all its stretches. `piperead` takes each byte at
`nread++` before it copies it out: the bytes it takes are the bytes it returns,
and one more when a `copyout` fails, a byte the pipe then no longer holds.

With one writer whose calls each write `k` bytes, `k` dividing `PIPESIZE`, and one
reader whose calls each ask for `k` bytes, the ring holds whole records whenever
the lock is free: the writer finds room for its whole record or a full ring, on
which it sleeps before its first byte. So each read that returns takes one whole
record, the next in write order, or returns 0 once the write end is closed and
the ring drained.

Owns: `pipewrite_counts`, `pipereadCopy_counts`, `Records`, `RecordEvent`,
`recordStep`, `RecordsReachable` and the records invariant.
-/

namespace Xv6.Pipes

/-! ### What one call moves -/

section Steps

variable {killed : Nat → Bool} {pi : Pipe} {i : Nat}

/-- One turn of `pipewrite` that stores a byte: the byte goes to `nwrite++` and the
stretch goes on from `i + 1`. -/
theorem pipewrite_store (reading : pi.readopen = true) (alive : killed i = false)
    (room : pi.nwrite ≠ pi.nread + pipeSize.toUInt32) (ch : UInt8) (rest : List (Option UInt8)) :
    pipewrite killed pi i (some ch :: rest) =
      let r := pipewrite killed
        { pi with data := Function.update pi.data (slot pi.nwrite) ch, nwrite := pi.nwrite + 1 } (i + 1) rest
      (r.1, r.2.1, ch :: r.2.2) := by
  simp only [pipewrite, reading, alive, room, Bool.true_eq_false, if_false]
  rfl

/-- One turn of `piperead`'s copy whose copy succeeds: the byte at `nread++` is
taken and the loop goes on from `i + 1`. -/
theorem pipereadCopy_take (pending : pi.nread ≠ pi.nwrite) (rest : List Bool) :
    pipereadCopy pi i (true :: rest) =
      let r := pipereadCopy { pi with nread := pi.nread + 1 } (i + 1) rest
      (r.1, r.2.1, pi.data (slot pi.nread) :: r.2.2) := by
  simp only [pipereadCopy, pending, if_false, if_true]

/-- One turn of `piperead`'s copy whose copy fails: the byte at `nread++` is taken
and the loop stops at `i`. -/
theorem pipereadCopy_lose (pending : pi.nread ≠ pi.nwrite) (rest : List Bool) :
    pipereadCopy pi i (false :: rest) = (i, { pi with nread := pi.nread + 1 }, [pi.data (slot pi.nread)]) := by
  simp only [pipereadCopy, pending, if_false, Bool.false_eq_true]

end Steps

/-- **`pipewrite`'s count.** A stretch from byte `i` moves `nwrite` by the bytes it
stores and stops having done `i` plus their number, unless it returns -1; it
leaves both ends as they were. -/
theorem pipewrite_counts (killed : Nat → Bool) :
    ∀ (src : List (Option UInt8)) (pi : Pipe) (i : Nat),
      (pipewrite killed pi i src).2.1.nwrite.toNat =
          (pi.nwrite.toNat + (pipewrite killed pi i src).2.2.length) % 2 ^ 32 ∧
        (pipewrite killed pi i src).2.1.readopen = pi.readopen ∧
        (pipewrite killed pi i src).2.1.writeopen = pi.writeopen ∧
        ((pipewrite killed pi i src).1 = .returns (-1) ∨
          (pipewrite killed pi i src).1 = .returns ↑(i + (pipewrite killed pi i src).2.2.length) ∨
          (pipewrite killed pi i src).1 = .sleeps (i + (pipewrite killed pi i src).2.2.length)) := by
  intro src
  induction src with
  | nil =>
    intro pi i
    simp [pipewrite, Nat.mod_eq_of_lt pi.nwrite.toNat_lt]
  | cons b rest ih =>
    intro pi i
    -- a stretch that stops here (read end closed, killed, full ring, failed copy) stores nothing
    by_cases go : pi.readopen = true ∧ killed i = false ∧ pi.nwrite ≠ pi.nread + pipeSize.toUInt32 ∧
        b.isSome = true
    · obtain ⟨reading, alive, room, some⟩ := go
      obtain ⟨ch, rfl⟩ := Option.isSome_iff_exists.mp some
      have step := ih { pi with data := Function.update pi.data (slot pi.nwrite) ch, nwrite := pi.nwrite + 1 }
        (i + 1)
      rw [pipewrite_store reading alive room]
      dsimp only
      generalize pipewrite killed
        { pi with data := Function.update pi.data (slot pi.nwrite) ch, nwrite := pi.nwrite + 1 } (i + 1) rest = r
        at step ⊢
      obtain ⟨stop, pi', stored⟩ := r
      dsimp only at step ⊢
      obtain ⟨counter, reads, writes, stopped⟩ := step
      simp only [UInt32.toNat_add, UInt32.toNat_one] at counter
      refine ⟨?_, reads, writes, ?_⟩
      · rw [List.length_cons, counter]
        omega
      · rw [List.length_cons, show i + (stored.length + 1) = i + 1 + stored.length by omega]
        exact stopped
    · unfold pipewrite
      split
      · simp [Nat.mod_eq_of_lt pi.nwrite.toNat_lt]
      split
      · simp [Nat.mod_eq_of_lt pi.nwrite.toNat_lt]
      cases b with
      | none => simp [Nat.mod_eq_of_lt pi.nwrite.toNat_lt]
      | some ch => simp_all

/-- **`piperead`'s count.** The copy loop from byte `i` moves `nread` by the bytes
it takes: the bytes it returns, and one more when it stops at a failing copy. -/
theorem pipereadCopy_counts :
    ∀ (copyOk : List Bool) (pi : Pipe) (i : Nat),
      (pipereadCopy pi i copyOk).2.1.nread.toNat =
          (pi.nread.toNat + (pipereadCopy pi i copyOk).2.2.length) % 2 ^ 32 ∧
        (pipereadCopy pi i copyOk).2.1.nwrite = pi.nwrite ∧
        (pipereadCopy pi i copyOk).2.1.readopen = pi.readopen ∧
        (pipereadCopy pi i copyOk).2.1.writeopen = pi.writeopen ∧
        (i + (pipereadCopy pi i copyOk).2.2.length = (pipereadCopy pi i copyOk).1 ∨
          i + (pipereadCopy pi i copyOk).2.2.length = (pipereadCopy pi i copyOk).1 + 1 ∧
            i ≤ (pipereadCopy pi i copyOk).1 ∧ copyOk[(pipereadCopy pi i copyOk).1 - i]? = some false) := by
  intro copyOk
  induction copyOk with
  | nil =>
    intro pi i
    simp [pipereadCopy, Nat.mod_eq_of_lt pi.nread.toNat_lt]
  | cons ok rest ih =>
    intro pi i
    by_cases empty : pi.nread = pi.nwrite
    · simp [pipereadCopy, empty]
    cases ok with
    | false =>
      -- the byte is taken, and its copy fails: the loop stops at `i`
      rw [pipereadCopy_lose empty]
      simp [UInt32.toNat_add]
    | true =>
      have step := ih { pi with nread := pi.nread + 1 } (i + 1)
      rw [pipereadCopy_take empty]
      dsimp only
      generalize pipereadCopy { pi with nread := pi.nread + 1 } (i + 1) rest = r at step ⊢
      obtain ⟨ret, pi', taken⟩ := r
      dsimp only at step ⊢
      obtain ⟨counter, nwrite, reads, writes, result⟩ := step
      simp only [UInt32.toNat_add, UInt32.toNat_one] at counter
      refine ⟨?_, nwrite, reads, writes, ?_⟩
      · rw [List.length_cons, counter]
        omega
      · rw [List.length_cons]
        rcases result with whole | ⟨short, past, failed⟩
        · exact .inl (by omega)
        · refine .inr ⟨by omega, by omega, ?_⟩
          rw [show ret - i = ret - (i + 1) + 1 by omega]
          exact failed

/-- A read whose first copy fails, from a ring that is not empty, takes the
oldest byte and returns 0. -/
theorem piperead_first_copy_fails (pi : Pipe) (killed : Bool) (rest : List Bool)
    (pending : pi.nread ≠ pi.nwrite) :
    (piperead pi killed (false :: rest)).1 = .returns 0 ∧
      (piperead pi killed (false :: rest)).2.1 = { pi with nread := pi.nread + 1 } ∧
      (piperead pi killed (false :: rest)).2.2 = [pi.data (slot pi.nread)] := by
  have nonEmpty : ¬(pi.nread = pi.nwrite ∧ pi.writeopen = true) := fun both => pending both.1
  simp only [piperead, nonEmpty, if_false, pipereadCopy_lose pending, Nat.cast_zero, and_self]

/-- The byte `x` written by `write(fds[1], "x", 1)` and then read by a `read`
whose copy to the user fails is gone: that read returns 0 and moves `nread` past
it, and once the write end is closed the next read, whose copy would succeed,
returns 0 with no byte. -/
theorem pipe_read_drops_byte :
    ∃ pi, pipewrite (fun _ => false) (pipealloc fun _ => 0) 0 [some 120] = (.returns 1, pi, [120]) ∧
      (piperead pi false [false]).1 = .returns 0 ∧ (piperead pi false [false]).2.2 = [120] ∧
      (piperead pi false [false]).2.1.nread = pi.nread + 1 ∧
      (piperead (pipeclose (piperead pi false [false]).2.1 true) false [true]).1 = .returns 0 ∧
      (piperead (pipeclose (piperead pi false [false]).2.1 true) false [true]).2.2 = [] := by
  refine ⟨_, rfl, ?_⟩
  decide

/-! ### Calls that move whole blocks -/

section Blocks

variable {pi : Pipe} {stored taken : List UInt8}

/-- A stretch with room for all its bytes, every `copyin` succeeding, stores them
all and returns. -/
theorem pipewrite_whole (reading : pi.readopen = true) :
    ∀ (src : List UInt8) (i : Nat), Fifo pi stored taken →
      stored.length + src.length ≤ taken.length + pipeSize →
      (pipewrite (fun _ => false) pi i (src.map some)).1 = .returns ↑(i + src.length) ∧
        (pipewrite (fun _ => false) pi i (src.map some)).2.2 = src := by
  intro src
  induction src generalizing pi stored with
  | nil =>
    intro i _ _
    simp [pipewrite]
  | cons ch rest ih =>
    intro i fifo room
    rw [List.length_cons] at room
    have notFull : pi.nwrite ≠ pi.nread + pipeSize.toUInt32 := fun full => by
      have := fifo.full_iff.mp full
      omega
    have next := ih (i := i + 1) (by exact reading) (fifo.push (by omega) ch)
      (by rw [List.length_append, List.length_singleton]; omega)
    rw [List.map_cons, pipewrite_store reading rfl notFull]
    dsimp only
    rw [next.1, next.2, List.length_cons, show i + 1 + rest.length = i + (rest.length + 1) by omega]
    exact ⟨rfl, rfl⟩

/-- On a full ring, with its read end open, a stretch sleeps at once. -/
theorem pipewrite_full (reading : pi.readopen = true) (fifo : Fifo pi stored taken)
    (full : stored.length = taken.length + pipeSize) (i : Nat) (b : Option UInt8)
    (rest : List (Option UInt8)) :
    pipewrite (fun _ => false) pi i (b :: rest) = (.sleeps i, pi, []) := by
  simp [pipewrite, reading, fifo.full_iff.mpr full]

/-- A copy loop with as many bytes pending as it asks for, every copy
succeeding, takes the oldest of them and returns their number. -/
theorem pipereadCopy_whole :
    ∀ (n i : Nat), Fifo pi stored taken → taken.length + n ≤ stored.length →
      (pipereadCopy pi i (List.replicate n true)).1 = i + n ∧
        (pipereadCopy pi i (List.replicate n true)).2.2 = (stored.drop taken.length).take n := by
  intro n
  induction n generalizing pi taken with
  | zero =>
    intro i _ _
    simp [pipereadCopy]
  | succ n ih =>
    intro i fifo pending
    have nonEmpty : pi.nread ≠ pi.nwrite := fun empty => by
      have := fifo.empty_iff.mp empty
      omega
    obtain ⟨oldest, popped⟩ := fifo.pop (by omega)
    have next := ih (i + 1) popped (by rw [List.length_append, List.length_singleton]; omega)
    rw [List.replicate_succ, pipereadCopy_take nonEmpty]
    dsimp only
    have more : taken.length < stored.length := by omega
    rw [next.1, next.2, List.length_append, List.length_singleton, oldest, Nat.add_right_comm i 1 n,
      List.drop_eq_getElem_cons more, List.take_succ_cons]
    exact ⟨by omega, rfl⟩

end Blocks

/-! ### One writer and one reader, whole records -/

/-- One writer and one reader on a pipe: the writer between its calls (`none`) or
asleep at byte `i` of its current call's record; every byte stored and taken so
far, in order; and the record of each of the writer's calls, in the order they
began. -/
structure Records where
  pipe : Pipe
  writer : Option (List UInt8 × Nat)
  stored : List UInt8
  taken : List UInt8
  calls : List (List UInt8)

/-- A stretch of one of the two processes, neither ever killed: the writer begins a
call writing `record`, every `copyin` succeeding; the writer, woken, runs on; the
reader reads `k` bytes into a writable buffer; either closes its end between its
calls. -/
inductive RecordEvent where
  | write (record : List UInt8)
  | resume
  | read
  | closeWrite
  | closeRead

/-- The writer's stretch from byte `i` of `record`: the bytes it stores go to the
history, and it is asleep at the byte it stops at, or done. -/
def Records.writerStretch (w : Records) (record : List UInt8) (i : Nat) : Records :=
  let (stop, pi, stored) := pipewrite (fun _ => false) w.pipe i ((record.drop i).map some)
  { w with pipe := pi, stored := w.stored ++ stored,
           writer := match stop with
             | .sleeps j => some (record, j)
             | .returns _ => none }

/-- Writes are of `k` bytes, reads ask for `k`. -/
def recordStep (k : Nat) (w : Records) : RecordEvent → Option Records
  | .write record =>
    if record.length = k ∧ w.writer = none ∧ w.pipe.writeopen = true then
      some ({ w with calls := w.calls ++ [record] }.writerStretch record 0)
    else none
  | .resume =>
    match w.writer with
    | some (record, i) => some (w.writerStretch record i)
    | none => none
  | .read =>
    if w.pipe.readopen then
      let (_, pi, taken) := piperead w.pipe false (List.replicate k true)
      some { w with pipe := pi, taken := w.taken ++ taken }
    else none
  | .closeWrite =>
    if w.writer = none ∧ w.pipe.writeopen = true then some { w with pipe := pipeclose w.pipe true }
    else none
  | .closeRead =>
    if w.pipe.readopen then some { w with pipe := pipeclose w.pipe false } else none

/-- The states some interleaving reaches from a new pipe, on any page. -/
def RecordsReachable (k : Nat) (w : Records) : Prop :=
  ∃ page, Machine.Reachable (recordStep k) ⟨pipealloc page, none, [], [], []⟩ w

/-! ### The records invariant -/

section Flatten

variable {k : Nat} {calls : List (List UInt8)}

theorem length_flatten_take (sized : ∀ r ∈ calls, r.length = k) {m : Nat} (le : m ≤ calls.length) :
    ((calls.take m).flatten).length = m * k := by
  have same : (calls.take m).map List.length = List.replicate m k := by
    rw [List.eq_replicate_iff]
    refine ⟨by simp [le], fun n member => ?_⟩
    obtain ⟨r, inTake, rfl⟩ := List.mem_map.mp member
    exact sized r (List.mem_of_mem_take inTake)
  rw [List.length_flatten, same, List.sum_replicate, smul_eq_mul]

theorem flatten_take_succ {g : Nat} (lt : g < calls.length) :
    (calls.take (g + 1)).flatten = (calls.take g).flatten ++ calls[g] := by
  rw [List.take_add_one, List.flatten_append, List.getElem?_eq_getElem lt, Option.toList_some,
    List.flatten_singleton]

/-- Past the first `g` records of the first `m`, the next `k` bytes are record `g`. -/
theorem next_record (sized : ∀ r ∈ calls, r.length = k) {g m : Nat} (lt : g < m) (le : m ≤ calls.length) :
    (((calls.take m).flatten).drop ((calls.take g).flatten).length).take k = calls[g] := by
  have split : calls.take m = calls.take (g + 1) ++ (calls.drop (g + 1)).take (m - (g + 1)) := by
    rw [← List.take_add, Nat.add_sub_cancel' lt]
  rw [split, List.flatten_append, flatten_take_succ (by omega), List.append_assoc, List.drop_left,
    List.take_left' (sized _ (List.getElem_mem _))]

end Flatten

/-- A ring holding whole `k`-byte records, `k` dividing `PIPESIZE`, is full or has
room for one more. -/
theorem full_or_room {k n : Nat} (divides : k ∣ pipeSize) (fits : n * k ≤ pipeSize) :
    n * k = pipeSize ∨ n * k + k ≤ pipeSize := by
  obtain ⟨q, total⟩ := divides
  have positive : 0 < k := Nat.pos_of_ne_zero fun zero => by simp [zero, pipeSize] at total
  rw [total] at fits ⊢
  have atMost : n ≤ q := Nat.le_of_mul_le_mul_left (by rwa [Nat.mul_comm]) positive
  rcases Nat.lt_or_eq_of_le atMost with below | rfl
  · right
    calc n * k + k = (n + 1) * k := by ring
      _ ≤ q * k := Nat.mul_le_mul_right k below
      _ = k * q := Nat.mul_comm q k
  · left
    exact Nat.mul_comm n k

theorem Records.writerStretch_eq (w : Records) (record : List UInt8) (i : Nat) :
    w.writerStretch record i =
      { w with pipe := (pipewrite (fun _ => false) w.pipe i ((record.drop i).map some)).2.1,
               stored := w.stored ++ (pipewrite (fun _ => false) w.pipe i ((record.drop i).map some)).2.2,
               writer := match (pipewrite (fun _ => false) w.pipe i ((record.drop i).map some)).1 with
                 | .sleeps j => some (record, j)
                 | .returns _ => none } :=
  rfl

/-- What holds between stretches: the pipe is a FIFO of the history and each
call's record has `k` bytes; while the read end is open, the bytes stored are the
first `m` records and the bytes taken the first `g`, and the writer is between
calls, all of them stored, or asleep before the first byte of record `m`, the last
begun. -/
structure Records.Whole (k : Nat) (w : Records) : Prop where
  fifo : Fifo w.pipe w.stored w.taken
  sized : ∀ r ∈ w.calls, r.length = k
  whole : w.pipe.readopen = true → ∃ m g, g ≤ m ∧ m ≤ w.calls.length ∧
    w.stored = (w.calls.take m).flatten ∧ w.taken = (w.calls.take g).flatten ∧
    (w.writer = none ∧ w.calls.length = m ∨ ∃ r, w.writer = some (r, 0) ∧ w.calls = w.calls.take m ++ [r])

/-- `piperead` past its check for an empty ring is its copy loop. -/
theorem piperead_copy {pi : Pipe} {killed : Bool} (copyOk : List Bool)
    (ready : ¬(pi.nread = pi.nwrite ∧ pi.writeopen = true)) :
    piperead pi killed copyOk =
      (.returns (pipereadCopy pi 0 copyOk).1, (pipereadCopy pi 0 copyOk).2.1, (pipereadCopy pi 0 copyOk).2.2) := by
  simp only [piperead, ready, if_false]

theorem piperead_ends (pi : Pipe) (killed : Bool) (copyOk : List Bool) :
    (piperead pi killed copyOk).2.1.readopen = pi.readopen ∧
      (piperead pi killed copyOk).2.1.writeopen = pi.writeopen := by
  by_cases waits : pi.nread = pi.nwrite ∧ pi.writeopen = true
  · unfold piperead
    rw [if_pos waits]
    split <;> exact ⟨rfl, rfl⟩
  · rw [piperead_copy copyOk waits]
    obtain ⟨-, -, reads, writes, -⟩ := pipereadCopy_counts copyOk pi 0
    exact ⟨reads, writes⟩

theorem recordStep_read {k : Nat} {w : Records} (reading : w.pipe.readopen = true) :
    recordStep k w .read =
      some { w with pipe := (piperead w.pipe false (List.replicate k true)).2.1,
                    taken := w.taken ++ (piperead w.pipe false (List.replicate k true)).2.2 } := by
  simp only [recordStep, reading, if_true]

section Whole

variable {k : Nat} (divides : k ∣ pipeSize)
include divides

theorem pos_of_dvd_pipeSize : 0 < k :=
  Nat.pos_of_dvd_of_pos divides (by decide)

/-- **The writer's stretch.** From byte `i` of `record`, which, while the read end
is open, is the first byte of record `m`, the last begun, with the first `m`
stored: the record is stored whole, or the writer sleeps again before its first
byte. -/
theorem Records.whole_writerStretch {w : Records} {record : List UInt8} {i : Nat}
    (fifo : Fifo w.pipe w.stored w.taken) (sized : ∀ r ∈ w.calls, r.length = k)
    (next : w.pipe.readopen = true → i = 0 ∧ ∃ m g, g ≤ m ∧ w.calls = w.calls.take m ++ [record] ∧
      w.stored = (w.calls.take m).flatten ∧ w.taken = (w.calls.take g).flatten) :
    (w.writerStretch record i).Whole k := by
  rw [Records.writerStretch_eq]
  have fifo' := pipewrite_fifo (fun _ => false) w.taken ((record.drop i).map some) w.pipe i w.stored fifo
  obtain ⟨-, reads, -, -⟩ := pipewrite_counts (fun _ => false) ((record.drop i).map some) w.pipe i
  refine ⟨fifo', sized, fun reading => ?_⟩
  dsimp only at reading ⊢
  rw [reads] at reading
  obtain ⟨rfl, m, g, le, calls, stored, taken⟩ := next reading
  -- the record is the one after the first `m`, and the ring holds `m - g` records
  have length : w.calls.length = m + 1 := by
    have := congrArg List.length calls
    simp only [List.length_append, List.length_take, List.length_singleton] at this
    omega
  have within : m < w.calls.length := by omega
  have recordAt : w.calls[m] = record := by
    rw [List.getElem_of_eq calls]
    simp [show min m w.calls.length = m by omega]
  have sizedRecord : record.length = k := by rw [← recordAt]; exact sized _ (List.getElem_mem _)
  have storedLength : w.stored.length = m * k := by rw [stored]; exact length_flatten_take sized (by omega)
  have takenLength : w.taken.length = g * k := by rw [taken]; exact length_flatten_take sized (by omega)
  have ordered : g * k ≤ m * k := Nat.mul_le_mul_right k le
  have fits : (m - g) * k ≤ pipeSize := by
    have := fifo.room
    rw [Nat.sub_mul]
    omega
  rw [List.drop_zero]
  rcases full_or_room divides fits with full | room
  · -- a full ring: the writer sleeps before the record's first byte
    obtain ⟨b, rest, rfl⟩ := List.exists_cons_of_length_pos (by rw [sizedRecord]; exact pos_of_dvd_pipeSize divides)
    rw [List.map_cons, pipewrite_full reading fifo (by rw [Nat.sub_mul] at full; omega)]
    exact ⟨m, g, le, by omega, by rw [List.append_nil]; exact stored, taken, .inr ⟨b :: rest, rfl, calls⟩⟩
  · -- room for the record: it is stored whole
    obtain ⟨returns, all⟩ := pipewrite_whole reading record 0 fifo
      (by rw [Nat.sub_mul] at room; omega)
    rw [returns, all]
    refine ⟨m + 1, g, by omega, by omega, ?_, taken, .inl ⟨rfl, length⟩⟩
    rw [stored, flatten_take_succ (by omega), recordAt]

/-- **The reader's stretch.** While the read end is open a read of `k` bytes
sleeps on an empty ring with its write end open, returns 0 on an empty ring with
its write end closed, or takes the next record whole. -/
theorem Records.Whole.read {w : Records} (whole : w.Whole k) (reading : w.pipe.readopen = true) :
    ∃ m g, g ≤ m ∧ m ≤ w.calls.length ∧ w.stored = (w.calls.take m).flatten ∧
      w.taken = (w.calls.take g).flatten ∧
      (w.writer = none ∧ w.calls.length = m ∨ ∃ r, w.writer = some (r, 0) ∧ w.calls = w.calls.take m ++ [r]) ∧
      (piperead w.pipe false (List.replicate k true) = (.sleeps 0, w.pipe, []) ∧ g = m ∧
          w.pipe.writeopen = true ∨
        piperead w.pipe false (List.replicate k true) = (.returns 0, w.pipe, []) ∧ g = m ∧
          w.pipe.writeopen = false ∨
        g < m ∧ (piperead w.pipe false (List.replicate k true)).1 = .returns k ∧
          w.calls[g]? = some (piperead w.pipe false (List.replicate k true)).2.2) := by
  obtain ⟨m, g, le, bound, stored, taken, writer⟩ := whole.whole reading
  have positive := pos_of_dvd_pipeSize divides
  have storedLength : w.stored.length = m * k := by rw [stored]; exact length_flatten_take whole.sized bound
  have takenLength : w.taken.length = g * k := by
    rw [taken]; exact length_flatten_take whole.sized (by omega)
  refine ⟨m, g, le, bound, stored, taken, writer, ?_⟩
  by_cases empty : w.pipe.nread = w.pipe.nwrite
  · -- an empty ring: every record stored has been taken
    have drained : g = m := by
      have := whole.fifo.empty_iff.mp empty
      rw [storedLength, takenLength] at this
      exact Nat.eq_of_mul_eq_mul_right positive this
    cases opened : w.pipe.writeopen with
    | true => exact .inl ⟨by simp [piperead, empty, opened], drained, rfl⟩
    | false =>
      refine .inr (.inl ⟨?_, drained, rfl⟩)
      obtain ⟨n, hn⟩ : ∃ n, k = n + 1 := ⟨k - 1, by omega⟩
      rw [piperead_copy _ (by simp [opened]), hn, List.replicate_succ]
      simp [pipereadCopy, empty]
  · -- a record is pending: the read takes it
    have pending : g < m := by
      have := whole.fifo.ordered.length_le
      have := mt whole.fifo.empty_iff.mpr empty
      rw [storedLength, takenLength] at *
      exact Nat.lt_of_le_of_ne le fun same => this (by rw [same])
    have enough : w.taken.length + k ≤ w.stored.length := by
      rw [storedLength, takenLength]
      calc g * k + k = (g + 1) * k := by ring
        _ ≤ m * k := Nat.mul_le_mul_right k pending
    obtain ⟨returns, took⟩ := pipereadCopy_whole k 0 whole.fifo enough
    rw [piperead_copy _ (fun waits => empty waits.1)]
    refine .inr (.inr ⟨pending, by rw [returns, Nat.zero_add], ?_⟩)
    rw [took, stored, taken, next_record whole.sized pending bound, List.getElem?_eq_getElem]

/-- **Step lemma.** Each stretch of either process keeps the records invariant. -/
theorem Records.Whole.step {w w' : Records} {e : RecordEvent} (whole : w.Whole k)
    (stepped : recordStep k w e = some w') : w'.Whole k := by
  cases e with
  | write record =>
    simp only [recordStep] at stepped
    split at stepped
    · rename_i guard
      obtain ⟨sizedRecord, idle, -⟩ := guard
      cases stepped
      refine Records.whole_writerStretch divides whole.fifo (fun r member => ?_) fun reading => ⟨rfl, ?_⟩
      · rcases List.mem_append.mp member with old | new
        · exact whole.sized r old
        · rw [List.mem_singleton.mp new]
          exact sizedRecord
      · -- the new record is the one after all those begun before, which are stored
        obtain ⟨m, g, le, bound, stored, taken, writer⟩ := whole.whole reading
        have length : w.calls.length = m := by
          rcases writer with ⟨-, length⟩ | ⟨r, waiting, -⟩
          · exact length
          · rw [idle] at waiting
            cases waiting
        have all : w.calls.take m = w.calls := by rw [← length, List.take_length]
        refine ⟨m, g, le, ?_, ?_, ?_⟩
        · rw [List.take_left' length]
        · rw [List.take_left' length, ← all]
          exact stored
        · rw [List.take_append_of_le_length (by omega)]
          exact taken
    · cases stepped
  | resume =>
    simp only [recordStep] at stepped
    split at stepped
    · rename_i record i waiting
      cases stepped
      refine Records.whole_writerStretch divides whole.fifo whole.sized fun reading => ?_
      obtain ⟨m, g, le, bound, stored, taken, writer⟩ := whole.whole reading
      rcases writer with ⟨idle, -⟩ | ⟨r, asleep, calls⟩
      · rw [waiting] at idle
        cases idle
      · rw [waiting, Option.some.injEq, Prod.mk.injEq] at asleep
        obtain ⟨rfl, rfl⟩ := asleep
        exact ⟨rfl, m, g, le, calls, stored, taken⟩
    · cases stepped
  | read =>
    by_cases reading : w.pipe.readopen = true
    · rw [recordStep_read reading, Option.some.injEq] at stepped
      subst stepped
      obtain ⟨reads, -⟩ := piperead_ends w.pipe false (List.replicate k true)
      refine ⟨piperead_fifo whole.fifo false _, whole.sized, fun _ => ?_⟩
      obtain ⟨m, g, le, bound, stored, taken, writer, result⟩ := whole.read divides reading
      -- a read that sleeps or returns 0 takes nothing; one that returns `k` takes record `g`
      rcases result with ⟨sleeps, -, -⟩ | ⟨drained, -, -⟩ | ⟨pending, -, took⟩
      · exact ⟨m, g, le, bound, stored, by rw [sleeps, List.append_nil]; exact taken, writer⟩
      · exact ⟨m, g, le, bound, stored, by rw [drained, List.append_nil]; exact taken, writer⟩
      · refine ⟨m, g + 1, pending, bound, stored, ?_, writer⟩
        have lt : g < w.calls.length := by omega
        rw [List.getElem?_eq_getElem lt, Option.some.injEq] at took
        dsimp only
        rw [taken, flatten_take_succ lt, took]
    · simp [recordStep, reading] at stepped
  | closeWrite =>
    simp only [recordStep] at stepped
    split at stepped
    · cases stepped
      refine ⟨pipeclose_fifo whole.fifo true, whole.sized, fun reading => whole.whole ?_⟩
      simpa [pipeclose] using reading
    · cases stepped
  | closeRead =>
    simp only [recordStep] at stepped
    split at stepped
    · cases stepped
      refine ⟨pipeclose_fifo whole.fifo false, whole.sized, fun reading => ?_⟩
      simp [pipeclose] at reading
    · cases stepped

/-- **Run lemma.** -/
theorem RecordsReachable.whole {w : Records} (reachable : RecordsReachable k w) : w.Whole k := by
  obtain ⟨page, reachable⟩ := reachable
  refine Machine.Reachable.invariant ?_ (fun _ _ _ whole stepped => whole.step divides stepped) reachable
  -- a new pipe, with no call begun
  exact ⟨Fifo.new page, fun _ member => absurd member List.not_mem_nil,
    fun _ => ⟨0, 0, le_rfl, le_rfl, rfl, rfl, .inl ⟨rfl, rfl⟩⟩⟩

end Whole

/-- **Whole records.** With one writer whose calls each write a `k`-byte record,
`k` dividing `PIPESIZE`, and one reader whose calls each read `k` bytes, every
copy succeeding and neither process killed, in every interleaving: a read while
the read end is open sleeps on an empty ring whose write end is open, or returns
`k` with the next record in the order the writer's calls began, or returns 0 with
nothing once the write end is closed and every byte stored has been taken. -/
theorem pipe_whole_records {k : Nat} (divides : k ∣ pipeSize) {w : Records}
    (reachable : RecordsReachable k w) (reading : w.pipe.readopen = true) :
    (piperead w.pipe false (List.replicate k true)).1 = .sleeps 0 ∧ w.taken = w.stored ∧
        w.pipe.writeopen = true ∨
      (∃ j, w.taken = (w.calls.take j).flatten ∧
        (piperead w.pipe false (List.replicate k true)).1 = .returns k ∧
        w.calls[j]? = some (piperead w.pipe false (List.replicate k true)).2.2) ∨
      (piperead w.pipe false (List.replicate k true)).1 = .returns 0 ∧
        (piperead w.pipe false (List.replicate k true)).2.2 = [] ∧ w.pipe.writeopen = false ∧
        w.taken = w.stored := by
  obtain ⟨m, g, -, -, stored, taken, -, result⟩ := (reachable.whole divides).read divides reading
  rcases result with ⟨sleeps, rfl, opened⟩ | ⟨drained, rfl, closed⟩ | ⟨-, returns, took⟩
  · exact .inl ⟨by rw [sleeps], by rw [stored, taken], opened⟩
  · exact .inr (.inr ⟨by rw [drained], by rw [drained], closed, by rw [stored, taken]⟩)
  · exact .inr (.inl ⟨g, taken, returns, took⟩)

set_option maxRecDepth 4000 in
/-- A writer of 2-byte records writes one, and the reader's read takes it. -/
theorem pipe_whole_records_one :
    let new : Records := ⟨pipealloc fun _ => 0, none, [], [], []⟩
    let w := (Machine.run (recordStep 2) new [.write [7, 8]]).getD new
    (2 ∣ pipeSize ∧ RecordsReachable 2 w ∧ w.pipe.readopen = true) ∧
    ((piperead w.pipe false (List.replicate 2 true)).1 = .sleeps 0 ∧ w.taken = w.stored ∧
        w.pipe.writeopen = true ∨
      (∃ j, w.taken = (w.calls.take j).flatten ∧
        (piperead w.pipe false (List.replicate 2 true)).1 = .returns 2 ∧
        w.calls[j]? = some (piperead w.pipe false (List.replicate 2 true)).2.2) ∨
      (piperead w.pipe false (List.replicate 2 true)).1 = .returns 0 ∧
        (piperead w.pipe false (List.replicate 2 true)).2.2 = [] ∧ w.pipe.writeopen = false ∧
        w.taken = w.stored) := by
  intro new w
  have ran : Machine.run (recordStep 2) new [.write [7, 8]] = some w := rfl
  have reachable : RecordsReachable 2 w := ⟨_, Machine.reachable_of_run Relation.ReflTransGen.refl ran⟩
  exact ⟨⟨by decide, reachable, rfl⟩, pipe_whole_records (by decide) reachable rfl⟩

end Xv6.Pipes
