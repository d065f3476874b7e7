import Xv6.Pipe.Pipe
import Xv6.Lib.Machine

/-!
Contract: a pipe is a FIFO of at most `PIPESIZE` bytes. Whatever the order in
which the stretches of `pipewrite`, `piperead` and `pipeclose` of any processes
run, and however far `nread` and `nwrite` have wrapped past 2^32, the bytes
taken at the increments of `nread` are, in order, the bytes stored at the
increments of `nwrite`, and `nwrite - nread` counts the bytes stored and not yet
taken, at most `PIPESIZE`.

A run records, besides the pipe, every byte each call stored and took, in order
(`World.stored`, `World.taken`): the history the counters count modulo 2^32.
`Fifo` relates the pipe to that history: the ring holds the pending bytes
(`Ring.Mirrors`) and each counter is its history's length modulo 2^32. Each
iteration keeps it (`Fifo.push`, `Fifo.pop`), so each call's loop does
(`pipewrite_fifo`, `pipereadCopy_fifo`), so every event does, so every reachable
state has it.

An event is one stretch of one call, with any arguments: any number of readers and
writers, each woken at any time, are among the runs.

Owns: `Fifo`, `World`, `Event`, `step`, `Reachable`, `pipe_fifo`.
-/

namespace Xv6.Pipes

/-! ### The ring against its history -/

/-- `stored` holds every byte stored at `nwrite++` and `taken` every byte taken at
`nread++`; the ring holds the bytes stored and not yet taken. -/
structure Fifo (pi : Pipe) (stored taken : List UInt8) : Prop where
  ordered : taken <+: stored
  room : stored.length ≤ taken.length + pipeSize
  nwrite : pi.nwrite.toNat = stored.length % 2 ^ 32
  nread : pi.nread.toNat = taken.length % 2 ^ 32
  mirrors : Ring.Mirrors pi.data stored taken.length

/-- A counter's slot is that of the position it counts: `PIPESIZE` divides 2^32. -/
theorem slot_eq {n : UInt32} {k : Nat} (counts : n.toNat = k % 2 ^ 32) :
    slot n = Ring.cell pipeSize k := by
  apply Fin.ext
  simp only [slot, Ring.cell, counts, pipeSize]
  omega

theorem pipeSize_toUInt32_toNat : pipeSize.toUInt32.toNat = pipeSize := by decide

namespace Fifo

variable {pi : Pipe} {stored taken : List UInt8}

/-- `nwrite == nread + PIPESIZE` in 32-bit arithmetic tests exactly a full ring. -/
theorem full_iff (fifo : Fifo pi stored taken) :
    pi.nwrite = pi.nread + pipeSize.toUInt32 ↔ stored.length = taken.length + pipeSize := by
  have le := fifo.ordered.length_le
  have room := fifo.room
  rw [← UInt32.toNat_inj, UInt32.toNat_add, fifo.nwrite, fifo.nread, pipeSize_toUInt32_toNat]
  simp only [pipeSize] at room ⊢
  omega

/-- `nread == nwrite` tests exactly an empty ring. -/
theorem empty_iff (fifo : Fifo pi stored taken) :
    pi.nread = pi.nwrite ↔ taken.length = stored.length := by
  have le := fifo.ordered.length_le
  have room := fifo.room
  rw [← UInt32.toNat_inj, fifo.nwrite, fifo.nread]
  simp only [pipeSize] at room
  omega

/-- `nwrite - nread` counts the pending bytes. -/
theorem count_eq (fifo : Fifo pi stored taken) :
    (pi.nwrite - pi.nread).toNat = stored.length - taken.length := by
  have le := fifo.ordered.length_le
  have room := fifo.room
  rw [UInt32.toNat_sub, fifo.nwrite, fifo.nread]
  simp only [pipeSize] at room
  omega

/-- The invariant reads only the bytes and the counters. -/
theorem congr (fifo : Fifo pi stored taken) {pi' : Pipe} (data : pi'.data = pi.data)
    (nread : pi'.nread = pi.nread) (nwrite : pi'.nwrite = pi.nwrite) : Fifo pi' stored taken :=
  ⟨fifo.ordered, fifo.room, nwrite ▸ fifo.nwrite, nread ▸ fifo.nread, data ▸ fifo.mirrors⟩

/-- **Push.** Storing at `nwrite++` into a ring that is not full. -/
theorem push (fifo : Fifo pi stored taken) (notFull : stored.length < taken.length + pipeSize)
    (ch : UInt8) :
    Fifo { pi with data := Function.update pi.data (slot pi.nwrite) ch, nwrite := pi.nwrite + 1 }
      (stored ++ [ch]) taken := by
  refine ⟨fifo.ordered.trans (List.prefix_append stored [ch]), ?_, ?_, fifo.nread, ?_⟩
  · simp only [List.length_append, List.length_singleton]
    omega
  · simp only [UInt32.toNat_add, fifo.nwrite, UInt32.toNat_one, List.length_append,
      List.length_singleton]
    omega
  · rw [slot_eq fifo.nwrite]
    exact fifo.mirrors.push notFull ch

/-- **Pop.** Taking at `nread++` from a ring that is not empty takes the oldest
pending byte. -/
theorem pop (fifo : Fifo pi stored taken) (pending : taken.length < stored.length) :
    pi.data (slot pi.nread) = stored[taken.length] ∧
      Fifo { pi with nread := pi.nread + 1 } stored (taken ++ [pi.data (slot pi.nread)]) := by
  have oldest : pi.data (slot pi.nread) = stored[taken.length] := by
    rw [slot_eq fifo.nread]
    exact fifo.mirrors.head pending
  refine ⟨oldest, ?_, ?_, fifo.nwrite, ?_, ?_⟩
  · -- the history taken so far is `stored.take`, and one more byte extends it
    have extended := List.take_concat_get' stored taken.length pending
    rw [← List.prefix_iff_eq_take.mp fifo.ordered] at extended
    rw [oldest, extended]
    exact List.take_prefix _ _
  · simp only [List.length_append, List.length_singleton]
    have := fifo.room
    omega
  · simp only [UInt32.toNat_add, fifo.nread, UInt32.toNat_one, List.length_append,
      List.length_singleton]
    omega
  · simpa using fifo.mirrors.pop

/-- A new pipe: both counters 0 and no history. -/
theorem new (page : Fin pipeSize → UInt8) : Fifo (pipealloc page) [] [] := by
  refine ⟨List.nil_prefix, by simp, by simp [pipealloc], by simp [pipealloc], ?_⟩
  intro k lt
  cases lt

end Fifo

/-! ### The calls -/

/-- **Loop lemma of `pipewrite`.** Its loop, from any byte, stores what it returns. -/
theorem pipewrite_fifo (killed : Nat → Bool) (taken : List UInt8) :
    ∀ (src : List (Option UInt8)) (pi : Pipe) (i : Nat) (stored : List UInt8),
      Fifo pi stored taken →
        Fifo (pipewrite killed pi i src).2.1 (stored ++ (pipewrite killed pi i src).2.2) taken := by
  intro src
  induction src with
  | nil =>
    intro pi i stored fifo
    simpa [pipewrite] using fifo
  | cons b rest ih =>
    intro pi i stored fifo
    unfold pipewrite
    split
    · simpa using fifo
    split
    · simpa using fifo
    rename_i notFull
    cases b with
    | none => simpa using fifo
    | some ch =>
      -- not full: one byte pushed, then the rest of the loop
      have room : stored.length < taken.length + pipeSize :=
        lt_of_le_of_ne fifo.room (mt fifo.full_iff.mpr notFull)
      simpa using ih _ (i + 1) _ (fifo.push room ch)

/-- **Loop lemma of `piperead`'s copy.** Its loop takes what it returns. -/
theorem pipereadCopy_fifo (stored : List UInt8) :
    ∀ (copyOk : List Bool) (pi : Pipe) (i : Nat) (taken : List UInt8),
      Fifo pi stored taken →
        Fifo (pipereadCopy pi i copyOk).2.1 stored (taken ++ (pipereadCopy pi i copyOk).2.2) := by
  intro copyOk
  induction copyOk with
  | nil =>
    intro pi i taken fifo
    simpa [pipereadCopy] using fifo
  | cons ok rest ih =>
    intro pi i taken fifo
    unfold pipereadCopy
    split
    · simpa using fifo
    rename_i nonEmpty
    -- not empty: the oldest byte is taken, copied or not
    have pending : taken.length < stored.length :=
      lt_of_le_of_ne fifo.ordered.length_le (mt fifo.empty_iff.mpr nonEmpty)
    have popped := (fifo.pop pending).2
    cases ok with
    | true => simpa using ih _ (i + 1) _ popped
    | false => simpa using popped

theorem piperead_fifo {pi : Pipe} {stored taken : List UInt8} (fifo : Fifo pi stored taken)
    (killed : Bool) (copyOk : List Bool) :
    Fifo (piperead pi killed copyOk).2.1 stored (taken ++ (piperead pi killed copyOk).2.2) := by
  unfold piperead
  split
  · split <;> simpa using fifo
  · exact pipereadCopy_fifo stored copyOk pi 0 taken fifo

theorem pipeclose_fifo {pi : Pipe} {stored taken : List UInt8} (fifo : Fifo pi stored taken)
    (writable : Bool) : Fifo (pipeclose pi writable) stored taken := by
  unfold pipeclose
  split <;> exact fifo.congr rfl rfl rfl

/-! ### The system -/

/-- The pipe and its history: every byte stored and every byte taken so far. -/
structure World where
  pipe : Pipe
  stored : List UInt8
  taken : List UInt8

/-- One stretch of a call under the pipe's lock, by any process, with what user
memory and `killed` give it. -/
inductive Event where
  | write (killed : Nat → Bool) (i : Nat) (src : List (Option UInt8))
  | read (killed : Bool) (copyOk : List Bool)
  | close (writable : Bool)

/-- A process calls `pipewrite` only while it holds the write end open, `piperead`
while it holds the read end, and each end is closed once. -/
def step (w : World) : Event → Option World
  | .write killed i src =>
    if w.pipe.writeopen then
      let (_, pi, stored) := pipewrite killed w.pipe i src
      some ⟨pi, w.stored ++ stored, w.taken⟩
    else none
  | .read killed copyOk =>
    if w.pipe.readopen then
      let (_, pi, taken) := piperead w.pipe killed copyOk
      some ⟨pi, w.stored, w.taken ++ taken⟩
    else none
  | .close writable =>
    if (if writable then w.pipe.writeopen else w.pipe.readopen) then
      some { w with pipe := pipeclose w.pipe writable }
    else none

/-- The states some interleaving reaches from a new pipe, on any page. -/
def Reachable (w : World) : Prop :=
  ∃ page, Machine.Reachable step ⟨pipealloc page, [], []⟩ w

/-- **Step lemma.** -/
theorem fifo_step {w w' : World} {e : Event} (fifo : Fifo w.pipe w.stored w.taken)
    (stepped : step w e = some w') : Fifo w'.pipe w'.stored w'.taken := by
  cases e with
  | write killed i src =>
    simp only [step] at stepped
    split at stepped
    · cases stepped
      exact pipewrite_fifo killed w.taken src w.pipe i w.stored fifo
    · cases stepped
  | read killed copyOk =>
    simp only [step] at stepped
    split at stepped
    · cases stepped
      exact piperead_fifo fifo killed copyOk
    · cases stepped
  | close writable =>
    simp only [step] at stepped
    by_cases opened : (if writable then w.pipe.writeopen else w.pipe.readopen) = true
    · rw [if_pos opened, Option.some.injEq] at stepped
      subst stepped
      exact pipeclose_fifo fifo writable
    · rw [if_neg opened] at stepped
      cases stepped

/-- **Run lemma.** -/
theorem Reachable.fifo {w : World} (reachable : Reachable w) : Fifo w.pipe w.stored w.taken := by
  obtain ⟨page, reachable⟩ := reachable
  refine @Machine.Reachable.invariant World Event step (fun w => Fifo w.pipe w.stored w.taken) _ w
    ?_ (fun _ _ _ fifo stepped => fifo_step fifo stepped) reachable
  exact Fifo.new page

/-- The pipe is a FIFO: in every reachable state `nwrite - nread`, in 32-bit
arithmetic, is the number of bytes stored and not yet taken, at most `PIPESIZE`;
the counters count the bytes stored and taken modulo 2^32; the bytes taken are, in
order, the first bytes stored; and the ring, read from `nread`, holds the rest. -/
theorem pipe_fifo {w : World} (reachable : Reachable w) :
    (w.pipe.nwrite - w.pipe.nread).toNat = w.stored.length - w.taken.length ∧
      w.stored.length - w.taken.length ≤ pipeSize ∧
      w.pipe.nwrite.toNat = w.stored.length % 2 ^ 32 ∧ w.pipe.nread.toNat = w.taken.length % 2 ^ 32 ∧
      w.taken <+: w.stored ∧
      Ring.window w.pipe.data w.taken.length (w.stored.length - w.taken.length) =
        w.stored.drop w.taken.length := by
  have fifo := reachable.fifo
  have room := fifo.room
  refine ⟨fifo.count_eq, by omega, fifo.nwrite, fifo.nread, fifo.ordered, ?_⟩
  exact fifo.mirrors.window_eq fifo.ordered.length_le

set_option maxRecDepth 4000 in
/-- A writer stores two bytes, a reader takes one, and a second reader, whose copy
fails, loses the other. -/
theorem pipe_fifo_two_readers :
    let new : World := ⟨pipealloc fun _ => 0, [], []⟩
    let w := (Machine.run step new
      [.write (fun _ => false) 0 [some 7, some 8], .read false [true], .read false [false, true]]).getD new
    Reachable w ∧
    ((w.pipe.nwrite - w.pipe.nread).toNat = w.stored.length - w.taken.length ∧
      w.stored.length - w.taken.length ≤ pipeSize ∧
      w.pipe.nwrite.toNat = w.stored.length % 2 ^ 32 ∧ w.pipe.nread.toNat = w.taken.length % 2 ^ 32 ∧
      w.taken <+: w.stored ∧
      Ring.window w.pipe.data w.taken.length (w.stored.length - w.taken.length) =
        w.stored.drop w.taken.length) := by
  intro new w
  have ran : Machine.run step new
      [.write (fun _ => false) 0 [some 7, some 8], .read false [true], .read false [false, true]] =
        some w := rfl
  have reachable : Reachable w := ⟨_, Machine.reachable_of_run Relation.ReflTransGen.refl ran⟩
  exact ⟨reachable, pipe_fifo reachable⟩

end Xv6.Pipes
