import Xv6.Lib.Ring
import Xv6.Lib.Machine

/-!
Contract: the output side of the console: `consolewrite`, and the transmit side of
`kernel/uart.c`: the ring `uart_tx_buf` of `UART_TX_BUF_SIZE` bytes with its 64-bit
counters `uart_tx_w` and `uart_tx_r`, `uartputc`, `uartputc_sync`, `uartstart` and the
transmit part of `uartintr`.

The 16550a is modelled as the driver sees it: its transmit holding register holds a
byte being sent (`LSR_TX_IDLE` clear) or is idle, and its transmit interrupt, which
`uartinit` enables, is raised when a byte has gone and cleared by a read of `ISR` or
a write of `THR`. The UART sending its byte is an event of the system.

The calls run under `uart_tx_lock`, so each stretch from acquiring it to releasing it
or sleeping is one event: a process's `uartputc` with room in the ring, the call of
`uartstart` in `uartintr`, and `uartputc_sync` once the transmitter is idle (it spins
with interrupts off until then). A process in `consolewrite` gives its bytes to
`uartputc` one at a time, with any other events between them. A `uartputc` that finds
the ring full sleeps, and once woken tries again past its check of `panicked`; a
`uartputc` that starts once `panic` has set `panicked` spins forever with the lock
held.

A run records, besides the driver and the UART, every byte each process's
`consolewrite` copied, every byte stored in the ring with its writer, and every byte
the UART sent with whether it came from the ring. `Inv` relates the ring to that
history, as `Pipes.Fifo` does for a pipe, and the transmitter to what left the ring.

Owns: `uartTxBufSize`, `Tx`, `slot`, `Tx.full`, `Thr`, `uartstartLoop`, `uartstart`,
`uartputc`, `uartputcSync`, `consolewrite`, `World`, `Event`, `step`, `Reachable`,
`Inv`.
-/

namespace Xv6.Uart

/-- `UART_TX_BUF_SIZE`. -/
def uartTxBufSize : Nat := 32

instance : NeZero uartTxBufSize := ⟨by decide⟩

/-- The transmit output buffer: `uart_tx_buf`, `uart_tx_w` and `uart_tx_r`. -/
structure Tx where
  buf : Fin uartTxBufSize → UInt8
  w : UInt64
  r : UInt64

/-- The byte `uart_tx_buf[i % UART_TX_BUF_SIZE]`. -/
def slot (i : UInt64) : Fin uartTxBufSize :=
  Ring.cell uartTxBufSize i.toNat

/-- `uart_tx_w == uart_tx_r + UART_TX_BUF_SIZE`. -/
def Tx.full (tx : Tx) : Bool :=
  tx.w == tx.r + uartTxBufSize.toUInt64

/-- The transmitter: a byte in the transmit holding register not sent yet, or idle
with its transmit interrupt raised or not. -/
inductive Thr where
  | busy (c : UInt8)
  | idle (raised : Bool)
deriving DecidableEq, Repr

/-- `ReadReg(LSR) & LSR_TX_IDLE`. -/
def Thr.txIdle : Thr → Bool
  | .busy _ => false
  | .idle _ => true

/-- `ReadReg(ISR)`: the read acknowledges a raised transmit interrupt. -/
def Thr.readIsr : Thr → Thr
  | .busy c => .busy c
  | .idle _ => .idle false

@[simp]
theorem Thr.txIdle_busy (c : UInt8) : (Thr.busy c).txIdle = false := rfl

@[simp]
theorem Thr.readIsr_busy (c : UInt8) : (Thr.busy c).readIsr = .busy c := rfl

theorem Thr.ne_idle {thr : Thr} (busy : thr.txIdle = false) (raised : Bool) : thr ≠ .idle raised := by
  rintro rfl
  cases busy

/-- The loop of `uartstart()`. On an empty ring it reads `ISR` and returns; with the
transmitter busy it returns; else it takes the byte at `uart_tx_r++` and writes it to
`THR`. It returns the bytes it took. Each turn but the last takes a byte, so the fuel
`uartstart` gives it is never used up. -/
def uartstartLoop : Nat → Tx → Thr → Tx × Thr × List UInt8
  | 0, tx, thr => (tx, thr, [])
  | fuel + 1, tx, thr =>
    if tx.w = tx.r then (tx, thr.readIsr, [])
    else if !thr.txIdle then (tx, thr, [])
    else
      let c := tx.buf (slot tx.r)
      let (tx', thr', taken) := uartstartLoop fuel { tx with r := tx.r + 1 } (.busy c)
      (tx', thr', c :: taken)

/-- `uartstart()`, with one turn more than the bytes waiting. -/
def uartstart (tx : Tx) (thr : Thr) : Tx × Thr × List UInt8 :=
  uartstartLoop ((tx.w - tx.r).toNat + 1) tx thr

/-- `uartputc(c)` once the ring has room: `c` at `uart_tx_w++`, then `uartstart()`. -/
def uartputc (tx : Tx) (thr : Thr) (c : UInt8) : Tx × Thr × List UInt8 :=
  uartstart { tx with buf := Function.update tx.buf (slot tx.w) c, w := tx.w + 1 } thr

/-- `uartputc_sync(c)`: `c` to `THR` once `LSR_TX_IDLE` is set; until then it spins. -/
def uartputcSync (thr : Thr) (c : UInt8) : Option Thr :=
  if thr.txIdle then some (.busy c) else none

/-- `consolewrite(user_src, src, n)`: the bytes it gives `uartputc`, one for each
`either_copyin` of the `n` (`none` where it fails) up to the first that fails. It
returns how many. -/
def consolewrite : List (Option UInt8) → List UInt8
  | [] => []
  | none :: _ => []
  | some c :: rest => c :: consolewrite rest

/-! ### The system -/

/-- The driver, the UART, and the history of a run. -/
structure World where
  tx : Tx
  thr : Thr
  panicked : Bool
  /-- A `uartputc` spins forever with `uart_tx_lock` held. -/
  stuck : Bool
  /-- Process `p`'s `uartputc` sleeps on a full ring, past its check of `panicked`. -/
  asleep : Nat → Bool
  /-- The bytes of each process's `consolewrite` not yet given to `uartputc`. -/
  outbox : Nat → List UInt8
  /-- Every byte each process's `consolewrite` copied. -/
  written : Nat → List UInt8
  /-- Every byte `uartputc` stored in the ring, with its writer. -/
  stored : List (Nat × UInt8)
  /-- How many of them `uartstart` took. -/
  taken : Nat
  /-- Whether the byte in `THR` came from the ring. -/
  fromRing : Bool
  /-- Every byte the UART sent, with whether it came from the ring. -/
  wire : List (Bool × UInt8)

/-- `uartstart()` on the world, with the bytes it takes counted. -/
def World.start (w : World) : World :=
  let (tx, thr, bytes) := uartstart w.tx w.thr
  { w with tx, thr, taken := w.taken + bytes.length, fromRing := if bytes = [] then w.fromRing else true }

/-- One stretch of one call, or the UART sending its byte. -/
inductive Event where
  /-- Process `p` enters `consolewrite`, with what `either_copyin` reads. -/
  | write (p : Nat) (src : List (Option UInt8))
  /-- Process `p`'s next `uartputc`. -/
  | putc (p : Nat)
  /-- `uartputc_sync(c)`, from `printf` or the console's echo. -/
  | putcSync (c : UInt8)
  /-- The transmit part of `uartintr`. -/
  | intr
  /-- The UART sends the byte in `THR`. -/
  | sent
  /-- `panic` sets `panicked`. -/
  | panic

/-- A process is in one `consolewrite` at a time. `uartputc` spins if `panicked` is
set when it starts, and sleeps on a full ring; woken, it stores its byte once the
ring has room (a later event retries it); `uartintr` waits for the lock. -/
def step (w : World) : Event → Option World
  | .write p src =>
    if w.outbox p = [] then
      some { w with outbox := Function.update w.outbox p (consolewrite src),
                    written := Function.update w.written p (w.written p ++ consolewrite src) }
    else none
  | .putc p =>
    match w.outbox p with
    | [] => none
    | c :: rest =>
      if w.stuck then none
      else if w.panicked && !w.asleep p then some { w with stuck := true }
      else if w.tx.full then
        if w.asleep p then none else some { w with asleep := Function.update w.asleep p true }
      else
        some { w with tx := { w.tx with buf := Function.update w.tx.buf (slot w.tx.w) c, w := w.tx.w + 1 },
                      outbox := Function.update w.outbox p rest, stored := w.stored ++ [(p, c)],
                      asleep := Function.update w.asleep p false }.start
  | .putcSync c =>
    if w.panicked then none
    else (uartputcSync w.thr c).map fun thr => { w with thr, fromRing := false }
  | .intr => if w.stuck then none else some w.start
  | .sent =>
    match w.thr with
    | .busy c => some { w with thr := .idle true, wire := w.wire ++ [(w.fromRing, c)] }
    | .idle _ => none
  | .panic => some { w with panicked := true }

/-- After `uartinit`: both counters 0, the ring zeroed, the transmitter idle. -/
def boot (raised : Bool) : World :=
  ⟨⟨fun _ => 0, 0, 0⟩, .idle raised, false, false, fun _ => false, fun _ => [], fun _ => [], [], 0, false, []⟩

/-- The states some interleaving reaches after `uartinit`. -/
def Reachable (w : World) : Prop :=
  ∃ raised, Machine.Reachable step (boot raised) w

/-! ### `uartstart` takes at most the byte `THR` accepts -/

theorem toNat_sub_ne_zero {a b : UInt64} (ne : a ≠ b) : (a - b).toNat ≠ 0 := by
  intro zero
  apply ne
  have := UInt64.toNat_sub a b
  have := a.toNat_lt
  have := b.toNat_lt
  rw [← UInt64.toNat_inj]
  omega

/-- **Inversion of `uartstart`.** With a byte waiting and the transmitter idle it
writes that byte to `THR`, after which the transmitter is busy and the loop stops. -/
theorem uartstart_eq (tx : Tx) (thr : Thr) :
    uartstart tx thr =
      if tx.w = tx.r then (tx, thr.readIsr, [])
      else if thr.txIdle then ({ tx with r := tx.r + 1 }, .busy (tx.buf (slot tx.r)), [tx.buf (slot tx.r)])
      else (tx, thr, []) := by
  unfold uartstart
  by_cases empty : tx.w = tx.r
  · simp [uartstartLoop, empty]
  · obtain ⟨k, turns⟩ := Nat.exists_eq_succ_of_ne_zero (toNat_sub_ne_zero empty)
    rw [turns]
    cases idle : thr.txIdle <;> simp [uartstartLoop, empty, idle]

namespace World

variable {w : World}

theorem start_of_empty (empty : w.tx.w = w.tx.r) : w.start = { w with thr := w.thr.readIsr } := by
  simp [start, uartstart_eq, empty]

theorem start_of_busy (pending : w.tx.w ≠ w.tx.r) (busy : w.thr.txIdle = false) : w.start = w := by
  simp [start, uartstart_eq, pending, busy]

theorem start_of_idle (pending : w.tx.w ≠ w.tx.r) (idle : w.thr.txIdle = true) :
    w.start = { w with tx := { w.tx with r := w.tx.r + 1 }, thr := .busy (w.tx.buf (slot w.tx.r)),
                       taken := w.taken + 1, fromRing := true } := by
  simp [start, uartstart_eq, pending, idle]

/-- The byte in `THR`, if it came from the ring. -/
def inTransit (w : World) : List UInt8 :=
  match w.thr with
  | .busy c => if w.fromRing then [c] else []
  | .idle _ => []

theorem inTransit_of_idle (idle : w.thr.txIdle = true) : w.inTransit = [] := by
  unfold inTransit
  cases thr : w.thr with
  | busy c =>
    rw [thr] at idle
    cases idle
  | idle raised => rfl

@[simp]
theorem inTransit_readIsr : { w with thr := w.thr.readIsr }.inTransit = w.inTransit := by
  unfold inTransit
  cases w.thr <;> rfl

end World

/-! ### The invariant -/

/-- The ring holds the bytes stored and not yet taken, the counters count the history
modulo 2^64, the bytes taken went out in order (the last perhaps still in `THR`), and
each process's bytes are those it stored followed by those it has still to store. -/
structure Core (w : World) : Prop where
  taken_le : w.taken ≤ w.stored.length
  room : w.stored.length ≤ w.taken + uartTxBufSize
  counted_w : w.tx.w.toNat = w.stored.length % 2 ^ 64
  counted_r : w.tx.r.toNat = w.taken % 2 ^ 64
  mirrors : Ring.Mirrors w.tx.buf (w.stored.map Prod.snd) w.taken
  sent : (w.wire.filter (·.1)).map Prod.snd ++ w.inTransit = (w.stored.map Prod.snd).take w.taken
  written : ∀ p, (w.stored.filter (·.1 = p)).map Prod.snd ++ w.outbox p = w.written p

/-- Besides, bytes never wait with the transmitter idle and its interrupt not raised. -/
structure Inv (w : World) : Prop extends Core w where
  flowing : w.taken < w.stored.length → w.thr ≠ .idle false

/-- A counter's slot is that of the position it counts: `UART_TX_BUF_SIZE` divides 2^64. -/
theorem slot_eq {n : UInt64} {k : Nat} (counts : n.toNat = k % 2 ^ 64) :
    slot n = Ring.cell uartTxBufSize k := by
  apply Fin.ext
  simp only [slot, Ring.cell, counts, uartTxBufSize]
  omega

namespace Core

variable {w : World}

/-- `uart_tx_w == uart_tx_r + UART_TX_BUF_SIZE` tests exactly a full ring. -/
theorem full_iff (core : Core w) : w.tx.full = true ↔ w.stored.length = w.taken + uartTxBufSize := by
  have le := core.taken_le
  have room := core.room
  rw [Tx.full, beq_iff_eq, ← UInt64.toNat_inj, UInt64.toNat_add, core.counted_w, core.counted_r]
  simp only [uartTxBufSize] at room ⊢
  have thirtyTwo : (32 : Nat).toUInt64.toNat = 32 := rfl
  rw [thirtyTwo]
  omega

/-- `uart_tx_w == uart_tx_r` tests exactly an empty ring. -/
theorem empty_iff (core : Core w) : w.tx.w = w.tx.r ↔ w.stored.length = w.taken := by
  have le := core.taken_le
  have room := core.room
  rw [← UInt64.toNat_inj, core.counted_w, core.counted_r]
  simp only [uartTxBufSize] at room
  omega

/-- `uart_tx_w - uart_tx_r` counts the bytes waiting. -/
theorem count_eq (core : Core w) : (w.tx.w - w.tx.r).toNat = w.stored.length - w.taken := by
  have le := core.taken_le
  have room := core.room
  rw [UInt64.toNat_sub, core.counted_w, core.counted_r]
  simp only [uartTxBufSize] at room
  omega

/-- **Put.** `uartputc` stores the next byte of a process's `consolewrite` at
`uart_tx_w++` in a ring that is not full. -/
theorem put (core : Core w) (notFull : w.tx.full = false) {p : Nat} {c : UInt8} {rest : List UInt8}
    (box : w.outbox p = c :: rest) :
    Core { w with tx := { w.tx with buf := Function.update w.tx.buf (slot w.tx.w) c, w := w.tx.w + 1 },
                  outbox := Function.update w.outbox p rest, stored := w.stored ++ [(p, c)] } where
  taken_le := by
    have := core.taken_le
    simp only [List.length_append, List.length_singleton]
    omega
  room := by
    have notFull : ¬ w.stored.length = w.taken + uartTxBufSize := by
      rw [← core.full_iff, notFull]
      decide
    have := core.room
    simp only [List.length_append, List.length_singleton]
    omega
  counted_w := by
    simp only [UInt64.toNat_add, core.counted_w, UInt64.toNat_one, List.length_append,
      List.length_singleton]
    omega
  counted_r := core.counted_r
  mirrors := by
    have notFull : ¬ w.stored.length = w.taken + uartTxBufSize := by
      rw [← core.full_iff, notFull]
      decide
    have room : (w.stored.map Prod.snd).length < w.taken + uartTxBufSize := by
      have := core.room
      rw [List.length_map]
      omega
    have pushed := core.mirrors.push room c
    rw [List.length_map, ← slot_eq core.counted_w] at pushed
    simpa only [List.map_append, List.map_cons, List.map_nil] using pushed
  sent := by
    have before := core.sent
    simp only [List.map_append]
    rw [List.take_append_of_le_length (by simpa using core.taken_le)]
    exact before
  written := by
    intro q
    rw [← core.written q, List.filter_append, List.map_append, List.append_assoc]
    by_cases mine : p = q
    · subst mine
      simp [box]
    · simp [mine, Function.update_of_ne (Ne.symm mine)]

/-- **Take.** `uartstart` with a byte waiting and the transmitter idle writes the
oldest stored byte to `THR`. -/
theorem take (core : Core w) (pending : w.tx.w ≠ w.tx.r) (idle : w.thr.txIdle = true) :
    Core { w with tx := { w.tx with r := w.tx.r + 1 }, thr := .busy (w.tx.buf (slot w.tx.r)),
                  taken := w.taken + 1, fromRing := true } where
  taken_le := by
    have := core.taken_le
    have := (not_congr core.empty_iff).mp pending
    dsimp only
    omega
  room := by
    have := core.room
    dsimp only
    omega
  counted_w := core.counted_w
  counted_r := by
    simp only [UInt64.toNat_add, core.counted_r, UInt64.toNat_one]
    omega
  mirrors := core.mirrors.pop
  sent := by
    have waiting : w.taken < (w.stored.map Prod.snd).length := by
      have := core.taken_le
      have := (not_congr core.empty_iff).mp pending
      rw [List.length_map]
      omega
    have oldest : w.tx.buf (slot w.tx.r) = (w.stored.map Prod.snd)[w.taken] := by
      rw [slot_eq core.counted_r]
      exact core.mirrors.head waiting
    have before := core.sent
    rw [World.inTransit_of_idle idle, List.append_nil] at before
    simp only [World.inTransit, if_true]
    rw [before, oldest, List.take_concat_get']
  written := core.written

/-- **Start.** `uartstart` in any state keeps the invariant. -/
theorem start (core : Core w) : Core w.start := by
  by_cases empty : w.tx.w = w.tx.r
  · rw [World.start_of_empty empty]
    exact { core with sent := by rw [World.inTransit_readIsr]; exact core.sent }
  · cases idle : w.thr.txIdle
    · rw [World.start_of_busy empty idle]
      exact core
    · rw [World.start_of_idle empty idle]
      exact core.take empty idle

/-- After `uartstart`, bytes wait only while `THR` is busy. -/
theorem start_busy (core : Core w) (waiting : w.start.taken < w.start.stored.length) :
    w.start.thr.txIdle = false := by
  by_cases empty : w.tx.w = w.tx.r
  · rw [World.start_of_empty empty] at waiting
    have := core.empty_iff.mp empty
    dsimp only at waiting
    omega
  · cases idle : w.thr.txIdle
    · rw [World.start_of_busy empty idle]
      exact idle
    · rw [World.start_of_idle empty idle]
      rfl

theorem start_inv (core : Core w) : Inv w.start where
  toCore := core.start
  flowing := fun waiting => Thr.ne_idle (core.start_busy waiting) false

/-- **Send.** The UART sends the byte in `THR`, which joins the bytes sent from
the ring if it came from there. -/
theorem send (core : Core w) {c : UInt8} (busy : w.thr = .busy c) :
    Core { w with thr := .idle true, wire := w.wire ++ [(w.fromRing, c)] } :=
  { core with
    sent := by
      rw [← core.sent]
      simp only [World.inTransit, busy, List.filter_append, List.map_append, List.append_nil]
      cases w.fromRing <;> simp }

/-- **Sync.** `uartputc_sync` writes a byte that is not from the ring to an idle `THR`. -/
theorem sync (core : Core w) (idle : w.thr.txIdle = true) (c : UInt8) :
    Core { w with thr := .busy c, fromRing := false } :=
  { core with
    sent := by
      rw [← core.sent, World.inTransit_of_idle idle]
      rfl }

/-- **Write.** A process that has given all its earlier bytes to `uartputc` enters
`consolewrite` again. -/
theorem write (core : Core w) {p : Nat} (done : w.outbox p = []) (bytes : List UInt8) :
    Core { w with outbox := Function.update w.outbox p bytes,
                  written := Function.update w.written p (w.written p ++ bytes) } :=
  { core with
    written := by
      intro q
      dsimp only
      by_cases mine : q = p
      · subst mine
        rw [Function.update_self, Function.update_self, ← core.written q, done, List.append_nil]
      · rw [Function.update_of_ne mine, Function.update_of_ne mine]
        exact core.written q }

end Core

/-- **Step lemma.** -/
theorem inv_step {w w' : World} (inv : Inv w) {e : Event} (stepped : step w e = some w') : Inv w' := by
  cases e with
  | write p src =>
    simp only [step] at stepped
    split at stepped
    · next done =>
      cases stepped
      exact { toCore := inv.write done (consolewrite src), flowing := inv.flowing }
    · cases stepped
  | putc p =>
    simp only [step] at stepped
    cases box : w.outbox p with
    | nil => simp [box] at stepped
    | cons c rest =>
      simp only [box] at stepped
      split_ifs at stepped with stuck panicked full sleeping
      · -- a call that starts after `panic` spins
        cases stepped
        exact { inv with }
      · -- a call that finds the ring full goes to sleep
        cases stepped
        exact { inv with }
      · -- a woken call stores its byte, whatever `panicked` says now
        cases stepped
        have awake : Core { w with asleep := Function.update w.asleep p false } := { inv.toCore with }
        exact (awake.put (Bool.eq_false_iff.mpr full) box).start_inv
  | putcSync c =>
    simp only [step, uartputcSync] at stepped
    split_ifs at stepped with panicked idle
    · cases stepped
      exact { toCore := inv.sync idle c, flowing := fun _ => by simp }
    · cases stepped
  | intr =>
    simp only [step] at stepped
    split_ifs at stepped with stuck
    cases stepped
    exact inv.start_inv
  | sent =>
    simp only [step] at stepped
    cases thr : w.thr with
    | busy c =>
      simp only [thr, Option.some.injEq] at stepped
      subst stepped
      exact { toCore := inv.send thr, flowing := fun _ => by simp }
    | idle raised => simp [thr] at stepped
  | panic =>
    simp only [step, Option.some.injEq] at stepped
    subst stepped
    exact { inv with }

theorem inv_boot (raised : Bool) : Inv (boot raised) where
  taken_le := le_rfl
  room := Nat.zero_le _
  counted_w := rfl
  counted_r := rfl
  mirrors := fun k lt => absurd lt (Nat.not_lt_zero k)
  sent := by cases raised <;> rfl
  written := fun _ => rfl
  flowing := fun waiting => absurd waiting (Nat.lt_irrefl 0)

/-- **Run lemma.** -/
theorem Reachable.inv {w : World} (reachable : Reachable w) : Inv w := by
  obtain ⟨raised, reachable⟩ := reachable
  exact Machine.Reachable.invariant (inv_boot raised) (fun _ _ _ inv stepped => inv_step inv stepped) reachable

/-- After `uartinit`, a process prints `uartputc_sync(10)`, processes 1 and 2 enter
`consolewrite` (the copy of process 1's third byte fails), and their bytes go to the
ring while the UART sends. -/
def demo : World :=
  (Machine.run step (boot false) [.putcSync 10, .write 1 [some 104, some 105, none], .write 2 [some 33],
    .putc 1, .sent, .putc 2, .intr]).getD (boot false)

theorem demo_reachable : Reachable demo := by
  have ran : Machine.run step (boot false) [.putcSync 10, .write 1 [some 104, some 105, none], .write 2 [some 33],
      .putc 1, .sent, .putc 2, .intr] = some demo := rfl
  exact ⟨false, Machine.reachable_of_run Relation.ReflTransGen.refl ran⟩

/-! ### Console output -/

/-- The ring is a FIFO of `UART_TX_BUF_SIZE` bytes: in every reachable state
`uart_tx_w - uart_tx_r` counts the bytes stored and not yet taken, at most
`UART_TX_BUF_SIZE`; `uartputc` finds the ring full exactly when that many wait; and
the ring, read from `uart_tx_r`, holds them in order. -/
theorem uart_ring {w : World} (reachable : Reachable w) :
    (w.tx.w - w.tx.r).toNat = w.stored.length - w.taken ∧ w.stored.length - w.taken ≤ uartTxBufSize ∧
      (w.tx.full = true ↔ w.stored.length - w.taken = uartTxBufSize) ∧
      Ring.window w.tx.buf w.taken (w.stored.length - w.taken) = (w.stored.map Prod.snd).drop w.taken := by
  have inv := reachable.inv
  have le := inv.taken_le
  have room := inv.room
  refine ⟨inv.count_eq, by omega, ?_, ?_⟩
  · rw [inv.full_iff]
    omega
  · have window := inv.mirrors.window_eq (by simpa using le)
    rwa [List.length_map] at window

theorem uart_ring_demo :
    Reachable demo ∧
      ((demo.tx.w - demo.tx.r).toNat = demo.stored.length - demo.taken ∧
        demo.stored.length - demo.taken ≤ uartTxBufSize ∧
        (demo.tx.full = true ↔ demo.stored.length - demo.taken = uartTxBufSize) ∧
        Ring.window demo.tx.buf demo.taken (demo.stored.length - demo.taken) =
          (demo.stored.map Prod.snd).drop demo.taken) :=
  ⟨demo_reachable, uart_ring demo_reachable⟩

/-- Console output keeps its order and loses nothing: in every reachable state each
process's bytes in the ring's history are those its `consolewrite` copied, in order,
up to those it has still to give `uartputc`; and the bytes the UART sent from the
ring, then the one in `THR`, are the bytes stored first, in order. -/
theorem console_output_ordered {w : World} (reachable : Reachable w) :
    (∀ p, (w.stored.filter (·.1 = p)).map Prod.snd ++ w.outbox p = w.written p) ∧
      (w.wire.filter (·.1)).map Prod.snd ++ w.inTransit = (w.stored.map Prod.snd).take w.taken :=
  ⟨reachable.inv.written, reachable.inv.sent⟩

theorem console_output_ordered_demo :
    Reachable demo ∧
      ((∀ p, (demo.stored.filter (·.1 = p)).map Prod.snd ++ demo.outbox p = demo.written p) ∧
        (demo.wire.filter (·.1)).map Prod.snd ++ demo.inTransit = (demo.stored.map Prod.snd).take demo.taken) :=
  ⟨demo_reachable, console_output_ordered demo_reachable⟩

/-! ### The UART drains the ring by itself -/

/-- What the UART does next by itself: send the byte in `THR`, or interrupt while
its transmit interrupt is raised. -/
def World.next (w : World) : Option Event :=
  match w.thr with
  | .busy _ => some .sent
  | .idle raised => if raised then some .intr else none

/-- What `THR` has still to do by itself: send its byte, then interrupt. -/
def Thr.chores : Thr → Nat
  | .busy _ => 2
  | .idle raised => if raised then 1 else 0

/-- Two events for each byte waiting, and the transmitter's chores. -/
def World.backlog (w : World) : Nat :=
  2 * (w.stored.length - w.taken) + w.thr.chores

namespace Inv

variable {w : World}

/-- No byte is stranded: bytes wait only while `THR` is busy or its interrupt raised. -/
theorem chores_pos (inv : Inv w) (waiting : w.taken < w.stored.length) : 0 < w.thr.chores := by
  have flowing := inv.flowing waiting
  cases thr : w.thr with
  | busy c => simp [Thr.chores]
  | idle raised =>
    cases raised
    · exact absurd thr flowing
    · simp [Thr.chores]

/-- **Progress.** While the backlog is positive, the UART's next event can happen
and lowers it. -/
theorem progress (inv : Inv w) (running : w.stuck = false) (pos : 0 < w.backlog) :
    ∃ w', w.next.bind (step w) = some w' ∧ w'.backlog < w.backlog := by
  have le := inv.taken_le
  cases thr : w.thr with
  | busy c =>
    refine ⟨{ w with thr := .idle true, wire := w.wire ++ [(w.fromRing, c)] }, by simp [World.next, step, thr], ?_⟩
    simp [World.backlog, Thr.chores, thr]
  | idle raised =>
    cases raised
    · -- the interrupt is not raised, so by `flowing` nothing waits: no backlog
      have settled : w.stored.length = w.taken := by
        by_contra waiting
        have := inv.chores_pos (by omega)
        simp [thr, Thr.chores] at this
      simp [World.backlog, Thr.chores, thr, settled] at pos
    · refine ⟨w.start, by simp [World.next, step, thr, running], ?_⟩
      by_cases empty : w.tx.w = w.tx.r
      · rw [World.start_of_empty empty]
        simp [World.backlog, Thr.chores, thr, Thr.readIsr, inv.empty_iff.mp empty]
      · have waiting := (not_congr inv.empty_iff).mp empty
        rw [World.start_of_idle empty (by rw [thr]; rfl)]
        simp only [World.backlog, Thr.chores, thr, if_true]
        omega

/-- With no backlog, the ring is empty and `THR` idle with its interrupt cleared. -/
theorem quiet (inv : Inv w) (zero : w.backlog = 0) : w.stored.length = w.taken ∧ w.thr = .idle false := by
  have le := inv.taken_le
  unfold World.backlog at zero
  cases thr : w.thr with
  | busy c => simp [thr, Thr.chores] at zero
  | idle raised =>
    cases raised
    · simp only [thr, Thr.chores] at zero
      exact ⟨by omega, rfl⟩
    · simp [thr, Thr.chores] at zero

end Inv

/-- The UART's own events keep the history stored and leave the lock free. -/
theorem next_keeps {w w' : World} (running : w.stuck = false) (picked : w.next.bind (step w) = some w') :
    w'.stored = w.stored ∧ w'.stuck = false := by
  unfold World.next at picked
  cases thr : w.thr with
  | busy c =>
    simp only [thr, Option.bind_some, step, Option.some.injEq] at picked
    subst picked
    exact ⟨rfl, running⟩
  | idle raised =>
    cases raised
    · simp [thr] at picked
    · simp only [thr, if_true, Option.bind_some, step, running] at picked
      cases picked
      exact ⟨rfl, running⟩

/-- The ring drains by itself: from every reachable state where no `uartputc` spins
with the lock held, the UART's own events (sending the byte in `THR`, and the
transmit interrupt while it is raised), at most `2 * UART_TX_BUF_SIZE + 2` of them,
send every byte ever stored, in order, and leave the ring empty and the
transmitter idle. -/
theorem uart_drains {w : World} (reachable : Reachable w) (running : w.stuck = false) :
    let w' := Machine.drive step World.next (2 * uartTxBufSize + 2) w
    Reachable w' ∧ w'.stored = w.stored ∧ w'.tx.w = w'.tx.r ∧ w'.thr = .idle false ∧
      (w'.wire.filter (·.1)).map Prod.snd = w.stored.map Prod.snd := by
  intro w'
  have inv := reachable.inv
  have bound : w.backlog ≤ 2 * uartTxBufSize + 2 := by
    have := inv.room
    have chores : w.thr.chores ≤ 2 := by
      unfold Thr.chores
      split
      · exact le_rfl
      · split <;> omega
    unfold World.backlog
    omega
  obtain ⟨⟨inv', stored, -⟩, zero⟩ :=
    @Machine.drive_potential World Event step World.next (fun v => Inv v ∧ v.stored = w.stored ∧ v.stuck = false)
      World.backlog
      (fun v v' ⟨inv, stored, running⟩ picked =>
        have kept := next_keeps running picked
        ⟨inv_step inv (Option.bind_eq_some_iff.mp picked).choose_spec.2, kept.1.trans stored, kept.2⟩)
      (fun v ⟨inv, _, running⟩ pos => inv.progress running pos)
      (fun v ⟨inv, _, _⟩ zero => by simp [World.next, (inv.quiet zero).2])
      _ w ⟨inv, rfl, running⟩ bound
  obtain ⟨settled, idle⟩ := inv'.quiet zero
  have sent := inv'.sent
  rw [World.inTransit_of_idle (by rw [idle]; rfl), List.append_nil,
    List.take_of_length_le (by simp [settled]), stored] at sent
  obtain ⟨raised, reachable⟩ := reachable
  exact ⟨⟨raised, reachable.drive _⟩, stored, inv'.empty_iff.mpr settled, idle, sent⟩

theorem uart_drains_demo :
    Reachable demo ∧ demo.stuck = false ∧
      (let w' := Machine.drive step World.next (2 * uartTxBufSize + 2) demo
       Reachable w' ∧ w'.stored = demo.stored ∧ w'.tx.w = w'.tx.r ∧ w'.thr = .idle false ∧
        (w'.wire.filter (·.1)).map Prod.snd = demo.stored.map Prod.snd) :=
  ⟨demo_reachable, rfl, uart_drains demo_reachable rfl⟩

end Xv6.Uart
