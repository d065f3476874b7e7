import Xv6.Lib.Ring

/-!
Contract: `kernel/pipe.c`: the pipe's ring of `PIPESIZE` bytes with its 32-bit
counters `nread` and `nwrite`, and `pipealloc`, `pipewrite`, `piperead` and
`pipeclose` on it.

A call holds `pi->lock` from its start to its return or to a `sleep`, so each such
stretch is one function here: `pipewrite` from the byte it has reached (0 on a new
call, where it slept on a woken one) to its return or its next sleep; `piperead`
from its check for an empty pipe to its return or its sleep. What user memory
gives is an argument: `copyin`'s byte or failure for each byte `pipewrite` copies,
whether `copyout` succeeds for each byte `piperead` copies, and `killed(pr)` at
each test. Each function also returns the bytes it moved through the ring, in
order: those `pipewrite` stored at `nwrite++`, and those `piperead` took at
`nread++`.

Owns: `pipeSize`, `Pipe`, `slot`, `pipealloc`, `Stop`, `pipewrite`, `pipereadCopy`,
`piperead`, `pipeclose`.

Does not own: the two files `pipealloc` allocates (the file table), and the
wakeups, which only make a sleeping call run again.
-/

namespace Xv6.Pipes

/-- `PIPESIZE`. -/
def pipeSize : Nat := 512

instance : NeZero pipeSize := ⟨by decide⟩

/-- `struct pipe` without its lock. -/
structure Pipe where
  data : Fin pipeSize → UInt8
  nread : UInt32
  nwrite : UInt32
  readopen : Bool
  writeopen : Bool

/-- The byte `data[n % PIPESIZE]`. -/
def slot (n : UInt32) : Fin pipeSize :=
  Ring.cell pipeSize n.toNat

/-- `pipealloc`'s pipe, on the page `kalloc` gave it: both ends open, both counters
0, the bytes whatever the page holds. -/
def pipealloc (page : Fin pipeSize → UInt8) : Pipe :=
  ⟨page, 0, 0, true, true⟩

/-- How a call's stretch under the lock ends: it returns `ret`, or it sleeps
having done `done` bytes. -/
inductive Stop where
  | returns (ret : Int)
  | sleeps (done : Nat)
  deriving DecidableEq, Repr

/-- `pipewrite`'s loop from byte `i`: `src` is what `copyin` gives for bytes `i`
to `n - 1` (`none` where it fails) and `killed j` what `killed(pr)` reads at byte
`j`. Also the bytes stored, in order. -/
def pipewrite (killed : Nat → Bool) : Pipe → Nat → List (Option UInt8) → Stop × Pipe × List UInt8
  | pi, i, [] => (.returns i, pi, [])
  | pi, i, b :: rest =>
    if pi.readopen = false ∨ killed i = true then (.returns (-1), pi, [])
    -- full: wake the readers and sleep, to resume at byte `i`
    else if pi.nwrite = pi.nread + pipeSize.toUInt32 then (.sleeps i, pi, [])
    else
      match b with
      | none => (.returns i, pi, [])
      | some ch =>
        let pi := { pi with data := Function.update pi.data (slot pi.nwrite) ch, nwrite := pi.nwrite + 1 }
        let (stop, pi, stored) := pipewrite killed pi (i + 1) rest
        (stop, pi, ch :: stored)

/-- `piperead`'s copy loop from byte `i`: `copyOk` is whether `copyout` succeeds
for bytes `i` to `n - 1`. The byte is taken, and `nread` moved, before it is
copied, so a failing copy loses it. Also the bytes taken, in order. -/
def pipereadCopy : Pipe → Nat → List Bool → Nat × Pipe × List UInt8
  | pi, i, [] => (i, pi, [])
  | pi, i, ok :: rest =>
    if pi.nread = pi.nwrite then (i, pi, [])
    else
      let ch := pi.data (slot pi.nread)
      let pi := { pi with nread := pi.nread + 1 }
      if ok then
        let (i, pi, taken) := pipereadCopy pi (i + 1) rest
        (i, pi, ch :: taken)
      else (i, pi, [ch])

/-- `piperead` of `copyOk.length` bytes: on an empty pipe with its write end open
it returns -1 if killed and sleeps otherwise; else it copies. -/
def piperead (pi : Pipe) (killed : Bool) (copyOk : List Bool) : Stop × Pipe × List UInt8 :=
  if pi.nread = pi.nwrite ∧ pi.writeopen = true then
    if killed then (.returns (-1), pi, []) else (.sleeps 0, pi, [])
  else
    let (i, pi, taken) := pipereadCopy pi 0 copyOk
    (.returns i, pi, taken)

/-- `pipeclose`: the end `writable` names is closed (the page is freed once
both are). -/
def pipeclose (pi : Pipe) (writable : Bool) : Pipe :=
  if writable then { pi with writeopen := false } else { pi with readopen := false }

end Xv6.Pipes
