import Xv6.Lib.Ring

/-!
Contract: the input side of `kernel/console.c`: the ring `cons.buf` of
`INPUT_BUF_SIZE` bytes with its three 32-bit indices `r` (read), `w` (write) and
`e` (edit), `consoleintr` on each input character and `consoleread`.

`consoleintr` runs under `cons.lock` from start to end, so it is one function. A
`consoleread` holds the lock from its start to its return or to a `sleep`, so its
loop is one function from its test of `n > 0` (with `n` bytes left of `target`) to
its return or its next sleep. What the caller's memory does is an argument:
whether `either_copyout` succeeds for each byte (those past the list succeed), and
`killed(myproc())` at each test.

Echoing (`consputc`) and `procdump` only write to the UART; they leave `cons` as it
is and are not modelled.

Owns: `inputBufSize`, `ctrl`, `Cons`, `slot`, `killLine`, `consoleintr`, `Outcome`,
`consolereadLoop`, `consoleread`.
-/

namespace Xv6.Console

/-- `INPUT_BUF_SIZE`. -/
def inputBufSize : Nat := 128

instance : NeZero inputBufSize := ⟨by decide⟩

/-- `C(x)`: control-`x`. -/
def ctrl (x : Char) : UInt8 :=
  x.toUInt8 - '@'.toUInt8

/-- `cons` without its lock. -/
structure Cons where
  buf : Fin inputBufSize → UInt8
  r : UInt32
  w : UInt32
  e : UInt32

/-- The byte `buf[i % INPUT_BUF_SIZE]`. -/
def slot (i : UInt32) : Fin inputBufSize :=
  Ring.cell inputBufSize i.toNat

/-- `consoleintr`'s kill-line loop: `e--` while the line being edited is not empty and
the byte before `e` is not a newline. The fuel bounds the turns; `consoleintr` gives it
`e - w`. -/
def killLine : Nat → Cons → Cons
  | 0, cons => cons
  | fuel + 1, cons =>
    if cons.e ≠ cons.w ∧ cons.buf (slot (cons.e - 1)) ≠ '\n'.toUInt8 then
      killLine fuel { cons with e := cons.e - 1 }
    else cons

/-- `consoleintr(c)`: `^P` prints the process list; `^U` kills the line; backspace and
delete take back the last byte typed; any other byte but 0 is stored at `e` while fewer
than `INPUT_BUF_SIZE` bytes are pending, `\r` as `\n`, and a newline, a `^D` or a full
ring commits the line (`w = e`). -/
def consoleintr (cons : Cons) (c : UInt8) : Cons :=
  if c = ctrl 'P' then cons
  else if c = ctrl 'U' then killLine (cons.e - cons.w).toNat cons
  else if c = ctrl 'H' ∨ c = '\x7f'.toUInt8 then
    if cons.e ≠ cons.w then { cons with e := cons.e - 1 } else cons
  else if c ≠ 0 ∧ cons.e - cons.r < inputBufSize.toUInt32 then
    let c := if c = '\r'.toUInt8 then '\n'.toUInt8 else c
    let cons := { cons with buf := Function.update cons.buf (slot cons.e) c, e := cons.e + 1 }
    if c = '\n'.toUInt8 ∨ c = ctrl 'D' ∨ cons.e - cons.r = inputBufSize.toUInt32 then
      { cons with w := cons.e }
    else cons
  else cons

/-- How a stretch of `consoleread` ends: it returns `ret`, or it sleeps with `n` bytes
still to read. -/
inductive Outcome where
  | returns (ret : Int)
  | sleeps (n : Nat)
  deriving DecidableEq, Repr

/-- `consoleread`'s loop with `n` bytes left of `target`. On an empty committed part it
returns -1 if killed and sleeps otherwise. It takes the byte at `r++`: a `^D` ends the
read, put back (`r--`) unless it is the first byte the read sees; any other byte is
copied out, and a failing copy ends the read with the byte taken; a newline ends the
read after it. Also the bytes copied out, in order. -/
def consolereadLoop (killed : Bool) (target : Nat) : Nat → Cons → List Bool → Outcome × Cons × List UInt8
  | 0, cons, _ => (.returns target, cons, [])
  | n + 1, cons, copyOk =>
    if cons.r = cons.w then
      if killed then (.returns (-1), cons, []) else (.sleeps (n + 1), cons, [])
    else
      let c := cons.buf (slot cons.r)
      let cons := { cons with r := cons.r + 1 }
      if c = ctrl 'D' then
        (.returns ↑(target - (n + 1)), if n + 1 < target then { cons with r := cons.r - 1 } else cons, [])
      else if copyOk.headD true = false then (.returns ↑(target - (n + 1)), cons, [])
      else if c = '\n'.toUInt8 then (.returns ↑(target - n), cons, [c])
      else
        let (stop, cons, got) := consolereadLoop killed target n cons copyOk.tail
        (stop, cons, c :: got)

/-- `consoleread(user_dst, dst, n)`: its loop from the start, with `target = n`. -/
def consoleread (cons : Cons) (killed : Bool) (n : Nat) (copyOk : List Bool) :
    Outcome × Cons × List UInt8 :=
  consolereadLoop killed n n cons copyOk

end Xv6.Console
