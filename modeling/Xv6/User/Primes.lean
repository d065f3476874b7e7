import Xv6.Pipe.System
import Xv6.Printf

/-!
Contract: `user/primes.c`: `main` writes `2, …, 280` into a pipe and each process
of `sieve` reads from its standard input the first number it gets, prints it as a
prime, and passes on through a new pipe to a new process those of the rest it does
not divide.

Each process is a `Proc` of the system of `Xv6.Pipe.System`, its program counter a
line of `main` or `sieve` with the local variables live there (`Pc`); process `0`
runs `main` and process `k + 1` is the child that process `k` forks. Every call goes
through the process's descriptors as the kernel makes it: `write(p[1], &i,
sizeof(int))` writes the 4 bytes of `i` (`intBytes`), and `printf` writes its text a
character at a time (`putc`). The bound of `main`'s loop, 280 in the source, is a
parameter `limit` of the model.

Where the kernel may fail a call for want of a process slot, a file or memory, the
call's failure is an event (`Event.fail`): `fork` in both functions and `pipe` in
`sieve`, each of which the code handles. `main`'s own `pipe(p)` is taken to succeed:
its result is not checked.

Owns: `Pc`, `intBytes`, `intOfBytes`, `byte`, `primeLine`, `mainError`, `sieveError`,
`afterWrite`, `run`, `failing`, `World`, `Event`, `step`, `boot`, `Reachable`.
-/

namespace Xv6.Primes

open Xv6.Pipes Xv6.Printf

/-- A line of `main` or `sieve`, with the local variables live there. -/
inductive Pc where
  /-- `main`: `pipe(p)`. -/
  | start
  /-- `main`: `fork()`. -/
  | mainFork (p0 p1 : Nat)
  /-- `main`, the parent: `close(p[0])`. -/
  | mainClose (p0 p1 : Nat)
  /-- `main`'s loop at `i`: `write(p[1], &i, sizeof(int))`, or once `i > 280`,
  `close(p[1])`. -/
  | mainLoop (p1 i : Nat)
  /-- `main`, asleep in `write(p[1], &i, sizeof(int))`. -/
  | mainWrite (p1 i : Nat)
  /-- `wait(0)`, then `exit(0)`. -/
  | wait
  /-- The child of a `fork`, before `sieve()`: `close(p[1])`. -/
  | childCloseWrite (p0 p1 : Nat)
  /-- `close(0)`. -/
  | childCloseInput (p0 : Nat)
  /-- `dup(p[0])`. -/
  | childDup (p0 : Nat)
  /-- `close(p[0])`. -/
  | childCloseRead (p0 : Nat)
  /-- `sieve`: `read(0, &prime, sizeof(int))`. -/
  | readPrime
  /-- `printf("prime %d\n", prime)`, with the characters it has still to write. -/
  | print (prime : BitVec 32) (rest : List Char)
  /-- `pipe(p_right)`. -/
  | sievePipe (prime : BitVec 32)
  /-- `fork()`. -/
  | sieveFork (prime : BitVec 32) (q0 q1 : Nat)
  /-- The parent: `close(p_right[0])`. -/
  | sieveClose (prime : BitVec 32) (q0 q1 : Nat)
  /-- `while (read(0, &num, sizeof(int)) > 0)`. -/
  | filter (prime : BitVec 32) (q1 : Nat)
  /-- `if (num % prime != 0)` then `write(p_right[1], &num, sizeof(int))`. -/
  | test (prime num : BitVec 32) (q1 : Nat)
  /-- Asleep in `write(p_right[1], &num, sizeof(int))`. -/
  | sieveWrite (prime : BitVec 32) (q1 : Nat)
  /-- `close(p_right[1])`. -/
  | sieveDone (q1 : Nat)
  /-- `fprintf(2, …)`, with the characters it has still to write, then `exit(1)`. -/
  | error (rest : List Char)
  deriving DecidableEq, Repr

/-- The 4 bytes of an `int` in memory, the least significant first. -/
def intBytes (v : BitVec 32) : List UInt8 :=
  [(v.toNat % 256).toUInt8, (v.toNat / 256 % 256).toUInt8, (v.toNat / 65536 % 256).toUInt8,
    (v.toNat / 16777216 % 256).toUInt8]

/-- The `int` that the bytes a `read` copied into it make, the least significant
first; bytes it did not copy are taken as 0. -/
def intOfBytes (bytes : List UInt8) : BitVec 32 :=
  BitVec.ofNat 32 (bytes.foldr (fun b acc => b.toNat + 256 * acc) 0)

/-- The byte `putc(fd, c)` writes. -/
def byte (c : Char) : UInt8 :=
  c.toNat.toUInt8

/-- What `printf("prime %d\n", prime)` writes. -/
def primeLine (prime : BitVec 32) : List Char :=
  User.vprintf "prime %d\n".toList [.ofInt prime]

/-- `fprintf(2, "primes: main write error\n")`. -/
def mainError : List Char :=
  User.vprintf "primes: main write error\n".toList []

/-- `fprintf(2, "primes: sieve write error\n")`. -/
def sieveError : List Char :=
  User.vprintf "primes: sieve write error\n".toList []

/-- Where a `write` of an `int` leaves the program: on its way once it wrote all 4
bytes, asleep inside the call, or at the error otherwise. -/
def afterWrite (stop : Stop) (next asleep failed : Pc) : Pc :=
  match stop with
  | .returns 4 => next
  | .returns _ => failed
  | .sleeps _ => asleep

/-- One step of process `k` at `pc`, its calls succeeding where they can; `none`
while it sleeps. -/
def run (limit : Nat) (k : Nat) (s : System Pc) : Pc → Option (System Pc)
  | .start =>
    match s.pipe k with
    | some (s, p0, p1) => some (s.setPc k (.mainFork p0 p1))
    | none => none
  | .mainFork p0 p1 => some ((s.fork k (.childCloseWrite p0 p1)).setPc k (.mainClose p0 p1))
  | .mainClose p0 p1 => some ((s.close k p0).setPc k (.mainLoop p1 2))
  | .mainLoop p1 i =>
    if i ≤ limit then
      (s.write k p1 (intBytes (BitVec.ofNat 32 i))).map fun (stop, s) =>
        s.setPc k (afterWrite stop (.mainLoop p1 (i + 1)) (.mainWrite p1 i) (.error mainError))
    else some ((s.close k p1).setPc k .wait)
  | .mainWrite p1 i =>
    (s.resume k p1).map fun (stop, s) =>
      s.setPc k (afterWrite stop (.mainLoop p1 (i + 1)) (.mainWrite p1 i) (.error mainError))
  | .wait => (s.wait k).map fun (_, s) => s.exit k 0
  | .childCloseWrite p0 p1 => some ((s.close k p1).setPc k (.childCloseInput p0))
  | .childCloseInput p0 => some ((s.close k 0).setPc k (.childDup p0))
  | .childDup p0 => some ((s.dup k p0).setPc k (.childCloseRead p0))
  | .childCloseRead p0 => some ((s.close k p0).setPc k .readPrime)
  | .readPrime =>
    (s.read k 0 4).map fun (ret, bytes, s) =>
      if ret = 0 then s.exit k 0
      else s.setPc k (.print (intOfBytes bytes) (primeLine (intOfBytes bytes)))
  | .print prime [] => some (s.setPc k (.sievePipe prime))
  | .print prime (c :: rest) => (s.write k 1 [byte c]).map fun (_, s) => s.setPc k (.print prime rest)
  | .sievePipe prime =>
    match s.pipe k with
    | some (s, q0, q1) => some (s.setPc k (.sieveFork prime q0 q1))
    | none => some (s.exit k 0)
  | .sieveFork prime q0 q1 => some ((s.fork k (.childCloseWrite q0 q1)).setPc k (.sieveClose prime q0 q1))
  | .sieveClose prime q0 q1 => some ((s.close k q0).setPc k (.filter prime q1))
  | .filter prime q1 =>
    (s.read k 0 4).map fun (ret, bytes, s) =>
      if 0 < ret then s.setPc k (.test prime (intOfBytes bytes) q1) else s.setPc k (.sieveDone q1)
  | .test prime num q1 =>
    if num.srem prime ≠ 0 then
      (s.write k q1 (intBytes num)).map fun (stop, s) =>
        s.setPc k (afterWrite stop (.filter prime q1) (.sieveWrite prime q1) (.error sieveError))
    else some (s.setPc k (.filter prime q1))
  | .sieveWrite prime q1 =>
    (s.resume k q1).map fun (stop, s) =>
      s.setPc k (afterWrite stop (.filter prime q1) (.sieveWrite prime q1) (.error sieveError))
  | .sieveDone q1 => some ((s.close k q1).setPc k .wait)
  | .error [] => some (s.exit k 1)
  | .error (c :: rest) => (s.write k 2 [byte c]).map fun (_, s) => s.setPc k (.error rest)

/-- Process `k` at `pc` when its `fork()` or its `pipe(p_right)` returns -1: `main`
and `sieve` go on as the parent, with no child; `sieve` exits when it gets no
pipe. -/
def failing (k : Nat) (s : System Pc) : Pc → Option (System Pc)
  | .mainFork p0 p1 => some (s.setPc k (.mainClose p0 p1))
  | .sieveFork prime q0 q1 => some (s.setPc k (.sieveClose prime q0 q1))
  | .sievePipe _ => some (s.exit k 0)
  | _ => none

/-- The processes of `primes`, and whether a call has failed in the run. -/
structure World where
  sys : System Pc
  failed : Bool

inductive Event where
  /-- Process `k` takes its next step. -/
  | run (k : Nat)
  /-- Process `k`'s `fork()` or `pipe(p_right)` returns -1. -/
  | fail (k : Nat)

def step (limit : Nat) (w : World) : Event → Option World
  | .run k => (w.sys.step (run limit) k).map fun s => { w with sys := s }
  | .fail k =>
    if k < w.sys.count ∧ (w.sys.procs k).life = .running then
      (failing k w.sys (w.sys.procs k).pc).map fun s => ⟨s, true⟩
    else none

/-- `primes` as the shell starts it: one process at `main`, with descriptors 0, 1
and 2 on the console (`Sh.shellEnv`). -/
def boot : World where
  sys :=
    { procs := fun k =>
        if k = 0 then ⟨.start, .running, none, Sh.toFds Sh.shellEnv⟩ else ⟨.start, .freed, none, fun _ => none⟩
      count := 1
      pipes := fun _ => closedPipe
      npipes := 0
      console := [] }
  failed := false

def Reachable (limit : Nat) (w : World) : Prop :=
  Machine.Reachable (step limit) boot w

/-- The bound of `main`'s loop in the source. -/
def sourceLimit : Nat := 280

theorem intOfBytes_intBytes (v : BitVec 32) : intOfBytes (intBytes v) = v := by
  have bound := v.isLt
  apply BitVec.eq_of_toNat_eq
  simp only [intOfBytes, intBytes, List.foldr_cons, List.foldr_nil, Nat.toUInt8, UInt8.toNat_ofNat',
    BitVec.toNat_ofNat]
  omega

theorem length_intBytes (v : BitVec 32) : (intBytes v).length = 4 := rfl

/-- `num % prime` of two non-negative `int`s is the remainder of the numbers. -/
theorem srem_ofNat {x m : Nat} (hx : x < 2 ^ 31) (hm : m < 2 ^ 31) :
    (BitVec.ofNat 32 x).srem (BitVec.ofNat 32 m) = BitVec.ofNat 32 (x % m) := by
  have positiveX : (BitVec.ofNat 32 x).msb = false := by
    rw [BitVec.msb_eq_false_iff_two_mul_lt]
    simp
    omega
  have positiveM : (BitVec.ofNat 32 m).msb = false := by
    rw [BitVec.msb_eq_false_iff_two_mul_lt]
    simp
    omega
  rw [BitVec.srem, positiveX, positiveM]
  apply BitVec.eq_of_toNat_eq
  have small : x % m < 2 ^ 32 := lt_of_le_of_lt (Nat.mod_le x m) (by omega)
  change ((BitVec.ofNat 32 x) % (BitVec.ofNat 32 m)).toNat = _
  rw [BitVec.toNat_umod, BitVec.toNat_ofNat, BitVec.toNat_ofNat, BitVec.toNat_ofNat,
    Nat.mod_eq_of_lt (show x < 2 ^ 32 by omega), Nat.mod_eq_of_lt (show m < 2 ^ 32 by omega),
    Nat.mod_eq_of_lt small]

theorem srem_ne_zero_iff {x m : Nat} (hx : x < 2 ^ 31) (hm : m < 2 ^ 31) :
    (BitVec.ofNat 32 x).srem (BitVec.ofNat 32 m) ≠ 0 ↔ x % m ≠ 0 := by
  have small : x % m < 2 ^ 32 := lt_of_le_of_lt (Nat.mod_le x m) (by omega)
  rw [srem_ofNat hx hm, ne_eq, ne_eq, not_iff_not]
  constructor
  · intro zero
    have same := congrArg BitVec.toNat zero
    rwa [BitVec.toNat_ofNat, Nat.mod_eq_of_lt small] at same
  · intro zero
    rw [zero]
    rfl

end Xv6.Primes
