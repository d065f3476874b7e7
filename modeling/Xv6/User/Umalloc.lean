import Xv6.Vm.Layout

/-!
Contract: the user-space allocator of user/umalloc.c (the allocator of Kernighan and
Ritchie) over the `sbrk` of kernel/sysproc.c and `growproc` of kernel/proc.c.

The heap is read through its headers only: `Heap.mem` gives the header at each
address (all zero where nothing was written, as `sbrk` hands out zeroed pages),
`freep` is the free-list pointer (0 for null) and `sz` the process size that
`sbrk` moves. Every address can be read and written here, where a real access past
the process's last page faults: the results compare the addresses written with
`sz` instead. The static `base` header lives at the address `base`, a parameter.
Addresses are bytes; a `Header` is 16 bytes, so `p + k` on a `Header*` is `p + 16 * k`.
`s.size` is a `uint`, kept below `2 ^ 32` by `% 2 ^ 32` where the code adds to it.

`sbrk` is what the process sees of `sys_sbrk`: `growproc`'s size arithmetic, with
the outcome of `uvmalloc`'s page allocations given as `grows`. Its argument is the
`int` that `morecore`'s `nu * sizeof(Header)` becomes (`sbrkArg`).

The loops of `free` and `malloc` walk the circular list and take fuel; `none` is a
walk that did not end within it.
-/

namespace Xv6.Umalloc

open Xv6.Vm

/-- `union header`: the next free block and the block's size in headers. -/
structure Header where
  ptr : Nat
  size : Nat
deriving DecidableEq, Repr

/-- `sizeof(Header)`. -/
def headerSize : Nat := 16

/-- The allocator's view of a process: headers in memory, `freep` and the size. -/
structure Heap where
  mem : Nat → Header
  freep : Nat
  sz : Nat

/-- `p->s.ptr = q`. -/
def setPtr (mem : Nat → Header) (p q : Nat) : Nat → Header :=
  Function.update mem p { mem p with ptr := q }

/-- `p->s.size = n`. -/
def setSize (mem : Nat → Header) (p n : Nat) : Nat → Header :=
  Function.update mem p { mem p with size := n }

@[simp] theorem setPtr_self (mem : Nat → Header) (p q : Nat) : setPtr mem p q p = { mem p with ptr := q } := by
  simp [setPtr]

@[simp] theorem setSize_self (mem : Nat → Header) (p n : Nat) :
    setSize mem p n p = { mem p with size := n } := by
  simp [setSize]

theorem setPtr_of_ne {mem : Nat → Header} {p a : Nat} (q : Nat) (other : a ≠ p) :
    setPtr mem p q a = mem a := by
  simp [setPtr, other]

theorem setSize_of_ne {mem : Nat → Header} {p a : Nat} (n : Nat) (other : a ≠ p) :
    setSize mem p n a = mem a := by
  simp [setSize, other]

@[simp] theorem setSize_ptr (mem : Nat → Header) (p n a : Nat) : (setSize mem p n a).ptr = (mem a).ptr := by
  by_cases same : a = p
  · rw [same, setSize_self]
  · rw [setSize_of_ne n same]

@[simp] theorem setPtr_size (mem : Nat → Header) (p q a : Nat) : (setPtr mem p q a).size = (mem a).size := by
  by_cases same : a = p
  · rw [same, setPtr_self]
  · rw [setPtr_of_ne q same]

/-! ### `sbrk` -/

/-- The `int` that `morecore` hands to `sbrk`: `nu * sizeof(Header)` is computed in 64
bits and converted to `sbrk`'s `int` parameter, keeping its low 32 bits. -/
def sbrkArg (nu : Nat) : Int32 :=
  Int32.ofNat (nu * headerSize)

/-- `sbrk(n)`: `sys_sbrk` returns the old size after `growproc(n)`, or `-1` as a
`uint64`. `growproc` aims at the `uint64` sum `sz + n`; growing, `uvmalloc` keeps the
size when that sum is below it and otherwise succeeds when `grows`; shrinking,
`uvmdealloc` keeps the size when the sum is not below it. -/
def sbrk (sz : Nat) (n : Int32) (grows : Bool) : Nat × Nat :=
  let target := (((sz : Int) + n.toInt) % 2 ^ 64).toNat
  if 0 < n.toInt then
    if target < sz then (sz, sz)
    else if grows then (sz, target)
    else (2 ^ 64 - 1, sz)
  else if n.toInt < 0 then
    (sz, if sz ≤ target then sz else target)
  else (sz, sz)

/-- `sbrk` gets `morecore`'s byte count itself exactly when it is below `2 ^ 31`. -/
theorem sbrkArg_toInt_iff (nu : Nat) :
    (sbrkArg nu).toInt = nu * headerSize ↔ nu * headerSize < 2 ^ 31 := by
  rw [sbrkArg, Int32.toInt_ofNat', Int.bmod_def]
  simp only [Int32.size]
  split <;> omega

/-- A negative argument that would take the size below 0 wraps the `uint64` sum past the
size, so `uvmdealloc` keeps it and `sbrk` reports success with nothing changed. -/
theorem sbrk_of_wrap {sz : Nat} {n : Int32} (grows : Bool)
    (neg : n.toInt < 0) (under : (sz : Int) + n.toInt < 0) : sbrk sz n grows = (sz, sz) := by
  have least := Int32.le_toInt n
  have target : ((((sz : Int) + n.toInt) % 2 ^ 64).toNat : Int) = sz + n.toInt + 2 ^ 64 := by
    rw [Int.toNat_of_nonneg (Int.emod_nonneg _ (by decide))]
    omega
  have above : sz ≤ (((sz : Int) + n.toInt) % 2 ^ 64).toNat := by omega
  unfold sbrk
  dsimp only
  rw [if_neg (Int.not_lt.2 (Int.le_of_lt neg)), if_pos neg, if_pos above]

/-! ### `free` -/

/-- `free`'s search: from `p`, the block after which `bp` goes, either strictly between
`p` and the next block, or at the wrap point where the list turns back to its lowest
block and `bp` lies beyond either end. -/
def freeScan (mem : Nat → Header) (bp : Nat) : Nat → Nat → Option Nat
  | 0, _ => none
  | fuel + 1, p =>
    if bp > p ∧ bp < (mem p).ptr then some p
    else if p ≥ (mem p).ptr ∧ (bp > p ∨ bp < (mem p).ptr) then some p
    else freeScan mem bp fuel (mem p).ptr

/-- `free`'s joins once the place `p` is found: with the upper neighbour when `bp`
ends where it starts, otherwise a link to it; then with `p` when `p` ends at `bp`,
otherwise a link from `p`. -/
def insertAt (mem : Nat → Header) (bp p : Nat) : Nat → Header :=
  let mem :=
    if bp + headerSize * (mem bp).size = (mem p).ptr then
      let mem := setSize mem bp (((mem bp).size + (mem (mem p).ptr).size) % 2 ^ 32)
      setPtr mem bp (mem (mem p).ptr).ptr
    else setPtr mem bp (mem p).ptr
  if p + headerSize * (mem p).size = bp then
    let mem := setSize mem p (((mem p).size + (mem bp).size) % 2 ^ 32)
    setPtr mem p (mem bp).ptr
  else setPtr mem p bp

/-- `free(ap)`: the block's header is the one before `ap`; `freep` becomes the block
it was put after. -/
def free (h : Heap) (ap fuel : Nat) : Option Heap :=
  let bp := ap - headerSize
  match freeScan h.mem bp fuel h.freep with
  | none => none
  | some p => some { h with mem := insertAt h.mem bp p, freep := p }

/-! ### `morecore` and `malloc` -/

/-- `morecore(nu)`: at least 4096 headers from `sbrk`, given to `free` as one block;
`freep`, or 0 when `sbrk` fails. -/
def morecore (h : Heap) (nu : Nat) (grows : Bool) (fuel : Nat) : Option (Nat × Heap) :=
  let nu := if nu < 4096 then 4096 else nu
  let (p, sz) := sbrk h.sz (sbrkArg nu) grows
  if p = 2 ^ 64 - 1 then some (0, { h with sz := sz })
  else
    let hp := p
    match free { h with mem := setSize h.mem hp nu, sz := sz } (hp + headerSize) fuel with
    | none => none
    | some h => some (h.freep, h)

/-- `malloc`'s loop from `prevp` and `p = prevp->s.ptr`: the first block of at least
`nunits` headers is taken whole or cut from its tail, and `freep` becomes `prevp`;
coming back to `freep`, `morecore` adds a block and the walk goes on from it. -/
def mallocLoop (nunits : Nat) (grows : Bool) : Nat → Heap → Nat → Nat → Option (Nat × Heap)
  | 0, _, _, _ => none
  | fuel + 1, h, prevp, p =>
    if (h.mem p).size ≥ nunits then
      if (h.mem p).size = nunits then
        some (p + headerSize, { h with mem := setPtr h.mem prevp (h.mem p).ptr, freep := prevp })
      else
        let mem := setSize h.mem p ((h.mem p).size - nunits)
        let q := p + headerSize * (mem p).size
        some (q + headerSize, { h with mem := setSize mem q nunits, freep := prevp })
    else if p = h.freep then
      match morecore h nunits grows fuel with
      | none => none
      | some (0, h) => some (0, h)
      | some (p, h) => mallocLoop nunits grows fuel h p (h.mem p).ptr
    else mallocLoop nunits grows fuel h p (h.mem p).ptr

/-- `nunits`: the request in headers, rounded up, plus one for the header. The sum is
taken in 64 bits (`sizeof` is a `size_t`) and stored in a `uint`. -/
def nunitsOf (nbytes : Nat) : Nat :=
  ((nbytes + headerSize - 1) / headerSize + 1) % 2 ^ 32

/-- `malloc(nbytes)`: on the first call the list is `base` alone, of size 0. -/
def malloc (base : Nat) (h : Heap) (nbytes : Nat) (grows : Bool) (fuel : Nat) :
    Option (Nat × Heap) :=
  let nunits := nunitsOf nbytes
  let h := if h.freep = 0 then { h with mem := setSize (setPtr h.mem base base) base 0, freep := base }
    else h
  mallocLoop nunits grows fuel h h.freep (h.mem h.freep).ptr

/-- `malloc(0xFFFFFFFF)` in a process of three pages whose allocator has not run:
`sbrk` is asked for 16 bytes, and `malloc` returns a block of 2^32 - 1 bytes at
12304, past the end of the process's last page. For `malloc(0x80000000)` `sbrk` is
asked for a negative count, reports success and leaves the size at 12288; `morecore`
stores its header of 2^27 + 1 units at 12288, the process's size, past every byte
`sbrk` granted, and `malloc` returns 12304. -/
theorem malloc_beyond_sbrk :
    (sbrkArg (nunitsOf 4294967295)).toInt = 16 ∧
      (malloc 8192 ⟨fun _ => ⟨0, 0⟩, 0, 12288⟩ 4294967295 true 4).map
          (fun r => (r.1, r.2.sz, (r.2.mem 12288).size)) = some (12304, 12304, 268435457) ∧
      pgRoundUp 12304 < 12304 + 4294967295 ∧
      (sbrkArg (nunitsOf 2147483648)).toInt = -2147483632 ∧
      sbrk 12288 (sbrkArg (nunitsOf 2147483648)) true = (12288, 12288) ∧
      (malloc 8192 ⟨fun _ => ⟨0, 0⟩, 0, 12288⟩ 2147483648 true 4).map
          (fun r => (r.1, r.2.sz, (r.2.mem 12288).size)) = some (12304, 12288, 134217729) := by
  decide

end Xv6.Umalloc
