import Xv6.Vm.PageTable
import Xv6.Proc.Table

/-!
Contract: the memory the kernel hands out to processes and pipes, and the system
its calls make: `allocproc`, `freeproc`, `proc_pagetable`, `proc_freepagetable`,
`userinit` (`kernel/proc.c`); `growproc` as `sys_sbrk` calls it, `fork`, and the
`freeproc` of a zombie child in `wait`; `exec` with `loadseg` (`kernel/exec.c`)
and the argument pages of `sys_exec`; `pipealloc` as `sys_pipe` calls it, and
`pipeclose` (`kernel/pipe.c`); and the boot sequence `kinit`, the kernel's own
allocations, `userinit`.

A call runs from its start to its return as one step. Its pages in the middle of
the call (a new table in `exec`, the argument pages of `sys_exec`) are its own:
other calls meet it only at `kalloc` and `kfree`. Which process runs, and which
parent reaps a zombie, is not modelled: any process that is neither UNUSED nor a
ZOMBIE may make a call, and any zombie may be freed. Each file end of a pipe is
closed once (the file table sees to that), so a close names an open end. What
the user program passes is an argument of the event: `sbrk`'s `n`, the addresses
`sys_exec` finds in `a0` and `a1` (it fetches the path and the argument strings
from user memory), and the program file as `exec` reads it (`ExecFile`); whether
`sys_pipe` gets its two files, and its two descriptors and `copyout`s. A trapframe
page is kept as the registers it holds, and an argument page as its string.

At boot the kernel takes `kpages` pages for itself (its page table, the kernel
stacks, the disk's rings), here in one step. A layout leaves at least nine
pages after that, all that `userinit` can need: `uvmfirst` does not check that
`mappages` succeeds.

Owns: `Regs`, `Proc`, `procPagetable`, `procFreepagetable`, `freeproc`, `allocproc`,
`initcode`, `safeName`, `userinit`, `growproc`, `fork`, `ProgHdr`, `ExecFile`,
`flags2perm`, `readiBytes`, `loadsegLoop`, `loadseg`, `userStack`, `maxArg`,
`wordBytes`, `wordOf`, `cstr`, `lastElem`, `loadSegments`, `pushArgs`, `execBad`,
`exec`, `fetchaddr`, `fetchArgs`, `sysExec`, `PipePage`, `pipeclose`, `sysPipe`,
`freerange`, `kinit`, `kernelPages`, `Layout`, `World`, `Event`, `step`, `next`,
`bootAlloc`, `boot`, `Reachable`.
-/

namespace Xv6.Vm

open Process (ProcState)

/-- The registers of a trapframe page that the memory code sets: `epc`, `sp`,
`a0`, `a1`. Like a page-table page, the page is kept as what it holds, not as
its bytes. -/
structure Regs where
  epc : Nat
  sp : Nat
  a0 : Nat
  a1 : Nat

/-- The registers of a page `kalloc` has just filled with junk. -/
def Regs.junk : Regs :=
  ⟨0x0505050505050505, 0x0505050505050505, 0x0505050505050505, 0x0505050505050505⟩

/-- The fields of `struct proc` the memory code reads and writes, with the
registers of its trapframe page while it has one. -/
structure Proc where
  state : ProcState
  sz : Nat
  pagetable : Option PageTable
  trapframe : Option Nat
  regs : Regs
  name : List UInt8

/-- A slot as `freeproc` leaves it. -/
def Proc.unused : Proc :=
  ⟨.unused, 0, none, none, ⟨0, 0, 0, 0⟩, []⟩

section Calls

variable (kend trampoline : Nat)

/-- `proc_pagetable`: a new table with the trampoline and the trapframe page `tf`
mapped, or none, with what it took given back. -/
def procPagetable (tf : Nat) : KM (Option PageTable) := do
  let some pt ← uvmcreate | return none
  let (r, pt) ← mappages pt trampolineVa pgSize trampoline { r := true, x := true }
  if r < 0 then
    uvmfree kend pt 0
    return none
  let (r, pt) ← mappages pt trapframeVa pgSize tf { r := true, w := true }
  if r < 0 then
    let pt ← uvmunmap kend pt trampolineVa 1 false
    uvmfree kend pt 0
    return none
  return some pt

/-- `proc_freepagetable`: the two pages the table shares with others unmapped,
then the user pages below `sz` and the table freed. -/
def procFreepagetable (pt : PageTable) (sz : Nat) : KM Unit := do
  let pt ← uvmunmap kend pt trampolineVa 1 false
  let pt ← uvmunmap kend pt trapframeVa 1 false
  uvmfree kend pt sz

/-- `freeproc`: the trapframe page and the table freed, the slot UNUSED. -/
def freeproc (p : Proc) : KM Proc := do
  if let some tf := p.trapframe then kfree kend tf
  if let some pt := p.pagetable then procFreepagetable kend pt p.sz
  return { p with state := .unused, sz := 0, pagetable := none, trapframe := none, regs := ⟨0, 0, 0, 0⟩, name := [] }

/-- `allocproc`'s allocations: the first UNUSED slot, with a trapframe page and a
table. On a failure `freeproc` gives back what was taken, and the slot stays
UNUSED. -/
def allocproc (procs : Fin nProc → Proc) : KM (Option (Fin nProc × Nat × PageTable)) := do
  let some i := (List.finRange nProc).find? fun i => decide ((procs i).state = .unused) | return none
  let some tf ← kalloc | (do
    let _ ← freeproc kend { procs i with state := .used }
    return none)
  let some pt ← procPagetable kend trampoline tf | (do
    let _ ← freeproc kend { procs i with state := .used, trapframe := some tf }
    return none)
  return some (i, tf, pt)

/-- `initcode`: the program that runs `exec("/init")`. -/
def initcode : List UInt8 :=
  [0x17, 0x05, 0x00, 0x00, 0x13, 0x05, 0x45, 0x02,
   0x97, 0x05, 0x00, 0x00, 0x93, 0x85, 0x35, 0x02,
   0x93, 0x08, 0x70, 0x00, 0x73, 0x00, 0x00, 0x00,
   0x93, 0x08, 0x20, 0x00, 0x73, 0x00, 0x00, 0x00,
   0xef, 0xf0, 0x9f, 0xff, 0x2f, 0x69, 0x6e, 0x69,
   0x74, 0x00, 0x00, 0x24, 0x00, 0x00, 0x00, 0x00,
   0x00, 0x00, 0x00, 0x00]

/-- `safestrcpy(p->name, s, sizeof(p->name))`: the C string `s` holds, cut to
fifteen bytes. -/
def safeName (s : List UInt8) : List UInt8 :=
  (s.takeWhile (· ≠ 0)).take 15

/-- `userinit`: the first process, with `initcode` in its page at address 0. With
no slot or page for it, the code goes on with a null process and faults. -/
def userinit (procs : Fin nProc → Proc) : KM (Fin nProc × Proc) := do
  let some (i, tf, pt) ← allocproc kend trampoline procs | throw "kerneltrap"
  let pt ← uvmfirst pt initcode
  -- `initcode`
  let name := safeName [105, 110, 105, 116, 99, 111, 100, 101]
  return (i, ⟨.runnable, pgSize, some pt, some tf, { Regs.junk with epc := 0, sp := pgSize }, name⟩)

/-- `growproc(n)` for a process with table `pt` and size `sz`: 0 with the new size,
or -1. `sz + n` is the `uint64` sum, with `n` sign-extended. -/
def growproc (pt : PageTable) (sz : Nat) (n : Int32) : KM (Int × Nat × PageTable) := do
  let target := (((sz : Int) + n.toInt) % 2 ^ 64).toNat
  if 0 < n.toInt then
    let (sz', pt) ← uvmalloc kend pt sz target { w := true }
    if sz' = 0 then return (-1, sz, pt)
    return (0, sz', pt)
  else if n.toInt < 0 then
    let (sz', pt) ← uvmdealloc kend pt sz target
    return (0, sz', pt)
  return (0, sz, pt)

/-- `fork`'s memory: a new slot with a copy of the table `ppt` of the parent `pp`,
its registers (with `a0` 0) and name, or none with the slot given back. -/
def fork (procs : Fin nProc → Proc) (pp : Proc) (ppt : PageTable) : KM (Option (Fin nProc × Proc)) := do
  let some (i, tf, pt) ← allocproc kend trampoline procs | return none
  let (r, pt) ← uvmcopy kend ppt pt pp.sz
  if r < 0 then
    let _ ← freeproc kend { procs i with state := .used, pagetable := some pt, trapframe := some tf }
    return none
  return some (i, ⟨.runnable, pp.sz, some pt, some tf, { pp.regs with a0 := 0 }, safeName pp.name⟩)

end Calls

/-! ### `exec` -/

/-- A program header as `exec` reads it: whether it is `ELF_PROG_LOAD`, its flags,
file offset, address and sizes. -/
structure ProgHdr where
  load : Bool
  flags : UInt32
  off : UInt64
  vaddr : UInt64
  filesz : UInt64
  memsz : UInt64

/-- The program file as `exec` reads it: whether `namei` finds it, whether its
ELF header reads whole with the right magic, its entry point, each program header
(`none` where `readi` of it fails), and the bytes `loadseg` reads from. -/
structure ExecFile where
  found : Bool
  elfOk : Bool
  entry : UInt64
  phs : List (Option ProgHdr)
  data : List UInt8

/-- `flags2perm`. -/
def flags2perm (flags : UInt32) : Perm :=
  { x := flags &&& 0x1 != 0, w := flags &&& 0x2 != 0 }

/-- `readi` of `n` bytes at the `uint` offset `off` of a file holding `data`: the
bytes it copies, fewer than `n` past the end and none when `off + n` wraps. -/
def readiBytes (data : List UInt8) (off n : Nat) : List UInt8 :=
  if data.length < off ∨ 2 ^ 32 ≤ off + n then [] else (data.drop off).take n

/-- `loadseg`'s loop from byte `i` (a `uint`) of the `sz` bytes at `va`: each page
must be mapped for the user and gets the file's bytes from `offset + i`. Were `i`
to wrap the loop would start over for ever; here the fuel runs out. -/
def loadsegLoop (pt : PageTable) (va : Nat) (data : List UInt8) (offset sz : Nat) : Nat → Nat → KM Int
  | _, 0 => throw "loadseg: no return"
  | i, fuel + 1 => do
    if sz ≤ i then return 0
    let pa ← walkaddr pt (va + i)
    if pa = 0 then throw "loadseg: address should exist"
    let n := if sz - i < pgSize then sz - i else pgSize
    let bytes := readiBytes data ((offset + i) % 2 ^ 32) n
    memmoveFrom pa bytes
    if bytes.length ≠ n then return -1
    loadsegLoop pt va data offset sz ((i + pgSize) % 2 ^ 32) fuel

/-- `loadseg` of the segment at `va`, from `offset` in the file (`offset` and `sz`
are passed as `uint`s). -/
def loadseg (pt : PageTable) (va : Nat) (data : List UInt8) (offset sz : Nat) : KM Int :=
  loadsegLoop pt va data (offset % 2 ^ 32) (sz % 2 ^ 32) 0 (sz % 2 ^ 32 / pgSize + 2)

/-- `USERSTACK` under `LAB=util`. -/
def userStack : Nat := 2

/-- `MAXARG`. -/
def maxArg : Nat := 32

/-- A `uint64` as the eight bytes memory holds it in, least significant first. -/
def wordBytes (v : Nat) : List UInt8 :=
  (List.range 8).map fun i => UInt8.ofNat (v / 256 ^ i)

/-- The number bytes hold, least significant first. -/
def wordOf (bytes : List UInt8) : Nat :=
  bytes.foldr (fun b acc => b.toNat + 256 * acc) 0

/-- The C string a buffer holds: its bytes before the first NUL. -/
def cstr (buf : List UInt8) : List UInt8 :=
  buf.takeWhile (· ≠ 0)

/-- The last element of the C string `path`: what follows its last `/`. -/
def lastElem (path : List UInt8) : List UInt8 :=
  ((cstr path).reverse.takeWhile (· ≠ 47)).reverse

section Exec

variable (kend trampoline : Nat)

/-- `exec`'s loop over the program headers: whether it got through them, and the
size and table it built; `false` is a `goto bad`. -/
def loadSegments (data : List UInt8) (pt : PageTable) (sz : Nat) : List (Option ProgHdr) → KM (Bool × Nat × PageTable)
  | [] => pure (true, sz, pt)
  | none :: _ => pure (false, sz, pt)
  | some ph :: rest => do
    if !ph.load then return ← loadSegments data pt sz rest
    if ph.memsz < ph.filesz then return (false, sz, pt)
    if ph.vaddr + ph.memsz < ph.vaddr then return (false, sz, pt)
    if ph.vaddr.toNat % pgSize ≠ 0 then return (false, sz, pt)
    let (sz1, pt) ← uvmalloc kend pt sz (ph.vaddr + ph.memsz).toNat (flags2perm ph.flags)
    if sz1 = 0 then return (false, sz, pt)
    let r ← loadseg pt ph.vaddr.toNat data ph.off.toNat ph.filesz.toNat
    if r < 0 then return (false, sz1, pt)
    loadSegments data pt sz1 rest

/-- `exec`'s loop pushing the argument strings below `sp`: the pointers to them
(`ustack`) and the `sp` it ends at, or none for `goto bad`. The subtractions do
not wrap as in the code; where they would, the code's `sp` passes the bound and
its `copyout` fails, and here the bound fails: `goto bad` either way. -/
def pushArgs (pt : PageTable) (stackbase : Nat) : Nat → Nat → List (List UInt8) → KM (Option (List Nat × Nat))
  | _, sp, [] => pure (some ([], sp))
  | argc, sp, arg :: rest => do
    if maxArg ≤ argc then return none
    let sp := sp - ((cstr arg).length + 1)
    let sp := sp - sp % 16
    if sp < stackbase then return none
    let r ← copyout pt sp (cstr arg ++ [0])
    if r < 0 then return none
    let some (ustack, sp') ← pushArgs pt stackbase (argc + 1) sp rest | return none
    return some (sp :: ustack, sp')

/-- `exec`'s `bad:` path once the new table exists: it is freed with the size
built so far, and the process is as it was. -/
def execBad (p : Proc) (pt : PageTable) (sz : Nat) : KM (Int × Proc) := do
  procFreepagetable kend pt sz
  return (-1, p)

/-- `exec` of `file` named by `path` with the argument strings `argv`, for the
process `p` with table `pt0` and trapframe page `tf`: the new image replaces the
old, whose table is freed; or -1 with `p` as it was. -/
def exec (p : Proc) (pt0 : PageTable) (tf : Nat) (path : List UInt8) (file : ExecFile)
    (argv : List (List UInt8)) : KM (Int × Proc) := do
  if !file.found then return (-1, p)
  if !file.elfOk then return (-1, p)
  let some pt ← procPagetable kend trampoline tf | return (-1, p)
  let (ok, sz, pt) ← loadSegments kend file.data pt 0 file.phs
  if !ok then return ← execBad kend p pt sz
  let oldsz := p.sz
  -- the stack: a guard page, then `USERSTACK` pages
  let sz := pgRoundUp sz
  let (sz1, pt) ← uvmalloc kend pt sz (sz + (userStack + 1) * pgSize) { w := true }
  if sz1 = 0 then return ← execBad kend p pt sz
  let sz := sz1
  let pt ← uvmclear pt (sz - (userStack + 1) * pgSize)
  let sp := sz
  let stackbase := sp - userStack * pgSize
  let some (ustack, sp) ← pushArgs pt stackbase 0 sp argv | execBad kend p pt sz
  -- the array of `argv[]` pointers, ending in 0
  let sp := sp - (ustack.length + 1) * 8
  let sp := sp - sp % 16
  if sp < stackbase then return ← execBad kend p pt sz
  let r ← copyout pt sp ((ustack ++ [0]).flatMap wordBytes)
  if r < 0 then return ← execBad kend p pt sz
  -- commit to the new image
  procFreepagetable kend pt0 oldsz
  let regs := { p.regs with a1 := sp, epc := file.entry.toNat, sp := sp }
  return (ustack.length, { p with pagetable := some pt, sz := sz, regs, name := safeName (lastElem path) })

/-- `fetchaddr`: the `uint64` at `addr` of a process of size `sz`, or none. -/
def fetchaddr (pt : PageTable) (sz addr : Nat) : KM (Option Nat) := do
  if sz ≤ addr ∨ sz < addr + 8 then return none
  let (r, bytes) ← copyin pt addr 8
  if r ≠ 0 then return none
  return some (wordOf bytes)

/-- `sys_exec`'s loop from index `i`, for the user array of argument pointers at
`uargv`: each string fetched into a page of its own. The strings, or none for
`goto bad`, and the pages taken. The loop stops by `MAXARG`, so `MAXARG + 1` turns
are fuel enough. -/
def fetchArgs (pt : PageTable) (sz uargv : Nat) : Nat → Nat → KM (Option (List (List UInt8)) × List Nat)
  | _, 0 => pure (none, [])
  | i, fuel + 1 => do
    if maxArg ≤ i then return (none, [])
    let some uarg ← fetchaddr pt sz (uargv + 8 * i) | return (none, [])
    if uarg = 0 then return (some [], [])
    let some page ← kalloc | return (none, [])
    let (r, s) ← copyinstr pt uarg pgSize
    if r < 0 then return (none, [page])
    let (argv, pages) ← fetchArgs pt sz uargv (i + 1) fuel
    return (argv.map (s :: ·), page :: pages)

/-- `sys_exec` with the path at `upath` and the argument pointers at `uargv`: the
path, the argument pages, `exec`, and the pages freed on every path. -/
def sysExec (p : Proc) (pt : PageTable) (tf : Nat) (upath uargv : Nat) (file : ExecFile) :
    KM (Int × Proc) := do
  let (r, path) ← copyinstr pt upath maxPath
  if r < 0 then return (-1, p)
  let (argv, pages) ← fetchArgs pt p.sz uargv 0 (maxArg + 1)
  let (ret, p) ← match argv with
    | none => pure (-1, p)
    | some argv => exec kend trampoline p pt tf path file argv
  pages.forM (kfree kend)
  return (ret, p)

end Exec

/-! ### Pipes -/

/-- A pipe's page, with its two ends. -/
structure PipePage where
  page : Nat
  readopen : Bool
  writeopen : Bool

section Pipes

variable (kend : Nat)

/-- `pipeclose` of one end: once both are closed the page is freed. -/
def pipeclose (pi : PipePage) (writable : Bool) : KM (Option PipePage) := do
  let pi := if writable then { pi with writeopen := false } else { pi with readopen := false }
  if !pi.readopen && !pi.writeopen then
    kfree kend pi.page
    return none
  return some pi

/-- `sys_pipe`'s memory: `pipealloc`'s page, given back by closing both ends when
the descriptors or the `copyout` fail. -/
def sysPipe (filesOk fdsOk : Bool) : KM (Option PipePage) := do
  if !filesOk then return none
  let some page ← kalloc | return none
  if !fdsOk then
    let some pi ← pipeclose kend ⟨page, true, true⟩ false | return none
    let _ ← pipeclose kend pi true
    return none
  return some ⟨page, true, true⟩

/-! ### Boot -/

/-- `freerange`'s loop: `n` pages from `p` onto the free list. -/
def freerange : Nat → Nat → KM Unit
  | _, 0 => pure ()
  | p, n + 1 => do
    kfree kend p
    freerange (p + pgSize) n

/-- `kinit`: every whole page from `PGROUNDUP(end)` to `PHYSTOP`. -/
def kinit : KM Unit :=
  freerange kend (pgRoundUp kend) ((phyStop - pgRoundUp kend) / pgSize)

end Pipes

/-- The kernel's own pages at boot, `n` of them; running out is a panic. -/
def kernelPages : Nat → KM (List Nat)
  | 0 => pure []
  | n + 1 => do
    let some pa ← kalloc | throw "kalloc"
    let rest ← kernelPages n
    return pa :: rest

/-! ### The system -/

/-- Where the kernel is linked (`end`, `trampoline`) and how many pages it takes
for itself at boot; at least nine pages are left for `userinit`. -/
structure Layout where
  kend : Nat
  trampoline : Nat
  kpages : Nat
  roomy : kpages + 9 ≤ (phyStop - pgRoundUp kend) / pgSize

/-- The kernel's memory: the allocator, its own pages, `proc[]` with `initproc`,
and the pipes. -/
structure World where
  layout : Layout
  kmem : Kmem
  kernel : List Nat
  procs : Fin nProc → Proc
  initproc : Fin nProc
  pipes : List PipePage

/-- The calls that allocate or free memory. -/
inductive Event where
  | sbrk (p : Fin nProc) (n : Int32)
  | fork (p : Fin nProc)
  | exec (p : Fin nProc) (upath uargv : Nat) (file : ExecFile)
  | exit (p : Fin nProc)
  | reap (c : Fin nProc)
  | pipe (filesOk fdsOk : Bool)
  | pipeClose (i : Nat) (writable : Bool)

namespace World

/-- Change slot `i`. -/
def setProc (w : World) (i : Fin nProc) (p : Proc) : World :=
  { w with procs := Function.update w.procs i p }

/-- A process that may make a call, with its table and trapframe page. -/
def running (w : World) (p : Fin nProc) : Option (PageTable × Nat) :=
  if (w.procs p).state = .unused ∨ (w.procs p).state = .zombie then none
  else
    match (w.procs p).pagetable, (w.procs p).trapframe with
    | some pt, some tf => some (pt, tf)
    | _, _ => none

/-- Run memory code on the allocator and put its result into the world. -/
def apply {α : Type} (w : World) (m : KM α) (put : α → World → World) : Except String World :=
  (m.run w.kmem).map fun (a, k) => put a { w with kmem := k }

end World

/-- One event: none if it cannot happen, a panic, or the next world. -/
def step (w : World) : Event → Option (Except String World)
  | .sbrk p n => (w.running p).map fun (pt, _) =>
    w.apply (growproc w.layout.kend pt (w.procs p).sz n) fun (_, sz, pt) w =>
      w.setProc p { w.procs p with sz, pagetable := some pt }
  | .fork p => (w.running p).map fun (pt, _) =>
    w.apply (fork w.layout.kend w.layout.trampoline w.procs (w.procs p) pt) fun child w =>
      match child with
      | none => w
      | some (i, q) => w.setProc i q
  | .exec p upath uargv file => (w.running p).map fun (pt, tf) =>
    w.apply (sysExec w.layout.kend w.layout.trampoline (w.procs p) pt tf upath uargv file)
      fun (_, q) w => w.setProc p q
  | .exit p => (w.running p).map fun _ =>
    if p = w.initproc then .error "init exiting"
    else .ok (w.setProc p { w.procs p with state := .zombie })
  | .reap c =>
    if (w.procs c).state = .zombie then
      some (w.apply (freeproc w.layout.kend (w.procs c)) fun q w => w.setProc c q)
    else none
  | .pipe filesOk fdsOk =>
    some (w.apply (sysPipe w.layout.kend filesOk fdsOk) fun pi w =>
      match pi with
      | none => w
      | some pi => { w with pipes := w.pipes ++ [pi] })
  | .pipeClose i writable =>
    match w.pipes[i]? with
    | some pi =>
      if (if writable then pi.writeopen else pi.readopen) then
        some (w.apply (pipeclose w.layout.kend pi writable) fun pi' w =>
          match pi' with
          | none => { w with pipes := w.pipes.eraseIdx i }
          | some pi' => { w with pipes := w.pipes.set i pi' })
      else none
    | none => none

/-- The worlds an event leads to without a panic. -/
def next (w : World) (e : Event) : Option World :=
  match step w e with
  | some (.ok w') => some w'
  | _ => none

/-- Boot's allocations: `kinit`, the kernel's own pages, `userinit`. -/
def bootAlloc (layout : Layout) : KM (List Nat × Fin nProc × Proc) := do
  kinit layout.kend
  let kernel ← kernelPages layout.kpages
  let (i, p) ← userinit layout.kend layout.trampoline fun _ => Proc.unused
  return (kernel, i, p)

/-- Boot: the world `bootAlloc` leaves from an empty free list, with the first
process as `initproc`. -/
def boot (layout : Layout) : Except String World :=
  ((bootAlloc layout).run ⟨[], fun _ => 0⟩).map fun ((kernel, i, p), k) =>
    ⟨layout, k, kernel, Function.update (fun _ => Proc.unused) i p, i, []⟩

/-- The worlds some layout boots into and some events then lead to. -/
def Reachable (w : World) : Prop :=
  ∃ layout w0, boot layout = .ok w0 ∧ Machine.Reachable next w0 w

end Xv6.Vm
