import Xv6.Fs.Layout

/-!
Contract: the state the file-system code of `kernel/fs.c` works on, and that
code's block and inode layer: `balloc`, `bfree`, `bzero`, `ialloc`, `iupdate`,
`iget`, `idup`, `ilock`, `iunlock`, `iput`, `itrunc`, `bmap`, `readi` and
`writei`, each a computation in `FsM` that either returns or stops at one of the
kernel's panics, named by its message.

The disk is the one the code sees through the buffer cache: a write lands at
once and is recorded in the running transaction (`logWrite`), whose crash
behaviour `Xv6.Log.Commit` owns. System calls run one after another, so a
transaction (`trans`) is open exactly while a system call is between
`begin_op` and `end_op`, its header holds only that call's blocks, and the
sleep-locks never wait. The inode table keeps each entry's own copy of its disk
inode, which `ilock` loads and `iupdate` writes back.

Owns: `Disk`, `Inode`, `File`, `Proc`, `FileSys`, `FsM` and the functions above.

Does not own: directories and path names (`Xv6.Fs.Dir`), the file table and
the system calls (`Xv6.Fs.Syscall`).
-/

namespace Xv6.Fs

/-- The disk: one `struct dinode` per i-number, one bitmap bit per block, and the
bytes of every block. -/
structure Disk where
  inodes : Nat → Dinode
  bitmap : Nat → Bool
  blocks : Nat → Block

/-- `struct inode`, an entry of the inode table (`dev` is always `ROOTDEV`). -/
structure Inode where
  inum : Nat
  ref : Nat
  valid : Bool
  din : Dinode

/-- `f->type` of an open file; pipes are not modelled. -/
inductive FdType where
  | none
  | inode
  | device
  deriving DecidableEq, Repr

/-- `struct file`. -/
structure File where
  type : FdType
  ref : Nat
  readable : Bool
  writable : Bool
  ip : Fin nInode
  off : Nat
  major : Int16

/-- What the file system reads of `struct proc`: whether the slot is in use,
the current directory and the open files. -/
structure Proc where
  used : Bool
  cwd : Fin nInode
  ofile : Fin nOFile → Option (Fin nFile)

/-- The file system: the disk, the inode table, the file table, the processes,
and the blocks the running transaction has logged (`none` outside one). -/
structure FileSys where
  disk : Disk
  itable : Fin nInode → Inode
  ftable : Fin nFile → File
  procs : Fin nProc → Proc
  trans : Option (List Nat)

/-- Kernel code over the file system: it returns, or panics with a message. -/
abbrev FsM := StateT FileSys (Except String)

/-! ### Small updates -/

/-- Change the disk. -/
def modifyDisk (f : Disk → Disk) : FsM Unit :=
  modify fun fs => { fs with disk := f fs.disk }

/-- Change the inode-table entry `ip`. -/
def setInode (ip : Fin nInode) (f : Inode → Inode) : FsM Unit :=
  modify fun fs => { fs with itable := Function.update fs.itable ip (f (fs.itable ip)) }

/-- Change the in-memory copy of the disk inode of entry `ip` (`ip->xxx = ...`). -/
def setDin (ip : Fin nInode) (f : Dinode → Dinode) : FsM Unit :=
  setInode ip fun e => { e with din := f e.din }

/-- `ip->addrs[slot] = addr`. -/
def setAddr (ip : Fin nInode) (slot : Fin (nDirect + 1)) (addr : Nat) : FsM Unit :=
  setDin ip fun d => { d with addrs := Function.update d.addrs slot addr }

/-! ### The log, as one system call sees it -/

/-- `begin_op`: with no other call running, it never waits. -/
def beginOp : FsM Unit :=
  modify fun fs => { fs with trans := some [] }

/-- `end_op`: the last call out commits; its writes are already on the disk. -/
def endOp : FsM Unit :=
  modify fun fs => { fs with trans := none }

/-- `log_write` of block `b`: its two checks, then absorption. Outside a
transaction the header is empty, so the size check passes there. -/
def logWrite (b : Nat) : FsM Unit := do
  let fs ← get
  let lh := fs.trans.getD []
  if logSize ≤ lh.length ∨ nlog - 1 ≤ lh.length then throw "too big a transaction"
  match fs.trans with
  | none => throw "log_write outside of trans"
  | some lh => if b ∈ lh then pure () else set { fs with trans := some (lh ++ [b]) }

/-! ### Blocks -/

/-- `bzero`: zero block `b`. -/
def bzero (b : Nat) : FsM Unit := do
  modifyDisk fun d => { d with blocks := Function.update d.blocks b Block.zero }
  logWrite b

/-- The block `balloc`'s loops stop at: the first of `[0, sb.size)` whose bit is
clear. -/
def freeBlock (bitmap : Nat → Bool) : Option Nat :=
  (List.range fsSize).find? fun b => !bitmap b

/-- `balloc`: a zeroed block, or 0 when the disk is full. -/
def balloc : FsM Nat := do
  match freeBlock (← get).disk.bitmap with
  | none => pure 0
  | some b =>
    modifyDisk fun d => { d with bitmap := Function.update d.bitmap b true }
    logWrite (bBlock b)
    bzero b
    pure b

/-- `bfree`. -/
def bfree (b : Nat) : FsM Unit := do
  if !(← get).disk.bitmap b then throw "freeing free block"
  modifyDisk fun d => { d with bitmap := Function.update d.bitmap b false }
  logWrite (bBlock b)

/-! ### Inodes -/

/-- `iget`: the entry already holding `inum`, else the first free entry. -/
def iget (inum : Nat) : FsM (Fin nInode) := do
  let fs ← get
  match (List.finRange nInode).find? fun ip =>
      0 < (fs.itable ip).ref ∧ (fs.itable ip).inum = inum with
  | some ip =>
    setInode ip fun e => { e with ref := e.ref + 1 }
    pure ip
  | none =>
    match (List.finRange nInode).find? fun ip => (fs.itable ip).ref = 0 with
    | none => throw "iget: no inodes"
    | some ip =>
      setInode ip fun e => { e with inum, ref := 1, valid := false }
      pure ip

/-- `ialloc`: the first free inode from 1 on, cleared and given `type`. -/
def ialloc (type : IType) : FsM (Option (Fin nInode)) := do
  let fs ← get
  match (List.range' 1 (nInodes - 1)).find? fun inum => (fs.disk.inodes inum).type = .free with
  | none => pure none
  | some inum =>
    modifyDisk fun d => { d with inodes := Function.update d.inodes inum { Dinode.zero with type } }
    logWrite (iBlock inum)
    some <$> iget inum

/-- `iupdate`: write the entry's copy back to its disk inode. -/
def iupdate (ip : Fin nInode) : FsM Unit := do
  let e := (← get).itable ip
  modifyDisk fun d => { d with inodes := Function.update d.inodes e.inum e.din }
  logWrite (iBlock e.inum)

/-- `idup`. -/
def idup (ip : Fin nInode) : FsM (Fin nInode) := do
  setInode ip fun e => { e with ref := e.ref + 1 }
  pure ip

/-- `ilock`: load the disk inode into an entry that does not hold it yet. -/
def ilock (ip : Fin nInode) : FsM Unit := do
  let e := (← get).itable ip
  if e.ref < 1 then throw "ilock"
  if !e.valid then
    let din := (← get).disk.inodes e.inum
    setInode ip fun e => { e with din, valid := true }
    if din.type = .free then throw "ilock: no type"

/-- `iunlock`: its one check; the lock itself is not modelled. -/
def iunlock (ip : Fin nInode) : FsM Unit := do
  if ((← get).itable ip).ref < 1 then throw "iunlock"

/-- The direct half of `itrunc`: free `addrs[bn]` for each direct `bn`. -/
def itruncDirect (ip : Fin nInode) : List (Fin nDirect) → FsM Unit
  | [] => pure ()
  | bn :: rest => do
    let addr := ((← get).itable ip).din.addrs (directSlot bn)
    if addr ≠ 0 then
      bfree addr
      setAddr ip (directSlot bn) 0
    itruncDirect ip rest

/-- The loop over the indirect block `a` in `itrunc`: free its nonzero entries. -/
def itruncIndirect (a : Block) : List Nat → FsM Unit
  | [] => pure ()
  | j :: rest => do
    if a.word j ≠ 0 then bfree (a.word j)
    itruncIndirect a rest

/-- `itrunc`: free every block of the inode, then its indirect block. -/
def itrunc (ip : Fin nInode) : FsM Unit := do
  itruncDirect ip (List.finRange nDirect)
  let ind := ((← get).itable ip).din.addrs indirectSlot
  if ind ≠ 0 then
    itruncIndirect ((← get).disk.blocks ind) (List.range nIndirect)
    bfree ind
    setAddr ip indirectSlot 0
  setDin ip fun d => { d with size := 0 }
  iupdate ip

/-- `iput`: drop a reference, freeing the inode with its last reference and
last link. -/
def iput (ip : Fin nInode) : FsM Unit := do
  let e := (← get).itable ip
  if e.ref = 1 ∧ e.valid = true ∧ e.din.nlink = 0 then
    itrunc ip
    setDin ip fun d => { d with type := .free }
    iupdate ip
    setInode ip fun e => { e with valid := false }
  setInode ip fun e => { e with ref := e.ref - 1 }

/-- `iunlockput`. -/
def iunlockput (ip : Fin nInode) : FsM Unit := do
  iunlock ip
  iput ip

/-! ### Inode content -/

/-- One half of `bmap`: the block in `ip->addrs[slot]`, allocated if it is 0. -/
def bmapSlot (ip : Fin nInode) (slot : Fin (nDirect + 1)) : FsM Nat := do
  let addr := ((← get).itable ip).din.addrs slot
  if addr ≠ 0 then return addr
  let addr ← balloc
  if addr = 0 then return 0
  setAddr ip slot addr
  return addr

/-- The other half: entry `bn` of the indirect block `ind`, allocated if it is 0. -/
def bmapEntry (ind bn : Nat) : FsM Nat := do
  let addr := ((← get).disk.blocks ind).word bn
  if addr ≠ 0 then return addr
  let addr ← balloc
  if addr ≠ 0 then
    modifyDisk fun d => { d with blocks := Function.update d.blocks ind ((d.blocks ind).setWord bn addr) }
    logWrite ind
  return addr

/-- `bmap`: the disk block of block `bn` of the inode, 0 when the disk is full. -/
def bmap (ip : Fin nInode) (bn : Nat) : FsM Nat := do
  if direct : bn < nDirect then
    bmapSlot ip (directSlot ⟨bn, direct⟩)
  else if bn - nDirect < nIndirect then
    let ind ← bmapSlot ip indirectSlot
    if ind = 0 then return 0
    bmapEntry ind (bn - nDirect)
  else throw "bmap: out of range"

/-- `readi`'s loop, `tot` of its `n` bytes read and the next at `off`: a block at
a time, to the end of the block or of the read. The destination has room for
`room` bytes (`either_copyout` fails past them); `fuel` bounds the rounds. -/
def readLoop (ip : Fin nInode) (room n : Nat) :
    Nat → Nat → List UInt8 → Nat → FsM (Int × List UInt8)
  | tot, _, acc, 0 => pure (tot, acc)
  | tot, off, acc, fuel + 1 => do
    if n ≤ tot then return (tot, acc)
    let addr ← bmap ip (off / bSize)
    if addr = 0 then return (tot, acc)
    let m := min (n - tot) (bSize - off % bSize)
    if room < tot + m then return (-1, acc)
    let bytes := ((← get).disk.blocks addr).read (off % bSize) m
    readLoop ip room n (tot + m) (off + m) (acc ++ bytes) fuel

/-- `readi`: the bytes of `[off, off + n)` clipped to the file's size, and how many
were read (-1 when the copy out fails). -/
def readi (ip : Fin nInode) (room off n : Nat) : FsM (Int × List UInt8) := do
  let size := ((← get).itable ip).din.size
  if size < off ∨ (off + n) % 2 ^ 32 < off then return (0, [])
  let n := if size < off + n then size - off else n
  readLoop ip room n 0 off [] n

/-- `writei`'s loop, `tot` of its `n` bytes written and the next at `off`. The
source holds `src` (`either_copyin` fails past its end, after copying what is
there); the result is the bytes written and the offset reached. -/
def writeLoop (ip : Fin nInode) (src : List UInt8) (n : Nat) :
    Nat → Nat → Nat → FsM (Nat × Nat)
  | tot, off, 0 => pure (tot, off)
  | tot, off, fuel + 1 => do
    if n ≤ tot then return (tot, off)
    let addr ← bmap ip (off / bSize)
    if addr = 0 then return (tot, off)
    let m := min (n - tot) (bSize - off % bSize)
    let chunk := (src.drop tot).take m
    modifyDisk fun d =>
      { d with blocks := Function.update d.blocks addr ((d.blocks addr).write (off % bSize) chunk) }
    if chunk.length < m then return (tot, off)
    logWrite addr
    writeLoop ip src n (tot + m) (off + m) fuel

/-- `writei`: write `n` bytes at `off`, grow the file over what was written, and
write the inode back. -/
def writei (ip : Fin nInode) (src : List UInt8) (off n : Nat) : FsM Int := do
  let size := ((← get).itable ip).din.size
  if size < off ∨ (off + n) % 2 ^ 32 < off then return -1
  if maxFile * bSize < off + n then return -1
  let (tot, off) ← writeLoop ip src n 0 off n
  if ((← get).itable ip).din.size < off then
    setDin ip fun d => { d with size := off }
  iupdate ip
  return tot

end Xv6.Fs
