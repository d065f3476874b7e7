import Xv6.Fs.Dir
import Xv6.Lib.Machine

/-!
Contract: the file-system system calls of `kernel/sysfile.c`, the file table of
`kernel/file.c`, and what `fork` and `exit` do to open files and current
directories; the system they make up, whose states are those some sequence of
calls by the processes reaches from a booted disk.

A call that returns leaves the state it computed; a call that panics stops the
system, so it has no next state, and which panic it reaches is the message of
its `Except.error`.

Owns: `argstr`, `filealloc`, `filedup`, `fileclose`, `fileread`, `filewrite`,
`fdalloc`, `argfd`, `create`, the `sys*` calls, `fork`, `exit`, `Call`,
`syscall`, `boot`, `step` and `Reachable`.

Does not own: pipes and `exec` (not modelled), the console behind a device file
(a device read or write leaves the file system as it is and returns `n`).
-/

namespace Xv6.Fs

/-! ### Arguments and the file table -/

/-- `O_RDONLY`. -/
def oRdonly : Nat := 0x000

/-- `O_WRONLY`. -/
def oWronly : Nat := 0x001

/-- `O_RDWR`. -/
def oRdwr : Nat := 0x002

/-- `O_CREATE`. -/
def oCreate : Nat := 0x200

/-- `O_TRUNC`. -/
def oTrunc : Nat := 0x400

/-- `CONSOLE`, the one device with a driver in `devsw`. -/
def console : Int16 := 1

/-- `argstr`: the string a path argument holds, if it fits in `MAXPATH` bytes. -/
def argstr (path : List UInt8) : Option (List UInt8) :=
  if (cstr path).length < maxPath then some (cstr path) else none

/-- Change file-table entry `f`. -/
def setFile (f : Fin nFile) (g : File → File) : FsM Unit :=
  modify fun fs => { fs with ftable := Function.update fs.ftable f (g (fs.ftable f)) }

/-- Change process `p`. -/
def setProc (p : Fin nProc) (g : Proc → Proc) : FsM Unit :=
  modify fun fs => { fs with procs := Function.update fs.procs p (g (fs.procs p)) }

/-- `filealloc`: the first file with no reference. -/
def filealloc : FsM (Option (Fin nFile)) := do
  let fs ← get
  match (List.finRange nFile).find? fun f => (fs.ftable f).ref = 0 with
  | none => pure none
  | some f =>
    setFile f fun file => { file with ref := 1 }
    pure (some f)

/-- `filedup`. -/
def filedup (f : Fin nFile) : FsM Unit := do
  if ((← get).ftable f).ref < 1 then throw "filedup"
  setFile f fun file => { file with ref := file.ref + 1 }

/-- `fileclose`: drop a reference; the last one releases the inode, in a
transaction of its own. -/
def fileclose (f : Fin nFile) : FsM Unit := do
  let ff := (← get).ftable f
  if ff.ref < 1 then throw "fileclose"
  if 0 < ff.ref - 1 then
    setFile f fun file => { file with ref := ff.ref - 1 }
    return
  setFile f fun file => { file with ref := 0, type := .none }
  if ff.type = .inode ∨ ff.type = .device then
    beginOp
    iput ff.ip
    endOp

/-- `fdalloc`: the first free descriptor of process `p`, given file `f`. -/
def fdalloc (p : Fin nProc) (f : Fin nFile) : FsM (Option (Fin nOFile)) := do
  let proc := (← get).procs p
  match (List.finRange nOFile).find? fun fd => proc.ofile fd = none with
  | none => pure none
  | some fd =>
    setProc p fun proc => { proc with ofile := Function.update proc.ofile fd (some f) }
    pure (some fd)

/-- `argfd`: the descriptor and its open file, if `fd` names one. -/
def argfd (p : Fin nProc) (fd : Int) : FsM (Option (Fin nOFile × Fin nFile)) := do
  if h : 0 ≤ fd ∧ fd < nOFile then
    let fd : Fin nOFile := ⟨fd.toNat, by omega⟩
    return ((← get).procs p).ofile fd |>.map fun f => (fd, f)
  return none

/-- `fileread`: `n` bytes at the file's offset into a buffer with room for
`room` bytes. -/
def fileread (f : Fin nFile) (room : Nat) (n : Int) : FsM Int := do
  let ff := (← get).ftable f
  if !ff.readable then return -1
  match ff.type with
  | .device =>
    if ff.major < 0 ∨ Int16.ofNat nDev ≤ ff.major ∨ ff.major ≠ console then return -1
    return n
  | .inode =>
    ilock ff.ip
    let (r, _) ← readi ff.ip room ff.off (n % 2 ^ 32).toNat
    if 0 < r then
      setFile f fun file => { file with off := file.off + r.toNat }
    iunlock ff.ip
    return r
  | .none => throw "fileread"

/-- `filewrite`'s chunk: `((MAXOPBLOCKS-1-1-2) / 2) * BSIZE` bytes. -/
def writeChunk : Nat := (maxOpBlocks - 1 - 1 - 2) / 2 * bSize

/-- `filewrite`'s loop, `i` of the `n` bytes of `src` written: a chunk per
transaction, stopping at the first chunk `writei` cuts short. -/
def filewriteLoop (f : Fin nFile) (src : List UInt8) (n : Nat) : Nat → Nat → FsM Nat
  | i, 0 => pure i
  | i, fuel + 1 => do
    if n ≤ i then return i
    let n1 := min (n - i) writeChunk
    beginOp
    let ip := ((← get).ftable f).ip
    ilock ip
    let r ← writei ip (src.drop i) ((← get).ftable f).off n1
    if 0 < r then
      setFile f fun file => { file with off := file.off + r.toNat }
    iunlock ip
    endOp
    if r ≠ n1 then return i
    filewriteLoop f src n (i + n1) fuel

/-- `filewrite`: `n` bytes of `src` at the file's offset. -/
def filewrite (f : Fin nFile) (src : List UInt8) (n : Int) : FsM Int := do
  let ff := (← get).ftable f
  if !ff.writable then return -1
  match ff.type with
  | .device =>
    if ff.major < 0 ∨ Int16.ofNat nDev ≤ ff.major ∨ ff.major ≠ console then return -1
    return n
  | .inode =>
    let i ← filewriteLoop f src n.toNat 0 n.toNat
    return if (i : Int) = n then n else -1
  | .none => throw "filewrite"

/-! ### Creating, linking and unlinking -/

/-- The i-number of inode-table entry `ip`. -/
def inumOf (ip : Fin nInode) : FsM Nat := do
  return ((← get).itable ip).inum

/-- `create`'s `fail:` path: give the new inode up and release both. -/
def createFail (ip dp : Fin nInode) : FsM (Option (Fin nInode)) := do
  setDin ip fun d => { d with nlink := 0 }
  iupdate ip
  iunlockput ip
  iunlockput dp
  return none

/-- `create`: the inode `path` names, made with `type` if it is not there; an
existing file or device is returned only when a file is asked for. -/
def create (cwd : Fin nInode) (path : List UInt8) (type : IType) (major minor : Int16) :
    FsM (Option (Fin nInode)) := do
  let some (dp, name) ← nameiparent cwd path | return none
  ilock dp
  if let some (ip, _) ← dirlookup dp name then
    iunlockput dp
    ilock ip
    let found := ((← get).itable ip).din.type
    if type = .file ∧ (found = .file ∨ found = .device) then return some ip
    iunlockput ip
    return none
  let some ip ← ialloc type | (do iunlockput dp; return none)
  ilock ip
  setDin ip fun d => { d with major, minor, nlink := 1 }
  iupdate ip
  if type = .dir then
    -- no nlink++ for ".": avoid a cyclic reference count
    if (← dirlink ip dot (← inumOf ip)) < 0 then return ← createFail ip dp
    if (← dirlink ip dotdot (← inumOf dp)) < 0 then return ← createFail ip dp
  if (← dirlink dp name (← inumOf ip)) < 0 then return ← createFail ip dp
  if type = .dir then
    setDin dp fun d => { d with nlink := d.nlink + 1 }
    iupdate dp
  iunlockput dp
  return some ip

/-- The half of `sys_open` that finds the inode: created, or looked up and
locked; `none` once a failure is cleaned up. -/
def openInode (cwd : Fin nInode) (path : List UInt8) (omode : Nat) :
    FsM (Option (Fin nInode)) := do
  if omode &&& oCreate ≠ 0 then
    return ← create cwd path .file 0 0
  let some ip ← namei cwd path | return none
  ilock ip
  if ((← get).itable ip).din.type = .dir ∧ omode ≠ 0 then
    iunlockput ip
    return none
  return some ip

/-- `sys_open`. -/
def sysOpen (p : Fin nProc) (path : List UInt8) (omode : Nat) : FsM Int := do
  let some path := argstr path | return -1
  beginOp
  let some ip ← openInode ((← get).procs p).cwd path omode | (do endOp; return -1)
  let d := ((← get).itable ip).din
  if d.type = .device ∧ (d.major < 0 ∨ Int16.ofNat nDev ≤ d.major) then
    iunlockput ip
    endOp
    return -1
  let some f ← filealloc | (do iunlockput ip; endOp; return -1)
  let some fd ← fdalloc p f | (do fileclose f; iunlockput ip; endOp; return -1)
  if d.type = .device then
    setFile f fun file => { file with type := .device, major := d.major }
  else
    setFile f fun file => { file with type := .inode, off := 0 }
  setFile f fun file => { file with
    ip, readable := omode &&& oWronly = 0, writable := omode &&& oWronly ≠ 0 ∨ omode &&& oRdwr ≠ 0 }
  if omode &&& oTrunc ≠ 0 ∧ d.type = .file then itrunc ip
  iunlock ip
  endOp
  return fd.val

/-- `sys_mkdir`. -/
def sysMkdir (p : Fin nProc) (path : List UInt8) : FsM Int := do
  beginOp
  let some path := argstr path | (do endOp; return -1)
  let some ip ← create ((← get).procs p).cwd path .dir 0 0 | (do endOp; return -1)
  iunlockput ip
  endOp
  return 0

/-- `sys_mknod`; the `int` arguments are cut to `create`'s `short`s. -/
def sysMknod (p : Fin nProc) (path : List UInt8) (major minor : Int) : FsM Int := do
  beginOp
  let some path := argstr path | (do endOp; return -1)
  let some ip ← create ((← get).procs p).cwd path .device (Int16.ofInt major) (Int16.ofInt minor)
    | (do endOp; return -1)
  iunlockput ip
  endOp
  return 0

/-- `sys_link`'s `bad:` path: take the new link back. -/
def linkBad (ip : Fin nInode) : FsM Int := do
  ilock ip
  setDin ip fun d => { d with nlink := d.nlink - 1 }
  iupdate ip
  iunlockput ip
  endOp
  return -1

/-- `sys_link`: a new entry `new` for the inode `old` names, not a directory. -/
def sysLink (p : Fin nProc) (old new : List UInt8) : FsM Int := do
  let some old := argstr old | return -1
  let some new := argstr new | return -1
  beginOp
  let cwd := ((← get).procs p).cwd
  let some ip ← namei cwd old | (do endOp; return -1)
  ilock ip
  if ((← get).itable ip).din.type = .dir then
    iunlockput ip
    endOp
    return -1
  setDin ip fun d => { d with nlink := d.nlink + 1 }
  iupdate ip
  iunlock ip
  let some (dp, name) ← nameiparent cwd new | linkBad ip
  ilock dp
  if (← dirlink dp name (← inumOf ip)) < 0 then
    iunlockput dp
    return ← linkBad ip
  iunlockput dp
  iput ip
  endOp
  return 0

/-- `isdirempty`'s loop over the entries after `.` and `..`. -/
def isdiremptyAt (dp : Fin nInode) : List Nat → FsM Bool
  | [] => pure true
  | off :: rest => do
    let de ← readDirent dp off "isdirempty: readi"
    if de.inum ≠ 0 then return false
    isdiremptyAt dp rest

/-- `isdirempty`: no entry in use past the first two. -/
def isdirempty (dp : Fin nInode) : FsM Bool := do
  isdiremptyAt dp (direntOffsets (2 * direntSize) ((← get).itable dp).din.size)

/-- `sys_unlink`'s `bad:` path. -/
def unlinkBad (dp : Fin nInode) : FsM Int := do
  iunlockput dp
  endOp
  return -1

/-- `sys_unlink`: clear the entry `path` names, and drop a link of its inode. -/
def sysUnlink (p : Fin nProc) (path : List UInt8) : FsM Int := do
  let some path := argstr path | return -1
  beginOp
  let some (dp, name) ← nameiparent ((← get).procs p).cwd path | (do endOp; return -1)
  ilock dp
  if namecmp name dot = 0 ∨ namecmp name dotdot = 0 then return ← unlinkBad dp
  let some (ip, off) ← dirlookup dp name | unlinkBad dp
  ilock ip
  if ((← get).itable ip).din.nlink < 1 then throw "unlink: nlink < 1"
  -- `ip->type == T_DIR && !isdirempty(ip)`: `isdirempty` runs for a directory only
  if ((← get).itable ip).din.type = .dir then
    if !(← isdirempty ip) then
      iunlockput ip
      return ← unlinkBad dp
  if (← writei dp (List.replicate direntSize 0) off direntSize) ≠ direntSize then
    throw "unlink: writei"
  if ((← get).itable ip).din.type = .dir then
    setDin dp fun d => { d with nlink := d.nlink - 1 }
    iupdate dp
  iunlockput dp
  setDin ip fun d => { d with nlink := d.nlink - 1 }
  iupdate ip
  iunlockput ip
  endOp
  return 0

/-- `sys_chdir`. -/
def sysChdir (p : Fin nProc) (path : List UInt8) : FsM Int := do
  beginOp
  let some path := argstr path | (do endOp; return -1)
  let some ip ← namei ((← get).procs p).cwd path | (do endOp; return -1)
  ilock ip
  if ((← get).itable ip).din.type ≠ .dir then
    iunlockput ip
    endOp
    return -1
  iunlock ip
  iput ((← get).procs p).cwd
  endOp
  setProc p fun proc => { proc with cwd := ip }
  return 0

/-! ### Descriptors and processes -/

/-- `sys_read`. -/
def sysRead (p : Fin nProc) (fd : Int) (room : Nat) (n : Int) : FsM Int := do
  let some (_, f) ← argfd p fd | return -1
  fileread f room n

/-- `sys_write`. -/
def sysWrite (p : Fin nProc) (fd : Int) (src : List UInt8) (n : Int) : FsM Int := do
  let some (_, f) ← argfd p fd | return -1
  filewrite f src n

/-- `sys_close`. -/
def sysClose (p : Fin nProc) (fd : Int) : FsM Int := do
  let some (fd, f) ← argfd p fd | return -1
  setProc p fun proc => { proc with ofile := Function.update proc.ofile fd none }
  fileclose f
  return 0

/-- `sys_dup`. -/
def sysDup (p : Fin nProc) (fd : Int) : FsM Int := do
  let some (_, f) ← argfd p fd | return -1
  let some fd ← fdalloc p f | return -1
  filedup f
  return fd.val

/-- `fork`, as far as files go: a free process slot gets the parent's open files
and current directory, each one more reference. -/
def fork (p : Fin nProc) : FsM Int := do
  let fs ← get
  let some np := (List.finRange nProc).find? (fun q => !(fs.procs q).used) | return -1
  let parent := fs.procs p
  (List.finRange nOFile).forM fun fd => do
    if let some f := parent.ofile fd then filedup f
  let cwd ← idup parent.cwd
  setProc np fun _ => { used := true, cwd, ofile := parent.ofile }
  return np.val

/-- `exit`, as far as files go: close every open file, release the current
directory, and free the slot (what the parent's `wait` does). -/
def exit (p : Fin nProc) : FsM Unit := do
  if p = 0 then throw "init exiting"
  (List.finRange nOFile).forM fun fd => do
    if let some f := ((← get).procs p).ofile fd then
      fileclose f
      setProc p fun proc => { proc with ofile := Function.update proc.ofile fd none }
  beginOp
  iput ((← get).procs p).cwd
  endOp
  setProc p fun proc => { proc with used := false }

/-! ### The system -/

/-- A file-system call a process makes, with its arguments: paths as the bytes of
the user's string, a read's buffer as the room it has, a write's source as the
user bytes readable there. -/
inductive Call where
  | open (path : List UInt8) (omode : Nat)
  | close (fd : Int)
  | read (fd : Int) (room : Nat) (n : Int)
  | write (fd : Int) (src : List UInt8) (n : Int)
  | link (old new : List UInt8)
  | unlink (path : List UInt8)
  | mkdir (path : List UInt8)
  | mknod (path : List UInt8) (major minor : Int)
  | chdir (path : List UInt8)
  | dup (fd : Int)
  | fork
  | exit

/-- The kernel code a call runs in process `p`. -/
def syscall (p : Fin nProc) : Call → FsM Int
  | .open path omode => sysOpen p path omode
  | .close fd => sysClose p fd
  | .read fd room n => sysRead p fd room n
  | .write fd src n => sysWrite p fd src n
  | .link old new => sysLink p old new
  | .unlink path => sysUnlink p path
  | .mkdir path => sysMkdir p path
  | .mknod path major minor => sysMknod p path major minor
  | .chdir path => sysChdir p path
  | .dup fd => sysDup p fd
  | .fork => fork p
  | .exit => do exit p; return 0

/-- The system after booting from `disk`: the first process, its current
directory the root (`namei("/")`, referenced and not yet read). -/
def boot (disk : Disk) : FileSys where
  disk
  itable := fun ip => ⟨if ip = 0 then rootIno else 0, if ip = 0 then 1 else 0, false, Dinode.zero⟩
  ftable := fun _ => ⟨.none, 0, false, false, 0, 0, 0⟩
  procs := fun p => ⟨p = 0, 0, fun _ => none⟩
  trans := none

/-- A call of a process in use, if it returns. -/
def step (fs : FileSys) (event : Fin nProc × Call) : Option FileSys :=
  if (fs.procs event.1).used then
    match (syscall event.1 event.2).run fs with
    | .ok (_, fs') => some fs'
    | .error _ => none
  else none

/-- The states some sequence of calls reaches from booting `disk`. -/
def Reachable (disk : Disk) (fs : FileSys) : Prop :=
  Machine.Reachable step (boot disk) fs

end Xv6.Fs
