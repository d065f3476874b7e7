import Xv6.Fs.Syscall
import Xv6.Fs.Mkfs

/-!
Contract: the name space a disk holds, and runs of the system from a `mkfs`
image. The data of an inode is read as `bmap` would find it without
allocating (0 where no block is there); a directory's entries are its 16-byte
records; an inode is attached when some chain of live entries leads to it from
the root. A run of calls from the image is checked by evaluation, and what it
reaches is a reachable state of the system.

Owns: `Disk.blockOf`, `Disk.byteAt`, `Disk.entry`, `Disk.entryCount`,
`Disk.Names`, `Disk.Attached`, `Disk.closedUnder`, `checkRun`, `panicsWith`, `returnsWith`,
`pathElems`, `Disk.lookup`, `Disk.resolve`, `resolvePath`, and the runs that
orphan an inode, that leave a `..` entry naming a freed inode, and that make
`open` fail after it created its file.

Does not own: the calls themselves (`Xv6.Fs.Syscall`).
-/

namespace Xv6.Fs

/-! ### Directory contents on the disk -/

/-- The disk block holding file block `bn` of `din`, 0 when there is none:
`bmap` without allocating. -/
def Disk.blockOf (d : Disk) (din : Dinode) (bn : Nat) : Nat :=
  if direct : bn < nDirect then din.addrs (directSlot ⟨bn, direct⟩)
  else if bn - nDirect < nIndirect then
    if din.addrs indirectSlot = 0 then 0
    else (d.blocks (din.addrs indirectSlot)).word (bn - nDirect)
  else 0

/-- Byte `off` of the data of `din`, 0 in a block that is not there. -/
def Disk.byteAt (d : Disk) (din : Dinode) (off : Nat) : UInt8 :=
  if d.blockOf din (off / bSize) = 0 then 0
  else d.blocks (d.blockOf din (off / bSize)) (off % bSize)

/-- Entry `k` of directory `inum`. -/
def Disk.entry (d : Disk) (inum k : Nat) : Dirent :=
  Dirent.ofBytes ((List.range direntSize).map fun i =>
    d.byteAt (d.inodes inum) (direntSize * k + i))

/-- The whole entries directory `inum` holds. -/
def Disk.entryCount (d : Disk) (inum : Nat) : Nat :=
  (d.inodes inum).size / direntSize

/-- Entry `k` of directory `dir` is live and names `inum`. -/
def Disk.Names (d : Disk) (dir k inum : Nat) : Prop :=
  (d.inodes dir).type = .dir ∧ k < d.entryCount dir ∧ (d.entry dir k).inum = inum ∧ inum ≠ 0

instance (d : Disk) (dir k inum : Nat) : Decidable (d.Names dir k inum) :=
  inferInstanceAs (Decidable (_ ∧ _ ∧ _ ∧ _))

/-- The inodes some chain of live entries leads to from the root. -/
inductive Disk.Attached (d : Disk) : Nat → Prop
  | root : d.Attached rootIno
  | entry {dir k inum : Nat} : d.Attached dir → d.Names dir k inum → d.Attached inum

/-- Every live entry of a directory in `inums` names an inode in `inums`. -/
def Disk.closedUnder (d : Disk) (inums : List Nat) : Bool :=
  inums.all fun dir => (List.range (d.entryCount dir)).all fun k =>
    (d.inodes dir).type != .dir || (d.entry dir k).inum == 0 || inums.contains (d.entry dir k).inum

theorem Disk.mem_of_closedUnder {d : Disk} {inums : List Nat} (closed : d.closedUnder inums = true)
    {dir k inum : Nat} (member : dir ∈ inums) (names : d.Names dir k inum) : inum ∈ inums := by
  obtain ⟨isDir, inRange, named, nonzero⟩ := names
  have entries := List.all_eq_true.mp closed dir member
  have holds := List.all_eq_true.mp entries k (List.mem_range.mpr inRange)
  simpa [isDir, named, nonzero] using holds

/-- A set of inodes that holds the root and every inode its directories' live
entries name holds every attached inode. -/
theorem Disk.Attached.mem_of_closedUnder {d : Disk} {inums : List Nat}
    (closed : d.closedUnder inums = true) (hasRoot : rootIno ∈ inums) {inum : Nat}
    (attached : d.Attached inum) : inum ∈ inums := by
  induction attached with
  | root => exact hasRoot
  | entry _ names reached => exact d.mem_of_closedUnder closed reached names

/-! ### Path names on the disk -/

/-- A path's elements: the C string split at every `/`, empty elements dropped,
each cut to its first `DIRSIZ` bytes. -/
def pathElems (path : List UInt8) : List (List UInt8) :=
  (((cstr path).splitOn slash).filter (· ≠ [])).map (·.take dirSiz)

/-- The i-number the first live entry of directory `dir` that `namecmp` matches
with `name` names. -/
def Disk.lookup (d : Disk) (dir : Nat) (name : List UInt8) : Option Nat :=
  ((List.range (d.entryCount dir)).find? fun k =>
    (d.entry dir k).inum ≠ 0 ∧ namecmp name (d.entry dir k).name = 0).map fun k => (d.entry dir k).inum

/-- The reference resolver on the disk: from `start`, each element names an entry
of the directory reached so far; `none` once an inode on the way is no directory
or has no such entry. -/
def Disk.resolve (d : Disk) (start : Nat) (elems : List (List UInt8)) : Option Nat :=
  elems.foldlM (fun cur name => if (d.inodes cur).type = .dir then d.lookup cur name else none) start

/-- What `namei(path)` should find: from the root for an absolute path, else
from the current directory `cwd`. -/
def resolvePath (d : Disk) (cwd : Nat) (path : List UInt8) : Option Nat :=
  d.resolve (if path.headD 0 = slash then rootIno else cwd) (pathElems path)

example : pathElems [47, 47, 97, 47, 98, 47] = [[97], [98]] := by decide

-- on the image of no files, `/./..` is the root and `/a` is not there
example : (mkfs []).toOption.map (fun d => (resolvePath d 1 [47, 46, 47, 46, 46],
    resolvePath d 1 [47, 97])) = some (some 1, none) := by
  decide +kernel

/-! ### Runs from a `mkfs` image -/

/-- Build the image from `files`, boot it, make the calls of `events` in order,
and test the state they reach. -/
def checkRun (files : List (List UInt8 × List UInt8)) (events : List (Fin nProc × Call))
    (test : FileSys → Bool) : Bool :=
  match mkfs files with
  | .ok disk => (Machine.run step (boot disk) events).any test
  | .error _ => false

theorem exists_reachable_of_checkRun {files : List (List UInt8 × List UInt8)}
    {events : List (Fin nProc × Call)} {test : FileSys → Bool}
    (passes : checkRun files events test = true) :
    ∃ disk, mkfs files = .ok disk ∧ ∃ fs, Reachable disk fs ∧ test fs = true := by
  unfold checkRun at passes
  split at passes
  · rename_i disk built
    exact ⟨disk, built, Machine.exists_reachable_of_run_any passes⟩
  · cases passes

/-- Kernel code run from `fs` panics with `msg`. -/
def panicsWith {α : Type} (m : FsM α) (fs : FileSys) (msg : String) : Bool :=
  match m.run fs with
  | .error e => decide (e = msg)
  | .ok _ => false

theorem run_eq_error_of_panicsWith {α : Type} {m : FsM α} {fs : FileSys} {msg : String}
    (panics : panicsWith m fs msg = true) : m.run fs = .error msg := by
  unfold panicsWith at panics
  split at panics
  · rename_i e ran
    rw [ran, of_decide_eq_true panics]
  · cases panics

/-- Kernel code run from `fs` returns, and `test` holds of what it returns and the
state it leaves. -/
def returnsWith {α : Type} (m : FsM α) (fs : FileSys) (test : α → FileSys → Bool) : Bool :=
  match m.run fs with
  | .ok (a, fs') => test a fs'
  | .error _ => false

theorem exists_of_returnsWith {α : Type} {m : FsM α} {fs : FileSys} {test : α → FileSys → Bool}
    (passes : returnsWith m fs test = true) : ∃ a fs', m.run fs = .ok (a, fs') ∧ test a fs' = true := by
  unfold returnsWith at passes
  split at passes
  · rename_i a fs' ran
    exact ⟨a, fs', ran, passes⟩
  · cases passes

/-! ### A file created in a removed current directory -/

/-- Process 0 makes `a` and enters it, removes `/a`, creates `x` there, closes
it, and goes back to `/`. -/
def orphanCalls : List (Fin nProc × Call) :=
  [(0, .mkdir [97]), (0, .chdir [97]), (0, .unlink [47, 97]), (0, .open [120] 0x202),
    (0, .close 0), (0, .chdir [47])]

/-- The file `x` keeps its inode, its one link and no reference, with no chain
of entries from the root to it. -/
theorem orphan_after_create_in_removed_cwd :
    ∃ disk, mkfs [] = .ok disk ∧ ∃ fs, Reachable disk fs ∧ ∃ inum,
      (fs.disk.inodes inum).type = .file ∧ (fs.disk.inodes inum).nlink = 1 ∧
      (∀ ip, 0 < (fs.itable ip).ref → (fs.itable ip).inum ≠ inum) ∧ ¬ fs.disk.Attached inum := by
  have passes : checkRun [] orphanCalls (fun fs =>
      decide ((fs.disk.inodes 3).type = .file) && decide ((fs.disk.inodes 3).nlink = 1) &&
      (List.finRange nInode).all (fun ip => decide ((fs.itable ip).ref = 0 ∨ (fs.itable ip).inum ≠ 3)) &&
      fs.disk.closedUnder [rootIno]) = true := by
    decide +kernel
  obtain ⟨disk, built, fs, reachable, holds⟩ := exists_reachable_of_checkRun passes
  simp only [Bool.and_eq_true, decide_eq_true_eq, List.all_eq_true, List.mem_finRange,
    true_implies] at holds
  obtain ⟨⟨⟨isFile, linked⟩, unreferenced⟩, closed⟩ := holds
  refine ⟨disk, built, fs, reachable, 3, isFile, linked, ?_, ?_⟩
  · intro ip held
    exact (unreferenced ip).resolve_left (Nat.pos_iff_ne_zero.mp held)
  · intro attached
    have member := attached.mem_of_closedUnder closed (List.mem_singleton_self _)
    simp [rootIno] at member

/-! ### A `..` entry naming a freed directory -/

/-- Process 0 makes `a/b` its current directory, then removes `b` and `a` from
there. -/
def removeParentCalls : List (Fin nProc × Call) :=
  [(0, .mkdir [97]), (0, .mkdir [97, 47, 98]), (0, .chdir [97, 47, 98]),
    (0, .unlink [46, 46, 47, 98]), (0, .unlink [46, 46, 47, 46, 46, 47, 97])]

/-- The current directory `b` is still allocated and its `..` entry names the
freed inode of `a`; `chdir("..")` then stops at `ilock`'s panic. -/
theorem dotdot_of_removed_cwd_panics :
    ∃ disk, mkfs [] = .ok disk ∧ ∃ fs, Reachable disk fs ∧ (fs.procs 0).used = true ∧
      (fs.itable (fs.procs 0).cwd).inum = 3 ∧ fs.disk.Names 3 1 2 ∧
      cstr (fs.disk.entry 3 1).name = dotdot ∧ (fs.disk.inodes 2).type = .free ∧
      (syscall 0 (.chdir dotdot)).run fs = .error "ilock: no type" := by
  have passes : checkRun [] removeParentCalls (fun fs =>
      decide ((fs.procs 0).used = true ∧ (fs.itable (fs.procs 0).cwd).inum = 3 ∧
        fs.disk.Names 3 1 2 ∧ cstr (fs.disk.entry 3 1).name = dotdot ∧
        (fs.disk.inodes 2).type = .free) &&
      panicsWith (syscall 0 (.chdir dotdot)) fs "ilock: no type") = true := by
    decide +kernel
  obtain ⟨disk, built, fs, reachable, holds⟩ := exists_reachable_of_checkRun passes
  simp only [Bool.and_eq_true, decide_eq_true_eq] at holds
  obtain ⟨⟨used, cwd, names, named, freed⟩, panics⟩ := holds
  exact ⟨disk, built, fs, reachable, used, cwd, names, named, freed,
    run_eq_error_of_panicsWith panics⟩

/-- In the same state the reference resolver finds no inode for `../x` (the
entry `..` leads to a freed inode, no directory), while `namei` locks that inode
and panics. -/
theorem namei_dotdot_of_removed_cwd_panics :
    ∃ disk, mkfs [] = .ok disk ∧ ∃ fs, Reachable disk fs ∧ (fs.procs 0).used = true ∧
      resolvePath fs.disk (fs.itable (fs.procs 0).cwd).inum [46, 46, 47, 120] = none ∧
      (namei (fs.procs 0).cwd [46, 46, 47, 120]).run fs = .error "ilock: no type" := by
  have passes : checkRun [] removeParentCalls (fun fs =>
      decide ((fs.procs 0).used = true ∧
        resolvePath fs.disk (fs.itable (fs.procs 0).cwd).inum [46, 46, 47, 120] = none) &&
      panicsWith (namei (fs.procs 0).cwd [46, 46, 47, 120]) fs "ilock: no type") = true := by
    decide +kernel
  obtain ⟨disk, built, fs, reachable, holds⟩ := exists_reachable_of_checkRun passes
  simp only [Bool.and_eq_true, decide_eq_true_eq] at holds
  obtain ⟨⟨used, unresolved⟩, panics⟩ := holds
  exact ⟨disk, built, fs, reachable, used, unresolved, run_eq_error_of_panicsWith panics⟩

/-! ### An `open` that fails after creating its file -/

/-- Process 0 opens `/` and duplicates the descriptor until all `NOFILE` are in use. -/
def fillCalls : List (Fin nProc × Call) :=
  (0, .open [47] 0) :: List.replicate (nOFile - 1) (0, .dup 0)

/-- With every descriptor in use, `open("x", O_CREATE|O_RDWR)` creates `x` (inode 2,
one link, named by root's third entry) and then fails in `fdalloc`: it returns -1
with the file left in the name space and the descriptor table as it was. -/
theorem open_fails_after_create :
    ∃ disk, mkfs [] = .ok disk ∧ ∃ fs, Reachable disk fs ∧ (fs.disk.inodes 2).type = .free ∧
      ∃ fs', (syscall 0 (.open [120] 0x202)).run fs = .ok (-1, fs') ∧
        (fs'.disk.inodes 2).type = .file ∧ (fs'.disk.inodes 2).nlink = 1 ∧ fs'.disk.Names 1 2 2 ∧
        (fs'.procs 0).ofile = (fs.procs 0).ofile := by
  have passes : checkRun [] fillCalls (fun fs =>
      decide ((fs.disk.inodes 2).type = .free) &&
      returnsWith (syscall 0 (.open [120] 0x202)) fs (fun r fs' =>
        decide (r = -1 ∧ (fs'.disk.inodes 2).type = .file ∧ (fs'.disk.inodes 2).nlink = 1 ∧
          fs'.disk.Names 1 2 2 ∧ ∀ fd, (fs'.procs 0).ofile fd = (fs.procs 0).ofile fd))) = true := by
    decide +kernel
  obtain ⟨disk, built, fs, reachable, holds⟩ := exists_reachable_of_checkRun passes
  simp only [Bool.and_eq_true, decide_eq_true_eq] at holds
  obtain ⟨free, returned⟩ := holds
  obtain ⟨r, fs', opened, after⟩ := exists_of_returnsWith returned
  obtain ⟨rfl, file, linked, names, kept⟩ := of_decide_eq_true after
  exact ⟨disk, built, fs, reachable, free, fs', opened, file, linked, names, funext kept⟩

end Xv6.Fs
