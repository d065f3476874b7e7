import Xv6.Fs.State

/-!
Contract: directories and path names (`kernel/fs.c`): `dirlookup`, `dirlink`,
`skipelem`, `namex`, `namei` and `nameiparent`, over the block and inode layer
of `Xv6.Fs.State`.

A directory's data is a sequence of 16-byte entries; the loops over it visit
the offsets `direntOffsets` lists, which do not change while they run since
`readi` never changes a size. A path name is the bytes of a C string.

Owns: `direntOffsets`, `dirlookup`, `dirlink`, `skipelem`, `namex`, `namei`,
`nameiparent`.

Does not own: the system calls that use them (`Xv6.Fs.Syscall`).
-/

namespace Xv6.Fs

/-- The offsets `for(off = start; off < dp->size; off += sizeof(de))` visits. -/
def direntOffsets (start size : Nat) : List Nat :=
  (List.range ((size - start + direntSize - 1) / direntSize)).map fun k => start + direntSize * k

/-- The offset that loop ends at when nothing stops it early. -/
def direntEnd (start size : Nat) : Nat :=
  start + direntSize * ((size - start + direntSize - 1) / direntSize)

/-- Read the entry at `off` of directory `dp`, or panic with `msg` when fewer than
16 bytes come back. -/
def readDirent (dp : Fin nInode) (off : Nat) (msg : String) : FsM Dirent := do
  let (r, bytes) ← readi dp direntSize off direntSize
  if r ≠ direntSize then throw msg
  pure (Dirent.ofBytes bytes)

/-- `dirlookup`'s loop over the offsets left. -/
def dirlookupAt (dp : Fin nInode) (name : List UInt8) :
    List Nat → FsM (Option (Fin nInode × Nat))
  | [] => pure none
  | off :: rest => do
    let de ← readDirent dp off "dirlookup read"
    if de.inum ≠ 0 ∧ namecmp name de.name = 0 then
      let ip ← iget de.inum
      return some (ip, off)
    dirlookupAt dp name rest

/-- `dirlookup`: the inode an entry named `name` names, referenced, with the
entry's offset. -/
def dirlookup (dp : Fin nInode) (name : List UInt8) : FsM (Option (Fin nInode × Nat)) := do
  let d := ((← get).itable dp).din
  if d.type ≠ .dir then throw "dirlookup not DIR"
  dirlookupAt dp name (direntOffsets 0 d.size)

/-- `dirlink`'s search for an empty entry: the first offset whose entry has
inode number 0, else where the loop ends. -/
def dirlinkSlot (dp : Fin nInode) (endOff : Nat) : List Nat → FsM Nat
  | [] => pure endOff
  | off :: rest => do
    let de ← readDirent dp off "dirlink read"
    if de.inum = 0 then return off
    dirlinkSlot dp endOff rest

/-- `dirlink`: write an entry `(name, inum)` into `dp`; -1 if the name is there
or the write falls short. -/
def dirlink (dp : Fin nInode) (name : List UInt8) (inum : Nat) : FsM Int := do
  if let some (ip, _) ← dirlookup dp name then
    iput ip
    return -1
  let size := ((← get).itable dp).din.size
  let off ← dirlinkSlot dp (direntEnd 0 size) (direntOffsets 0 size)
  let de : Dirent := ⟨inum % 65536, strncpy name dirSiz⟩
  if (← writei dp de.toBytes off direntSize) ≠ direntSize then return -1
  return 0

/-! ### Path names -/

/-- The byte `'/'`. -/
def slash : UInt8 := 47

/-- `skipelem`: the path after its next element, and that element's first
`DIRSIZ` bytes (what `name` holds); `none` when no element is left. -/
def skipelem (path : List UInt8) : Option (List UInt8 × List UInt8) :=
  let path := path.dropWhile (· = slash)
  if path.headD 0 = 0 then none
  else
    let elem := path.takeWhile fun c => c ≠ slash ∧ c ≠ 0
    let rest := path.dropWhile fun c => c ≠ slash ∧ c ≠ 0
    some (rest.dropWhile (· = slash), elem.take dirSiz)

/-- `namex`'s loop from inode `ip` (referenced, unlocked), `name` holding the last
element taken. Each round takes an element off the path, so `fuel` above the
path's length never runs out. -/
def namexFrom (nameiparent : Bool) :
    Fin nInode → List UInt8 → List UInt8 → Nat → FsM (Option (Fin nInode) × List UInt8)
  | ip, _, name, 0 => pure (some ip, name)
  | ip, path, name, fuel + 1 => do
    match skipelem path with
    | none =>
      if nameiparent then
        iput ip
        return (none, name)
      return (some ip, name)
    | some (path, name) =>
      ilock ip
      if ((← get).itable ip).din.type ≠ .dir then
        iunlockput ip
        return (none, name)
      if nameiparent ∧ path.headD 0 = 0 then
        iunlock ip
        return (some ip, name)
      match ← dirlookup ip name with
      | none =>
        iunlockput ip
        return (none, name)
      | some (next, _) =>
        iunlockput ip
        namexFrom nameiparent next path name fuel

/-- `namex`, from the root for an absolute path and from the current directory
`cwd` otherwise. -/
def namex (cwd : Fin nInode) (path : List UInt8) (nameiparent : Bool) :
    FsM (Option (Fin nInode) × List UInt8) := do
  let ip ← if path.headD 0 = slash then iget rootIno else idup cwd
  namexFrom nameiparent ip path [] (path.length + 1)

/-- `namei`. -/
def namei (cwd : Fin nInode) (path : List UInt8) : FsM (Option (Fin nInode)) := do
  let (ip, _) ← namex cwd path false
  return ip

/-- `nameiparent`: the parent directory and the last element's name. -/
def nameiparent (cwd : Fin nInode) (path : List UInt8) :
    FsM (Option (Fin nInode × List UInt8)) := do
  let (dp, name) ← namex cwd path true
  return dp.map fun dp => (dp, name)

end Xv6.Fs
