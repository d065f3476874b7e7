import Xv6.Fs.State

/-!
Contract: `mkfs/mkfs.c`, the program that builds the disk image the kernel
boots from: the root directory with `.` and `..`, one file for each argument
with its contents, the root's size rounded up past its last block, and the
bitmap marking every block used so far.

An argument is given as the bytes of its name on the command line and the
bytes of the host file it names; a failed `assert` stops `mkfs` with the
asserted expression as its message.

Owns: `Mkfs.Image`, `Mkfs.ialloc`, `Mkfs.iappend`, `Mkfs.shortname`, `mkfs`, and
the image whose last inode lies past `NINODES`.

Does not own: what the kernel does with the image (`Xv6.Fs.Syscall`).
-/

namespace Xv6.Fs

namespace Mkfs

/-- The image while `mkfs` writes it, with its two counters. -/
structure Image where
  inodes : Nat → Dinode
  blocks : Nat → Block
  freeinode : Nat
  freeblock : Nat

/-- All blocks zero (`wsect(i, zeroes)`), the first free block past the metadata. -/
def Image.empty : Image :=
  ⟨fun _ => Dinode.zero, fun _ => Block.zero, 1, nMeta⟩

/-- `mkfs`'s `ialloc`: the next inode, of `type` with one link. -/
def ialloc (img : Image) (type : IType) : Image × Nat :=
  let inum := img.freeinode
  ({ img with
      inodes := Function.update img.inodes inum { Dinode.zero with type, nlink := 1 }
      freeinode := inum + 1 }, inum)

/-- The block holding file block `fbn` of `din`, allocated from `freeblock`
(with the indirect block first) when it has none yet. -/
def blockFor (img : Image) (din : Dinode) (fbn : Nat) : Image × Dinode × Nat :=
  if direct : fbn < nDirect then
    let slot := directSlot ⟨fbn, direct⟩
    if din.addrs slot = 0 then
      let din := { din with addrs := Function.update din.addrs slot img.freeblock }
      ({ img with freeblock := img.freeblock + 1 }, din, din.addrs slot)
    else (img, din, din.addrs slot)
  else
    let (img, din) :=
      if din.addrs indirectSlot = 0 then
        ({ img with freeblock := img.freeblock + 1 },
          { din with addrs := Function.update din.addrs indirectSlot img.freeblock })
      else (img, din)
    let ind := din.addrs indirectSlot
    if (img.blocks ind).word (fbn - nDirect) = 0 then
      let img := { img with
        blocks := Function.update img.blocks ind ((img.blocks ind).setWord (fbn - nDirect) img.freeblock)
        freeblock := img.freeblock + 1 }
      (img, din, (img.blocks ind).word (fbn - nDirect))
    else (img, din, (img.blocks ind).word (fbn - nDirect))

/-- `iappend`'s loop: the bytes left go at `off`, up to the end of each block. -/
def appendLoop (din : Dinode) (off : Nat) (bytes : List UInt8) :
    Image → Nat → Except String (Image × Dinode × Nat)
  | img, 0 => pure (img, din, off)
  | img, fuel + 1 => do
    if bytes = [] then return (img, din, off)
    let fbn := off / bSize
    if maxFile ≤ fbn then throw "fbn < MAXFILE"
    let (img, din, x) := blockFor img din fbn
    let n1 := min bytes.length ((fbn + 1) * bSize - off)
    let img := { img with
      blocks := Function.update img.blocks x ((img.blocks x).write (off - fbn * bSize) (bytes.take n1)) }
    appendLoop din (off + n1) (bytes.drop n1) img fuel

/-- `iappend`: add `bytes` at the end of inode `inum`. -/
def iappend (img : Image) (inum : Nat) (bytes : List UInt8) : Except String Image := do
  let din := img.inodes inum
  let (img, din, off) ← appendLoop din din.size bytes img bytes.length
  pure { img with inodes := Function.update img.inodes inum { din with size := off } }

/-- The loop that copies a host file: `read` a block's worth at a time and
append it. -/
def appendFile (inum : Nat) : List UInt8 → Image → Nat → Except String Image
  | _, img, 0 => pure img
  | contents, img, fuel + 1 => do
    if contents = [] then return img
    let img ← iappend img inum (contents.take bSize)
    appendFile inum (contents.drop bSize) img fuel

/-- The bytes of `"user/"`. -/
def userPrefix : List UInt8 := [117, 115, 101, 114, 47]

/-- The byte `'_'`. -/
def underscore : UInt8 := 95

/-- The name a file is stored under: without `user/` and without a leading `_`. -/
def shortname (arg : List UInt8) : Except String (List UInt8) := do
  let name := if arg.take 5 = userPrefix then arg.drop 5 else arg
  if (47 : UInt8) ∈ name then throw "index(shortname, '/') == 0"
  let name := if name.headD 0 = underscore then name.drop 1 else name
  if dirSiz < name.length then throw "strlen(shortname) <= DIRSIZ"
  pure name

/-- One argument of `mkfs`: a new file, its entry in the root, its contents. -/
def addFile (img : Image) (file : List UInt8 × List UInt8) : Except String Image := do
  let name ← shortname file.1
  let (img, inum) := ialloc img .file
  let img ← iappend img rootIno (Dirent.toBytes ⟨inum % 65536, strncpy name dirSiz⟩)
  appendFile inum file.2 img file.2.length

end Mkfs

/-- `mkfs fs.img files...`: the disk the kernel boots from. -/
def mkfs (files : List (List UInt8 × List UInt8)) : Except String Disk := do
  let (img, rootino) := Mkfs.ialloc Mkfs.Image.empty .dir
  let img ← Mkfs.iappend img rootino (Dirent.toBytes ⟨rootino, strncpy dot dirSiz⟩)
  let img ← Mkfs.iappend img rootino (Dirent.toBytes ⟨rootino, strncpy dotdot dirSiz⟩)
  let img ← files.foldlM Mkfs.addFile img
  -- fix size of root inode dir
  let din := img.inodes rootino
  let img := { img with
    inodes := Function.update img.inodes rootino { din with size := (din.size / bSize + 1) * bSize } }
  if bPB ≤ img.freeblock then throw "used < BPB"
  pure ⟨img.inodes, fun b => decide (b < img.freeblock), img.blocks⟩

/-! ### More files than inodes -/

/-- `n` empty files with two-letter names `aa`, `ab`, .... -/
def emptyFiles (n : Nat) : List (List UInt8 × List UInt8) :=
  (List.range n).map fun i => ([97 + (i / 26).toUInt8, 97 + (i % 26).toUInt8], [])

/-- `mkfs`'s `ialloc` never compares `freeinode` with `NINODES`: with 199 files the
last gets inode 200, past the `sb.ninodes = 200` inodes the kernel knows, and
`mkfs` succeeds. -/
theorem mkfs_inum_past_ninodes :
    ∃ disk, mkfs (emptyFiles 199) = .ok disk ∧ nInodes ≤ 200 ∧
      (disk.inodes 200).type = .file ∧ (disk.inodes 200).nlink = 1 := by
  have built : (match mkfs (emptyFiles 199) with
      | .ok disk => decide ((disk.inodes 200).type = .file ∧ (disk.inodes 200).nlink = 1)
      | .error _ => false) = true := by
    decide +kernel
  split at built
  · rename_i disk ok
    obtain ⟨file, linked⟩ := of_decide_eq_true built
    exact ⟨disk, ok, le_refl _, file, linked⟩
  · cases built

end Xv6.Fs
