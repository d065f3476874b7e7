import Xv6.Param

/-!
Contract: the on-disk format of the file system (`kernel/fs.h`, `kernel/stat.h`)
as `mkfs` lays it out: where the inode blocks and the free bitmap lie, what a
disk inode holds, the bytes of a block, the 4-byte block numbers of an indirect
block, the 16 bytes of a directory entry, and the C string routines the
directory code compares and copies names with (`kernel/string.c`).

Owns: the layout constants, `IType`, `Dinode`, `Block` with its word and range
accessors, `Dirent` with its byte codec, `strncmp`, `strncpy`, `namecmp`, and
the round trips and frame facts of these codecs.

Does not own: any operation on a disk or an inode (`Xv6.Fs.State` owns those).
-/

namespace Xv6.Fs

/-! ### Layout constants -/

/-- `NDIRECT`. -/
def nDirect : Nat := 12

/-- `NINDIRECT`: the `uint` block numbers one block holds. -/
def nIndirect : Nat := bSize / 4

/-- `MAXFILE`, in blocks. -/
def maxFile : Nat := nDirect + nIndirect

/-- `DIRSIZ`: the bytes of a name in a directory entry. -/
def dirSiz : Nat := 14

/-- `ROOTINO`: the root i-number. -/
def rootIno : Nat := 1

/-- `IPB`: inodes per block, a `struct dinode` being 64 bytes. -/
def iPB : Nat := bSize / 64

/-- `BPB`: bitmap bits per block. -/
def bPB : Nat := bSize * 8

/-- `mkfs`'s `NINODES`, which the kernel reads back as `sb.ninodes`. -/
def nInodes : Nat := 200

/-- `mkfs`'s `nbitmap`. -/
def nBitmap : Nat := fsSize / bPB + 1

/-- `mkfs`'s `ninodeblocks`. -/
def nInodeBlocks : Nat := nInodes / iPB + 1

/-- `sb.inodestart`: the inode blocks follow the log. -/
def inodeStart : Nat := logStart + nlog

/-- `sb.bmapstart`: the bitmap follows the inode blocks. -/
def bmapStart : Nat := inodeStart + nInodeBlocks

/-- `mkfs`'s `nmeta`: boot block, superblock, log, inode blocks and bitmap; the
data blocks are `[nMeta, fsSize)`. -/
def nMeta : Nat := 2 + nlog + nInodeBlocks + nBitmap

/-- `IBLOCK(i, sb)`: the block holding inode `i`. -/
def iBlock (inum : Nat) : Nat := inum / iPB + inodeStart

/-- `BBLOCK(b, sb)`: the bitmap block holding the bit of block `b`. -/
def bBlock (b : Nat) : Nat := b / bPB + bmapStart

theorem nMeta_eq : nMeta = 46 := rfl

theorem maxFile_eq : maxFile = 268 := rfl

/-! ### Disk inodes -/

/-- The `type` of an inode (`kernel/stat.h`): `T_DIR` 1, `T_FILE` 2, `T_DEVICE` 3,
and the 0 of a free inode. -/
inductive IType where
  | free
  | dir
  | file
  | device
  deriving DecidableEq, Repr

/-- `struct dinode`. The `short` fields keep their 16 bits, so that `nlink++`
wraps as the kernel's does. -/
structure Dinode where
  type : IType
  major : Int16
  minor : Int16
  nlink : Int16
  size : Nat
  addrs : Fin (nDirect + 1) → Nat

/-- A zeroed `struct dinode`, as `mkfs` writes every inode and `ialloc` clears one. -/
def Dinode.zero : Dinode := ⟨.free, 0, 0, 0, 0, fun _ => 0⟩

/-- `addrs[NDIRECT]`, the slot of the indirect block. -/
def indirectSlot : Fin (nDirect + 1) := Fin.last nDirect

/-- `addrs[bn]` for a direct block `bn < NDIRECT`. -/
def directSlot (bn : Fin nDirect) : Fin (nDirect + 1) := bn.castSucc

theorem directSlot_ne_indirectSlot (bn : Fin nDirect) : directSlot bn ≠ indirectSlot :=
  Fin.castSucc_ne_last bn

/-! ### Blocks -/

/-- The bytes of a disk block; only the first `BSIZE` are ever read. -/
abbrev Block := Nat → UInt8

/-- A zeroed block (`bzero`, and every block of a fresh `mkfs` image). -/
def Block.zero : Block := fun _ => 0

/-- `((uint*)bp->data)[j]`: the little-endian `uint` at index `j`. -/
def Block.word (blk : Block) (j : Nat) : Nat :=
  (blk (4 * j)).toNat + 256 * (blk (4 * j + 1)).toNat +
    65536 * (blk (4 * j + 2)).toNat + 16777216 * (blk (4 * j + 3)).toNat

/-- `((uint*)bp->data)[j] = v`. -/
def Block.setWord (blk : Block) (j v : Nat) : Block := fun i =>
  if i / 4 = j then UInt8.ofNat (v / 256 ^ (i % 4)) else blk i

/-- `memmove(bp->data + start, bytes, len)`: the bytes copied into a block. -/
def Block.write (blk : Block) (start : Nat) (bytes : List UInt8) : Block := fun i =>
  if start ≤ i ∧ i < start + bytes.length then bytes.getD (i - start) 0 else blk i

/-- The `m` bytes of a block from `start` on. -/
def Block.read (blk : Block) (start m : Nat) : List UInt8 :=
  (List.range m).map fun i => blk (start + i)

@[simp] theorem Block.word_zero (j : Nat) : Block.zero.word j = 0 := rfl

@[simp] theorem Block.read_length (blk : Block) (start m : Nat) : (blk.read start m).length = m := by
  simp [Block.read]

theorem Block.word_setWord_self (blk : Block) (j : Nat) {v : Nat} (fits : v < 2 ^ 32) :
    (blk.setWord j v).word j = v := by
  have byte : ∀ k, k < 4 → blk.setWord j v (4 * j + k) = UInt8.ofNat (v / 256 ^ k) := by
    intro k small
    simp only [Block.setWord]
    rw [if_pos (by omega), show (4 * j + k) % 4 = k by omega]
  have first : blk.setWord j v (4 * j) = UInt8.ofNat v := by simpa using byte 0 (by omega)
  have low : ∀ x, (UInt8.ofNat x).toNat = x % 256 := fun x => by simp
  have bound : v < 4294967296 := fits
  simp only [Block.word]
  rw [first, byte 1 (by omega), byte 2 (by omega), byte 3 (by omega), low, low, low, low]
  simp only [Nat.reducePow, Nat.pow_one]
  omega

theorem Block.word_setWord_of_ne (blk : Block) {j k : Nat} (v : Nat) (other : k ≠ j) :
    (blk.setWord j v).word k = blk.word k := by
  have away : ∀ i, i < 4 → (4 * k + i) / 4 ≠ j := fun i small => by omega
  simp only [Block.word, Block.setWord]
  rw [if_neg (by omega), if_neg (away 1 (by omega)), if_neg (away 2 (by omega)),
    if_neg (away 3 (by omega))]

theorem Block.write_of_lt (blk : Block) {start i : Nat} (bytes : List UInt8) (before : i < start) :
    blk.write start bytes i = blk i := by
  simp only [Block.write]
  rw [if_neg (by omega)]

theorem Block.write_of_ge (blk : Block) {start i : Nat} (bytes : List UInt8)
    (after : start + bytes.length ≤ i) : blk.write start bytes i = blk i := by
  simp only [Block.write]
  rw [if_neg (by omega)]

theorem Block.read_write_self (blk : Block) (start : Nat) (bytes : List UInt8) :
    (blk.write start bytes).read start bytes.length = bytes := by
  apply List.ext_getElem (by simp)
  intro i inRead inBytes
  simp only [Block.read, List.getElem_map, List.getElem_range, Block.write]
  rw [if_pos (by omega), Nat.add_sub_cancel_left]
  simp [inBytes]

/-- Reading a range that a write does not touch sees the block as it was. -/
theorem Block.read_write_of_disjoint (blk : Block) {start at' m : Nat} (bytes : List UInt8)
    (apart : at' + m ≤ start ∨ start + bytes.length ≤ at') :
    (blk.write start bytes).read at' m = blk.read at' m := by
  apply List.ext_getElem (by simp)
  intro i inRead _
  simp only [Block.read, List.getElem_map, List.getElem_range, Block.write]
  simp only [Block.read_length] at inRead
  rw [if_neg (by omega)]

/-! ### Names -/

/-- `strncmp(p, q, n)` of `kernel/string.c`, a list standing for the bytes of a C
string before its terminating 0. -/
def strncmp (p q : List UInt8) : Nat → Int
  | 0 => 0
  | n + 1 =>
    if p.headD 0 ≠ 0 ∧ p.headD 0 = q.headD 0 then strncmp p.tail q.tail n
    else ((p.headD 0).toNat : Int) - (q.headD 0).toNat

/-- `strncpy(s, t, n)`: the `n` bytes it stores, `t` up to its 0 and then zeros. -/
def strncpy : List UInt8 → Nat → List UInt8
  | _, 0 => []
  | [], n + 1 => List.replicate (n + 1) 0
  | c :: t, n + 1 => if c = 0 then List.replicate (n + 1) 0 else c :: strncpy t n

/-- `namecmp`: `strncmp` over at most `DIRSIZ` bytes. -/
def namecmp (s t : List UInt8) : Int :=
  strncmp s t dirSiz

/-- The name `"."`. -/
def dot : List UInt8 := [46]

/-- The name `".."`. -/
def dotdot : List UInt8 := [46, 46]

/-- The C string a byte list holds: its bytes before the first 0. -/
def cstr (bytes : List UInt8) : List UInt8 :=
  bytes.takeWhile (· ≠ 0)

@[simp] theorem strncpy_length (t : List UInt8) (n : Nat) : (strncpy t n).length = n := by
  induction n generalizing t with
  | zero => cases t <;> rfl
  | succ n ih =>
    cases t with
    | nil => simp [strncpy]
    | cons c t =>
      by_cases zero : c = 0
      · simp [strncpy, zero]
      · simp [strncpy, zero, ih]

theorem cstr_take_succ (p : List UInt8) (n : Nat) :
    cstr (p.take (n + 1)) = if p.headD 0 = 0 then [] else p.headD 0 :: cstr (p.tail.take n) := by
  cases p with
  | nil => simp [cstr]
  | cons a p =>
    by_cases zero : a = 0
    · simp [cstr, zero]
    · simp [cstr, zero]

/-- `strncmp` finds two strings equal exactly when their first `n` bytes hold the
same C string. -/
theorem strncmp_eq_zero_iff (p q : List UInt8) (n : Nat) :
    strncmp p q n = 0 ↔ cstr (p.take n) = cstr (q.take n) := by
  induction n generalizing p q with
  | zero => simp [strncmp, cstr]
  | succ n ih =>
    rw [strncmp, cstr_take_succ, cstr_take_succ]
    generalize p.headD 0 = a
    generalize q.headD 0 = b
    by_cases zero : a = 0
    · subst zero
      by_cases zero' : b = 0
      · simp [zero']
      · have nonzero : b.toNat ≠ 0 := fun eq => zero' (UInt8.toNat_inj.mp eq)
        simp [zero', Ne.symm zero', nonzero]
    · by_cases same : a = b
      · subst same
        simp [zero, ih]
      · have apart : (a.toNat : Int) - b.toNat ≠ 0 := by
          have : a.toNat ≠ b.toNat := fun eq => same (UInt8.toNat_inj.mp eq)
          omega
        have nonzero : a.toNat ≠ 0 := fun eq => zero (UInt8.toNat_inj.mp eq)
        by_cases zero' : b = 0 <;> simp [zero, zero', same, apart, nonzero]

/-! ### Directory entries -/

/-- `struct dirent`: an inode number (`ushort`) and the `DIRSIZ` bytes of a name;
inode number 0 marks a free entry. -/
structure Dirent where
  inum : Nat
  name : List UInt8

/-- `sizeof(struct dirent)`. -/
def direntSize : Nat := 16

/-- The 16 bytes of an entry as it lies in a directory's data. -/
def Dirent.toBytes (de : Dirent) : List UInt8 :=
  [UInt8.ofNat de.inum, UInt8.ofNat (de.inum / 256)] ++ de.name

/-- The entry that 16 bytes of a directory's data hold. -/
def Dirent.ofBytes (bytes : List UInt8) : Dirent :=
  ⟨(bytes.getD 0 0).toNat + 256 * (bytes.getD 1 0).toNat, (bytes.drop 2).take dirSiz⟩

@[simp] theorem Dirent.toBytes_length (de : Dirent) :
    de.toBytes.length = 2 + de.name.length := by
  simp only [Dirent.toBytes, List.length_append, List.length_cons, List.length_nil]

theorem Dirent.ofBytes_toBytes {de : Dirent} (fits : de.inum < 65536)
    (named : de.name.length = dirSiz) : Dirent.ofBytes de.toBytes = de := by
  obtain ⟨inum, name⟩ := de
  have low : ∀ x, (UInt8.ofNat x).toNat = x % 256 := fun x => by simp
  simp only [Dirent.ofBytes, Dirent.toBytes, Dirent.mk.injEq] at *
  refine ⟨?_, ?_⟩
  · simp only [List.cons_append, List.nil_append, List.getD_cons_zero, List.getD_cons_succ,
      low]
    omega
  · simp [← named]

end Xv6.Fs
