import Mathlib.Tactic

/-!
Contract: the configuration constants of `kernel/param.h` and `kernel/fs.h`
that the modelled code reads, with the values the repository builds them with
(`LAB=util`, so `FSSIZE = 2000` and `NPROC = 64`).

Owns: the constants and the arithmetic facts about them that later modules use
by name. Does not own: any layout computed from them (`mkfs` owns that).
-/

namespace Xv6

/-- `MAXOPBLOCKS`: max # of blocks any FS op writes. -/
def maxOpBlocks : Nat := 10

/-- `LOGSIZE`: max data blocks in on-disk log. -/
def logSize : Nat := maxOpBlocks * 3

/-- `NBUF`: size of disk block cache. -/
def nBuf : Nat := maxOpBlocks * 3

/-- `ROOTDEV`: device number of file system root disk, the one disk, which also
holds the log (`log.dev`). -/
def rootDev : Nat := 1

/-- `FSSIZE`: size of file system in blocks. -/
def fsSize : Nat := 2000

/-- `BSIZE`: block size. -/
def bSize : Nat := 1024

/-- `NPROC`: maximum number of processes. -/
def nProc : Nat := 64

/-- `NOFILE`: open files per process. -/
def nOFile : Nat := 16

/-- `NFILE`: open files per system. -/
def nFile : Nat := 100

/-- `NINODE`: maximum number of active i-nodes. -/
def nInode : Nat := 50

/-- `NDEV`: maximum major device number. -/
def nDev : Nat := 10

/-- `MAXPATH`: maximum file path name. -/
def maxPath : Nat := 128

/-- `mkfs`'s `nlog`: the blocks it reserves for the log, header block included,
which `initlog` takes as `log.size`. -/
def nlog : Nat := logSize

/-- `mkfs`'s `sb.logstart`: the log follows the boot block and the superblock. -/
def logStart : Nat := 2

theorem logSize_eq : logSize = 30 := rfl

theorem nBuf_eq : nBuf = 30 := rfl

instance : NeZero nBuf := ⟨by decide⟩

instance : NeZero nProc := ⟨by decide⟩

instance : NeZero nOFile := ⟨by decide⟩

instance : NeZero nFile := ⟨by decide⟩

instance : NeZero nInode := ⟨by decide⟩

end Xv6
