import Xv6.Fs.Holes

/-!
Contract: what a write cut short by a failing user copy leaves in the file.

`writei` copies a chunk into the block before it knows whether the copy
succeeds: `either_copyin` copies the bytes of the pages it reaches and fails at
the first page that is not mapped. On that failure `writei` releases the block
without `log_write` and returns the bytes of the chunks before it; the bytes
the failed copy did move stay in the cached block, where `readi` reads them.

Owns: `writeLoop_short`, `writei_short_chunk`, and the image and call of
`writei` on which the file reads differently past what `writei` reports written.

Does not own: `writei` itself (`Xv6.Fs.State`).
-/

namespace Xv6.Fs

/-- A direct block of a file is named by the inode alone, whatever the disk. -/
theorem Disk.blockOf_direct (d d' : Disk) (din : Dinode) {bn : Nat} (direct : bn < nDirect) :
    d'.blockOf din bn = d.blockOf din bn := by
  simp [Disk.blockOf, direct]

/-- The disk with `bytes` copied into block `addr` from `start` on. -/
def Disk.writeBlock (d : Disk) (addr start : Nat) (bytes : List UInt8) : Disk :=
  { d with blocks := Function.update d.blocks addr ((d.blocks addr).write start bytes) }

/-- `writei`'s loop whose source runs out inside its first chunk, over a block
that is there: the bytes the source holds are copied into the block, and the
loop stops with nothing counted and no `log_write`. -/
theorem writeLoop_short {fs : FileSys} {ip : Fin nInode} {src : List UInt8} {n off fuel : Nat}
    (present : fs.disk.blockOf (fs.itable ip).din (off / bSize) ≠ 0)
    (cut : src.length < min n (bSize - off % bSize)) :
    (writeLoop ip src n 0 off (fuel + 1)).run fs =
      pure ((0, off), { fs with
        disk := fs.disk.writeBlock (fs.disk.blockOf (fs.itable ip).din (off / bSize)) (off % bSize) src }) := by
  have started : ¬ n ≤ 0 := by omega
  have whole : (src.drop 0).take (min (n - 0) (bSize - off % bSize)) = src := by
    rw [List.drop_zero, Nat.sub_zero]
    exact List.take_of_length_le (by omega)
  have short : src.length < min (n - 0) (bSize - off % bSize) := by omega
  simp only [writeLoop, StateT.run_bind, bmap_of_blockOf present, if_neg started, pure_bind,
    if_neg present, whole, short, if_true]
  rfl

/-- `log_write` in a transaction with room for one more block: it only records
the block, and the header grows by at most that block. -/
theorem logWrite_within {fs : FileSys} {lh : List Nat} (b : Nat) (inTrans : fs.trans = some lh)
    (room : lh.length + 1 < nlog) :
    ∃ lh', (logWrite b).run fs = pure ((), { fs with trans := some lh' }) ∧ lh'.length ≤ lh.length + 1 := by
  have fits : ¬ (logSize ≤ lh.length ∨ nlog - 1 ≤ lh.length) := by
    simp only [nlog, logSize_eq] at room ⊢
    omega
  simp only [logWrite, StateT.run_bind, StateT.run_get, pure_bind, inTrans, Option.getD_some, if_neg fits]
  split
  · -- absorbed: the header stays as it is
    exact ⟨lh, by rw [← inTrans]; rfl, by omega⟩
  · exact ⟨lh ++ [b], rfl, by simp⟩

/-- `log_write` in a transaction with room for one more block: it only records
the block. -/
theorem logWrite_of_room {fs : FileSys} {lh : List Nat} (b : Nat) (inTrans : fs.trans = some lh)
    (room : lh.length + 1 < nlog) : ∃ t, (logWrite b).run fs = pure ((), { fs with trans := t }) := by
  obtain ⟨lh', logged, -⟩ := logWrite_within b inTrans room
  exact ⟨some lh', logged⟩

/-- `iupdate` in a transaction with room: the inode goes back to the disk, and
nothing else changes but the transaction. -/
theorem iupdate_of_room {fs : FileSys} {lh : List Nat} (ip : Fin nInode) (inTrans : fs.trans = some lh)
    (room : lh.length + 1 < nlog) :
    ∃ t, (iupdate ip).run fs = pure ((), { fs with
      disk := { fs.disk with inodes := Function.update fs.disk.inodes (fs.itable ip).inum (fs.itable ip).din },
      trans := t }) := by
  obtain ⟨t, logged⟩ := @logWrite_of_room { fs with
    disk := { fs.disk with inodes := Function.update fs.disk.inodes (fs.itable ip).inum (fs.itable ip).din } }
    lh (iBlock (fs.itable ip).inum) inTrans room
  exact ⟨t, by simpa [iupdate, modifyDisk] using logged⟩

/-- **A short write.** `writei` in a transaction with room, at an offset whose
direct block is there, from a source that runs out inside the first chunk:
it returns 0, and yet every byte the source held is in the file from `off` on. -/
theorem writei_short_chunk {fs : FileSys} {ip : Fin nInode} {src : List UInt8} {off n : Nat}
    {lh : List Nat} (within : off ≤ (fs.itable ip).din.size) (fits : off + n ≤ maxFile * bSize)
    (noWrap : off + n < 2 ^ 32) (direct : off / bSize < nDirect)
    (present : fs.disk.blockOf (fs.itable ip).din (off / bSize) ≠ 0)
    (cut : src.length < min n (bSize - off % bSize))
    (inTrans : fs.trans = some lh) (room : lh.length + 1 < nlog) :
    ∃ fs', (writei ip src off n).run fs = .ok (0, fs') ∧ fs'.itable = fs.itable ∧
      ∀ i (inSrc : i < src.length), fs'.disk.byteAt (fs.itable ip).din (off + i) = src[i] := by
  obtain ⟨fuel, rfl⟩ : ∃ fuel, n = fuel + 1 := ⟨n - 1, by omega⟩
  have inRange : ¬ ((fs.itable ip).din.size < off ∨ (off + (fuel + 1)) % 2 ^ 32 < off) := by
    rw [Nat.mod_eq_of_lt noWrap]
    omega
  have fitsFile : ¬ maxFile * bSize < off + (fuel + 1) := by omega
  have notGrown : ¬ (fs.itable ip).din.size < off := by omega
  -- the copied state, in which `iupdate` writes the inode back
  let copied : FileSys := { fs with
    disk := fs.disk.writeBlock (fs.disk.blockOf (fs.itable ip).din (off / bSize)) (off % bSize) src }
  obtain ⟨t, updated⟩ := @iupdate_of_room copied lh ip inTrans room
  refine ⟨{ copied with
    disk := { copied.disk with inodes := Function.update copied.disk.inodes (fs.itable ip).inum (fs.itable ip).din },
    trans := t }, ?_, rfl, fun i inSrc => ?_⟩
  · simp only [writei, StateT.run_bind, StateT.run_get, pure_bind, if_neg inRange, if_neg fitsFile,
      writeLoop_short present cut]
    simp only [copied] at updated
    simp only [if_neg notGrown, StateT.run_bind, updated, pure_bind]
    rfl
  · -- the byte is in the same direct block, which now holds the source from `off % bSize` on
    have sameBlock : (off + i) / bSize = off / bSize := by
      have := cut
      simp only [bSize] at this ⊢
      omega
    have inBlock : (off + i) % bSize = off % bSize + i := by
      simp only [bSize] at cut ⊢
      omega
    simp only [Disk.byteAt, sameBlock, Disk.blockOf_direct fs.disk _ _ direct, if_neg present,
      copied, Disk.writeBlock, Function.update_self, inBlock, Block.write]
    rw [if_pos (by omega), Nat.add_sub_cancel_left, List.getD_eq_getElem?_getD, List.getElem?_eq_getElem inSrc, Option.getD_some]

/-! ### A write from a buffer whose second byte is not mapped -/

/-- The file `a`, holding the bytes 1 and 1. -/
def pairFile : List (List UInt8 × List UInt8) :=
  [([97], [1, 1])]

/-- What `filewrite` does with `write(fd, buf, 2)` when only `buf[0] = 7` is mapped,
tested on inode `ip`: `readi` reads 1, 1; after `begin_op` and `ilock`, `writei`
returns 0; `readi` then reads 7, 1. -/
def shortWriteShows (ip : Fin nInode) (fs : FileSys) : Bool :=
  returnsWith (readi ip 2 0 2) fs (fun r _ => r == (2, [1, 1])) &&
    returnsWith (beginOp *> ilock ip) fs fun _ fs1 =>
      returnsWith (writei ip [7] 0 2) fs1 fun r fs2 =>
        r == 0 && returnsWith (readi ip 2 0 2) fs2 fun r' _ => r' == (2, [7, 1])

/-- On the image holding `a` = 1, 1, once process 0 has opened `a` for reading
and writing, `writei` of two bytes from a source that faults after the byte 7
returns 0, and the file then reads 7, 1. -/
theorem short_write_changes_file :
    ∃ disk, mkfs pairFile = .ok disk ∧ ∃ fs, Reachable disk fs ∧ ∃ ip : Fin nInode,
      (∃ fs0, (readi ip 2 0 2).run fs = .ok ((2, [1, 1]), fs0)) ∧
      ∃ fs1, (beginOp *> ilock ip).run fs = .ok ((), fs1) ∧
      ∃ fs2, (writei ip [7] 0 2).run fs1 = .ok (0, fs2) ∧
      ∃ fs3, (readi ip 2 0 2).run fs2 = .ok ((2, [7, 1]), fs3) := by
  have passes : checkRun pairFile [(0, .open [97] oRdwr)]
      (fun fs => ((fs.procs 0).ofile 0).any fun f => shortWriteShows (fs.ftable f).ip fs) = true := by
    decide +kernel
  obtain ⟨disk, built, fs, reachable, holds⟩ := exists_reachable_of_checkRun passes
  obtain ⟨f, -, shows⟩ := (Option.any_eq_true _ _).mp holds
  simp only [shortWriteShows, Bool.and_eq_true] at shows
  obtain ⟨before, after⟩ := shows
  obtain ⟨r0, fs0, read0, same0⟩ := exists_of_returnsWith before
  obtain ⟨u, fs1, locked, wrote⟩ := exists_of_returnsWith after
  obtain ⟨r, fs2, written, checked⟩ := exists_of_returnsWith wrote
  simp only [Bool.and_eq_true, beq_iff_eq] at checked same0
  obtain ⟨rfl, reread⟩ := checked
  obtain ⟨r3, fs3, read3, same3⟩ := exists_of_returnsWith reread
  simp only [beq_iff_eq] at same3
  subst same0 same3
  exact ⟨disk, built, fs, reachable, _, ⟨fs0, read0⟩, fs1, locked, fs2, written, fs3, read3⟩

end Xv6.Fs
