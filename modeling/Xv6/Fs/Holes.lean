import Xv6.Fs.Namespace

/-!
Contract: when reading a file allocates. `bmap` of a block that is there
returns it and changes nothing, so `readi` over a file with no hole below its
size leaves the system exactly as it was; a hole is the one thing that makes a
read call `balloc`, and `fileread` runs outside any transaction.

Owns: `bmap_of_blockOf`, `readLoop_of_present`, `readi_of_present`, and the
image whose root directory has a hole, with the reads of it that panic.

Does not own: `readi` and `bmap` themselves (`Xv6.Fs.State`).
-/

namespace Xv6.Fs

/-- `bmap` of a block that is there: that block, nothing changed. -/
theorem bmap_of_blockOf {fs : FileSys} {ip : Fin nInode} {bn : Nat}
    (present : fs.disk.blockOf (fs.itable ip).din bn ≠ 0) :
    (bmap ip bn).run fs = pure (fs.disk.blockOf (fs.itable ip).din bn, fs) := by
  unfold Disk.blockOf at present ⊢
  by_cases direct : bn < nDirect
  · rw [dif_pos direct] at present ⊢
    simp [bmap, direct, bmapSlot, present]
  · rw [dif_neg direct] at present ⊢
    by_cases inRange : bn - nDirect < nIndirect
    · rw [if_pos inRange] at present ⊢
      have indirect : (fs.itable ip).din.addrs indirectSlot ≠ 0 := fun zero => by
        simp [zero] at present
      rw [if_neg indirect] at present ⊢
      simp [bmap, direct, inRange, bmapSlot, bmapEntry, indirect, present]
    · rw [if_neg inRange] at present
      exact absurd rfl present

/-- `readi`'s loop over blocks that are all there leaves the system as it was. -/
theorem readLoop_of_present {fs : FileSys} {ip : Fin nInode} (room n : Nat) :
    ∀ (fuel tot off : Nat) (acc : List UInt8),
      (∀ o, off ≤ o → o < off + (n - tot) → fs.disk.blockOf (fs.itable ip).din (o / bSize) ≠ 0) →
      ∃ result, (readLoop ip room n tot off acc fuel).run fs = pure (result, fs)
  | 0, tot, _, acc, _ => ⟨(tot, acc), rfl⟩
  | fuel + 1, tot, off, acc, present => by
    by_cases done : n ≤ tot
    · exact ⟨(tot, acc), by simp [readLoop, done]⟩
    have here := present off (Nat.le_refl off) (by omega)
    have mapped := bmap_of_blockOf here
    -- the rest of the range is what the next round reads
    have further : ∀ o, off + min (n - tot) (bSize - off % bSize) ≤ o →
        o < off + min (n - tot) (bSize - off % bSize) +
          (n - (tot + min (n - tot) (bSize - off % bSize))) →
        fs.disk.blockOf (fs.itable ip).din (o / bSize) ≠ 0 := fun o after before =>
      present o (by omega) (by omega)
    obtain ⟨result, ran⟩ := readLoop_of_present room n fuel _ _
      (acc ++ (fs.disk.blocks (fs.disk.blockOf (fs.itable ip).din (off / bSize))).read
        (off % bSize) (min (n - tot) (bSize - off % bSize))) further
    by_cases short : room < tot + min (n - tot) (bSize - off % bSize)
    · exact ⟨(-1, acc), by simp [readLoop, done, mapped, here, short]⟩
    · exact ⟨result, by simp [readLoop, done, mapped, here, short, ran]⟩

/-- A read of a file with no hole below its size changes nothing: it never
allocates, so it never reaches `log_write`. -/
theorem readi_of_present {fs : FileSys} {ip : Fin nInode} (room off n : Nat)
    (present : ∀ o, o < (fs.itable ip).din.size →
      fs.disk.blockOf (fs.itable ip).din (o / bSize) ≠ 0) :
    ∃ result, (readi ip room off n).run fs = pure (result, fs) := by
  simp only [readi, StateT.run_bind, StateT.run_get, pure_bind]
  split
  · exact ⟨(0, []), by simp⟩
  · rename_i within
    let count := if (fs.itable ip).din.size < off + n then (fs.itable ip).din.size - off else n
    have below : ∀ o, off ≤ o → o < off + (count - 0) → o < (fs.itable ip).din.size := by
      intro o _ before
      simp only [count] at before
      split at before <;> omega
    exact readLoop_of_present room count count 0 off []
      (fun o after before => present o (below o after before))

/-! ### An image whose root directory has a hole -/

/-- Sixty-two empty files named `aa` to `cj`: with `.` and `..`, their entries
fill the root's first block exactly. -/
def filledRootFiles : List (List UInt8 × List UInt8) :=
  (List.range 62).map fun i => ([UInt8.ofNat (97 + i / 26), UInt8.ofNat (97 + i % 26)], [])

/-- From that image, process 0 opens `/` for reading: the root's size says two
blocks, its second block is not there, and reading both blocks stops at
`log_write`'s panic, `fileread` holding no transaction. -/
theorem root_hole_read_panics :
    ∃ disk, mkfs filledRootFiles = .ok disk ∧ ∃ fs, Reachable disk fs ∧
      (fs.disk.inodes rootIno).size = 2 * bSize ∧
      fs.disk.blockOf (fs.disk.inodes rootIno) 1 = 0 ∧ (fs.procs 0).used = true ∧
      (syscall 0 (.read 0 (2 * bSize) (2 * bSize))).run fs = .error "log_write outside of trans" := by
  have passes : checkRun filledRootFiles [(0, .open [47] 0)] (fun fs =>
      decide ((fs.disk.inodes rootIno).size = 2 * bSize ∧
        fs.disk.blockOf (fs.disk.inodes rootIno) 1 = 0 ∧ (fs.procs 0).used = true) &&
      panicsWith (syscall 0 (.read 0 (2 * bSize) (2 * bSize))) fs "log_write outside of trans") =
      true := by
    decide +kernel
  obtain ⟨disk, built, fs, reachable, holds⟩ := exists_reachable_of_checkRun passes
  simp only [Bool.and_eq_true, decide_eq_true_eq] at holds
  obtain ⟨⟨size, hole, used⟩, panics⟩ := holds
  exact ⟨disk, built, fs, reachable, size, hole, used, run_eq_error_of_panicsWith panics⟩

/-- In the same state `readi` itself, asked for the root's second block with room
for it, does not return the 1024 bytes below the root's size: `bmap` allocates
the missing block and `log_write` panics. -/
theorem root_hole_readi_panics :
    ∃ disk, mkfs filledRootFiles = .ok disk ∧ ∃ fs, Reachable disk fs ∧
      (fs.itable 0).inum = rootIno ∧ (fs.itable 0).din.size = 2 * bSize ∧
      (fs.itable 0).din.size ≤ maxFile * bSize ∧
      (readi 0 bSize bSize bSize).run fs = .error "log_write outside of trans" := by
  have passes : checkRun filledRootFiles [(0, .open [47] 0)] (fun fs =>
      decide ((fs.itable 0).inum = rootIno ∧ (fs.itable 0).din.size = 2 * bSize) &&
      panicsWith (readi 0 bSize bSize bSize) fs "log_write outside of trans") = true := by
    decide +kernel
  obtain ⟨disk, built, fs, reachable, holds⟩ := exists_reachable_of_checkRun passes
  simp only [Bool.and_eq_true, decide_eq_true_eq] at holds
  obtain ⟨⟨root, size⟩, panics⟩ := holds
  refine ⟨disk, built, fs, reachable, root, size, ?_, run_eq_error_of_panicsWith panics⟩
  rw [size, maxFile_eq]
  decide

end Xv6.Fs
