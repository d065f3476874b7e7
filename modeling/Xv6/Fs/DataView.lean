import Xv6.Fs.Holes
import Xv6.Fs.Places

/-!
Contract: what `readi` returns and what a successful `writei` leaves, in the
terms of the data view `Disk.byteAt` of an inode.

A read of a file with no hole returns the bytes of the view, and changes
nothing; a read through a hole has `bmap` put a zeroed block there, so the
file reads as before (`Filled`). A write puts its bytes into the view at its offset, one piece a block,
and keeps every other byte of the file below its size, when the blocks the file
keeps are marked in use and kept at one place each (`Separate`): `bmap` may then
allocate, but only blocks the file does not keep, and it keeps the blocks apart
(`Mapped.separate`), so the next piece starts from the same condition.

Owns: `Disk.byteAt_add`, `readLoop_bytes`, `readi_bytes`, `Separate` and how
`bmap`'s changes keep it, the frame of `balloc` and `bmap` over the data view,
`Written` with how two writes compose, `writeLoop_written`, `writei_written`,
`Filled` and `readi_filled`.

Does not own: `readi`, `writei` and `bmap` (`Xv6.Fs.State`), the places of an
inode's blocks (`Xv6.Fs.Places`).
-/

namespace Xv6.Fs

/-! ### Reading -/

/-- Byte `off + i` of a file, within the block of byte `off`. -/
theorem Disk.byteAt_add (d : Disk) (din : Dinode) {off i : Nat} (within : off % bSize + i < bSize) :
    d.byteAt din (off + i) =
      if d.blockOf din (off / bSize) = 0 then 0 else d.blocks (d.blockOf din (off / bSize)) (off % bSize + i) := by
  have sameBlock : (off + i) / bSize = off / bSize := by
    simp only [bSize] at within ⊢
    omega
  have inBlock : (off + i) % bSize = off % bSize + i := by
    simp only [bSize] at within ⊢
    omega
  rw [Disk.byteAt, sameBlock, inBlock]

/-- `readi`'s loop over blocks that are all there, with room for every byte:
it returns the bytes of the view from `off` on and changes nothing. -/
theorem readLoop_bytes {fs : FileSys} {ip : Fin nInode} {room n : Nat} (roomy : n ≤ room) :
    ∀ (fuel tot off : Nat) (acc : List UInt8), tot ≤ n → n ≤ tot + fuel →
      (∀ o, off ≤ o → o < off + (n - tot) → fs.disk.blockOf (fs.itable ip).din (o / bSize) ≠ 0) →
      (readLoop ip room n tot off acc fuel).run fs =
        pure ((((n : Nat) : Int), acc ++ (List.range (n - tot)).map (fun i => fs.disk.byteAt (fs.itable ip).din (off + i))), fs)
  | 0, tot, off, acc, upTo, enough, _ => by
    have done : n - tot = 0 := by omega
    simp only [readLoop, done, List.range_zero, List.map_nil, List.append_nil]
    rw [show tot = n by omega]
    rfl
  | fuel + 1, tot, off, acc, upTo, enough, present => by
    by_cases done : n ≤ tot
    · have none : n - tot = 0 := by omega
      simp only [readLoop, done, if_true, none, List.range_zero, List.map_nil, List.append_nil]
      rw [show tot = n by omega]
      rfl
    have here := present off (Nat.le_refl off) (by omega)
    let m := min (n - tot) (bSize - off % bSize)
    have positive : 0 < m := by simp only [m, bSize] at *; omega
    -- the round's bytes are the view's, all in the block of byte `off`
    have chunk : (fs.disk.blocks (fs.disk.blockOf (fs.itable ip).din (off / bSize))).read (off % bSize) m =
        (List.range m).map fun i => fs.disk.byteAt (fs.itable ip).din (off + i) := by
      apply List.ext_getElem (by simp)
      intro i inRead _
      simp only [Block.read_length] at inRead
      simp only [Block.read, List.getElem_map, List.getElem_range]
      rw [Disk.byteAt_add _ _ (by omega), if_neg here]
    have further : ∀ o, off + m ≤ o → o < off + m + (n - (tot + m)) →
        fs.disk.blockOf (fs.itable ip).din (o / bSize) ≠ 0 := fun o after before =>
      present o (by omega) (by omega)
    have rest := readLoop_bytes roomy fuel (tot + m) (off + m)
      (acc ++ (List.range m).map fun i => fs.disk.byteAt (fs.itable ip).din (off + i)) (by omega) (by omega) further
    have fits : ¬ room < tot + m := by omega
    simp only [readLoop, done, if_false, StateT.run_bind, bmap_of_blockOf here, pure_bind, if_neg here]
    rw [show min (n - tot) (bSize - off % bSize) = m from rfl, if_neg fits]
    simp only [StateT.run_bind, StateT.run_get, pure_bind]
    rw [chunk, rest]
    -- the two stretches of the view join into one
    have joined : n - tot = m + (n - (tot + m)) := by omega
    have shifted : (List.range (n - (tot + m))).map (fun i => fs.disk.byteAt (fs.itable ip).din (off + m + i)) =
        (List.range (n - (tot + m))).map ((fun i => fs.disk.byteAt (fs.itable ip).din (off + i)) ∘ fun x => m + x) := by
      apply List.map_congr_left
      intro i _
      simp [Nat.add_assoc]
    rw [joined, List.range_add, List.map_append, List.map_map, List.append_assoc, shifted]

/-- A read inside the size of a file with no hole below its size, with room for
every byte: `readi` returns the bytes of the view and changes nothing. -/
theorem readi_bytes {fs : FileSys} {ip : Fin nInode} {room off n : Nat}
    (inside : off + n ≤ (fs.itable ip).din.size) (noWrap : off + n < 2 ^ 32) (roomy : n ≤ room)
    (present : ∀ o, o < (fs.itable ip).din.size → fs.disk.blockOf (fs.itable ip).din (o / bSize) ≠ 0) :
    (readi ip room off n).run fs =
      pure ((((n : Nat) : Int), (List.range n).map (fun i => fs.disk.byteAt (fs.itable ip).din (off + i))), fs) := by
  have inRange : ¬ ((fs.itable ip).din.size < off ∨ (off + n) % 2 ^ 32 < off) := by
    rw [Nat.mod_eq_of_lt noWrap]
    omega
  have unclipped : ¬ (fs.itable ip).din.size < off + n := by omega
  simp only [readi, StateT.run_bind, StateT.run_get, pure_bind, if_neg inRange, if_neg unclipped]
  have := @readLoop_bytes fs ip room n roomy n 0 off [] (Nat.zero_le n) (by omega)
    (fun o _ before => present o (by omega))
  simpa using this

/-! ### The places of file blocks -/

/-- The place that keeps file block `bn` below `MAXFILE`: a direct slot, else an
entry of the indirect block. -/
def Place.ofBlock (bn : Nat) : Place :=
  if direct : bn < nDirect then .direct ⟨bn, direct⟩
  else if entry : bn - nDirect < nIndirect then .entry ⟨bn - nDirect, entry⟩
  else .indirect

/-- A file block below `MAXFILE` past the direct ones is an entry of the
indirect block. -/
theorem entry_of_lt_maxFile {bn : Nat} (inFile : bn < maxFile) (indirect : ¬ bn < nDirect) :
    bn - nDirect < nIndirect := by
  simp only [maxFile, nDirect, nIndirect, bSize] at inFile indirect ⊢
  omega

theorem Disk.blockOf_eq_blockAt (d : Disk) (din : Dinode) {bn : Nat} (inFile : bn < maxFile) :
    d.blockOf din bn = din.blockAt d.blocks (Place.ofBlock bn) := by
  unfold Disk.blockOf Place.ofBlock
  split
  · rfl
  · rename_i indirect
    rw [if_pos (entry_of_lt_maxFile inFile indirect), dif_pos (entry_of_lt_maxFile inFile indirect)]
    rfl

theorem Place.ofBlock_ne_indirect {bn : Nat} (inFile : bn < maxFile) : Place.ofBlock bn ≠ .indirect := by
  unfold Place.ofBlock
  split
  · exact Place.noConfusion
  · rename_i indirect
    rw [dif_pos (entry_of_lt_maxFile inFile indirect)]
    exact Place.noConfusion

theorem Place.ofBlock_injective {bn bn' : Nat} (inFile : bn < maxFile) (inFile' : bn' < maxFile)
    (same : Place.ofBlock bn = Place.ofBlock bn') : bn = bn' := by
  unfold Place.ofBlock at same
  by_cases direct : bn < nDirect <;> by_cases direct' : bn' < nDirect
  · rw [dif_pos direct, dif_pos direct'] at same
    simpa using same
  · rw [dif_pos direct, dif_neg direct', dif_pos (entry_of_lt_maxFile inFile' direct')] at same
    cases same
  · rw [dif_neg direct, dif_pos (entry_of_lt_maxFile inFile direct), dif_pos direct'] at same
    cases same
  · rw [dif_neg direct, dif_pos (entry_of_lt_maxFile inFile direct), dif_neg direct',
      dif_pos (entry_of_lt_maxFile inFile' direct')] at same
    simp only [Place.entry.injEq, Fin.mk.injEq] at same
    simp only [nDirect] at direct direct' same
    omega

/-- A file block that is there lies below `MAXFILE`. -/
theorem Disk.lt_maxFile_of_blockOf {d : Disk} {din : Dinode} {bn : Nat} (nz : d.blockOf din bn ≠ 0) :
    bn < maxFile := by
  by_contra past
  apply nz
  simp only [maxFile] at past
  simp [Disk.blockOf, show ¬ bn < nDirect by omega, show ¬ bn - nDirect < nIndirect by omega]

theorem Place.ofBlock_direct (j : Fin nDirect) : Place.ofBlock j = .direct j := by
  simp [Place.ofBlock, j.isLt]

theorem Place.ofBlock_entry {bn : Nat} (inFile : bn < maxFile) (indirect : ¬ bn < nDirect) :
    Place.ofBlock bn = .entry ⟨bn - nDirect, entry_of_lt_maxFile inFile indirect⟩ := by
  simp [Place.ofBlock, indirect, entry_of_lt_maxFile inFile indirect]

/-- Where every place of a file but the indirect slot and that of block `bn` kept
its block, every other file block is where it was. -/
theorem Disk.blockOf_of_kept {d d' : Disk} {din din' : Dinode} {bn : Nat} (inFile : bn < maxFile)
    (kept : ∀ p, p ≠ .indirect → p ≠ Place.ofBlock bn → din'.blockAt d'.blocks p = din.blockAt d.blocks p)
    {bn' : Nat} (other : bn' ≠ bn) : d'.blockOf din' bn' = d.blockOf din bn' := by
  by_cases inFile' : bn' < maxFile
  · rw [d'.blockOf_eq_blockAt din' inFile', d.blockOf_eq_blockAt din inFile']
    exact kept _ (Place.ofBlock_ne_indirect inFile') fun same =>
      other (Place.ofBlock_injective inFile' inFile same)
  · -- past `MAXFILE` no file has a block
    have beyond : ∀ (e : Disk) (f : Dinode), e.blockOf f bn' = 0 := fun e f => by
      by_contra nz
      exact inFile' (Disk.lt_maxFile_of_blockOf nz)
    rw [beyond, beyond]

/-! ### Blocks kept apart -/

/-- The blocks `din` keeps are marked in use and kept at one place each. -/
structure Separate (d : Disk) (din : Dinode) : Prop where
  marked : ∀ p, din.blockAt d.blocks p ≠ 0 → d.bitmap (din.blockAt d.blocks p) = true
  apart : ∀ p q, din.blockAt d.blocks p ≠ 0 → din.blockAt d.blocks p = din.blockAt d.blocks q → p = q

namespace Separate

variable {d : Disk} {din : Dinode}

/-- A block the file keeps is not a free one. -/
theorem blockOf_ne_free (separate : Separate d din) {bn b : Nat} (nz : d.blockOf din bn ≠ 0)
    (free : d.bitmap b = false) : d.blockOf din bn ≠ b := by
  intro same
  have marked := separate.marked (Place.ofBlock bn)
    (by rwa [← d.blockOf_eq_blockAt din (Disk.lt_maxFile_of_blockOf nz)])
  rw [← d.blockOf_eq_blockAt din (Disk.lt_maxFile_of_blockOf nz), same, free] at marked
  cases marked

/-- The indirect block is not a free one. -/
theorem indirect_ne_free (separate : Separate d din) {b : Nat} (nz : din.addrs indirectSlot ≠ 0)
    (free : d.bitmap b = false) : din.addrs indirectSlot ≠ b := by
  intro same
  have marked := separate.marked .indirect nz
  simp only [Dinode.blockAt, same, free] at marked
  cases marked

/-- Two file blocks are two disk blocks. -/
theorem blockOf_ne (separate : Separate d din) {bn bn' : Nat} (other : bn ≠ bn')
    (nz : d.blockOf din bn' ≠ 0) : d.blockOf din bn ≠ d.blockOf din bn' := by
  intro same
  have inFile' := Disk.lt_maxFile_of_blockOf nz
  have inFile := Disk.lt_maxFile_of_blockOf (same ▸ nz)
  rw [d.blockOf_eq_blockAt din inFile, d.blockOf_eq_blockAt din inFile'] at same
  rw [d.blockOf_eq_blockAt din inFile'] at nz
  exact other (Place.ofBlock_injective inFile inFile' (separate.apart _ _ nz same.symm).symm)

/-- A file block is not the indirect block. -/
theorem blockOf_ne_indirect (separate : Separate d din) {bn : Nat} (nz : d.blockOf din bn ≠ 0) :
    d.blockOf din bn ≠ din.addrs indirectSlot := by
  intro same
  have inFile := Disk.lt_maxFile_of_blockOf nz
  rw [d.blockOf_eq_blockAt din inFile] at same nz
  exact Place.ofBlock_ne_indirect inFile (separate.apart _ .indirect nz same)

/-- The indirect slot holds no free block. -/
theorem indirect_ne_fresh (separate : Separate d din) {a : Nat} (free : d.bitmap a = false) (nz : a ≠ 0) :
    din.addrs indirectSlot ≠ a := by
  by_cases there : din.addrs indirectSlot = 0
  · rw [there]
    exact Ne.symm nz
  · exact separate.indirect_ne_free there free

/-- **A fresh block at one place.** A free block put at place `P`, its bit set,
keeps the blocks apart. -/
theorem add {d' : Disk} {din' : Dinode} (separate : Separate d din) {P : Place} {a : Nat}
    (free : d.bitmap a = false) (nz : a ≠ 0) (bitmap : d'.bitmap = Function.update d.bitmap a true)
    (places : ∀ p, din'.blockAt d'.blocks p = if p = P then a else din.blockAt d.blocks p) :
    Separate d' din' := by
  -- no block the file kept is the fresh one
  have old : ∀ p, din.blockAt d.blocks p ≠ 0 → din.blockAt d.blocks p ≠ a := fun p kept same => by
    have marked := separate.marked p kept
    rw [same, free] at marked
    cases marked
  refine ⟨fun p kept => ?_, fun p q kept same => ?_⟩
  · rw [places] at kept
    rw [bitmap, places]
    by_cases here : p = P
    · rw [if_pos here, Function.update_self]
    · rw [if_neg here] at kept ⊢
      rw [Function.update_of_ne (old p kept)]
      exact separate.marked p kept
  · rw [places] at kept
    rw [places, places] at same
    by_cases here : p = P <;> by_cases there : q = P
    · rw [here, there]
    · rw [if_pos here, if_neg there] at same
      exact absurd same.symm (old q (same ▸ nz))
    · rw [if_neg here, if_pos there] at same
      rw [if_neg here] at kept
      exact absurd same (old p kept)
    · rw [if_neg here, if_neg there] at same
      rw [if_neg here] at kept
      exact separate.apart p q kept same

/-- Writing a block other than the indirect one keeps the blocks apart. -/
theorem write (separate : Separate d din) {b : Nat} (notIndirect : din.addrs indirectSlot ≠ b) (blk : Block) :
    Separate { d with blocks := Function.update d.blocks b blk } din := by
  have moved := din.blockAt_update_blocks d.blocks notIndirect blk
  refine ⟨fun p kept => ?_, fun p q kept same => ?_⟩
  · rw [moved] at kept ⊢
    exact separate.marked p kept
  · rw [moved, moved] at same
    rw [moved] at kept
    exact separate.apart p q kept same

end Separate

/-! ### What `bmap` changes -/

section Frames

open Hoare

/-- `balloc` returning a block: one whose bit was clear, now marked and zeroed. -/
theorem balloc_fresh (fs0 : FileSys) :
    Triple (· = fs0) balloc (fun b fs => b ≠ 0 → fs0.disk.bitmap b = false ∧ b < fsSize ∧
      ∃ t, fs = { fs0 with
        disk := { fs0.disk with
          bitmap := Function.update fs0.disk.bitmap b true
          blocks := Function.update fs0.disk.blocks b Block.zero }
        trans := t }) Allowed := by
  rintro s rfl
  simp only [balloc, StateT.run_bind, StateT.run_get, pure_bind]
  cases found : freeBlock s.disk.bitmap with
  | none =>
    simp only [StateT.run_pure, holds_pure]
    exact fun zero => absurd rfl zero
  | some b =>
    obtain ⟨inDisk, free⟩ := freeBlock_spec found
    simp only [modifyDisk, bzero, StateT.run_bind, StateT.run_modify, pure_bind]
    refine holds_logWrite_bind fun t => ?_
    refine holds_logWrite_bind fun t' => ?_
    simp only [StateT.run_pure, holds_pure]
    exact fun _ => ⟨free, inDisk, t', rfl⟩

/-- `bmapSlot` returning a block: the one in the slot, nothing changed, or a
fresh one put into the empty slot. -/
theorem bmapSlot_frame (fs0 : FileSys) (ip : Fin nInode) (slot : Fin (nDirect + 1)) :
    Triple (· = fs0) (bmapSlot ip slot) (fun a fs => a ≠ 0 →
      ((fs0.itable ip).din.addrs slot = a ∧ fs = fs0) ∨
      ((fs0.itable ip).din.addrs slot = 0 ∧ fs0.disk.bitmap a = false ∧ a < fsSize ∧ ∃ t, fs = { fs0 with
        disk := { fs0.disk with
          bitmap := Function.update fs0.disk.bitmap a true
          blocks := Function.update fs0.disk.blocks a Block.zero }
        itable := Function.update fs0.itable ip { fs0.itable ip with
          din := { (fs0.itable ip).din with addrs := Function.update (fs0.itable ip).din.addrs slot a } }
        trans := t })) Allowed := by
  rintro s rfl
  simp only [bmapSlot, StateT.run_bind, StateT.run_get, pure_bind]
  split
  · rw [StateT.run_pure, holds_pure]
    exact fun _ => .inl ⟨rfl, rfl⟩
  · rename_i absent
    rw [StateT.run_bind]
    refine (balloc_fresh s s rfl).bind fun a s1 fresh => ?_
    split
    · simp only [StateT.run_pure, holds_pure]
      exact fun nz => absurd rfl nz
    · rename_i nz
      obtain ⟨free, inDisk, t, rfl⟩ := fresh nz
      simp only [setAddr, setDin, setInode, StateT.run_bind, StateT.run_modify, pure_bind, StateT.run_pure,
        holds_pure]
      exact fun _ => .inr ⟨not_not.mp absent, free, inDisk, t, rfl⟩

/-- `bmapEntry` returning a block: the one in the entry, nothing changed, or a
fresh one written into the empty entry. -/
theorem bmapEntry_frame (fs0 : FileSys) (ind j : Nat) :
    Triple (· = fs0) (bmapEntry ind j) (fun a fs => a ≠ 0 →
      ((fs0.disk.blocks ind).word j = a ∧ fs = fs0) ∨
      ((fs0.disk.blocks ind).word j = 0 ∧ fs0.disk.bitmap a = false ∧ a < fsSize ∧ ∃ t, fs = { fs0 with
        disk := { fs0.disk with
          bitmap := Function.update fs0.disk.bitmap a true
          blocks := Function.update (Function.update fs0.disk.blocks a Block.zero) ind
            ((Function.update fs0.disk.blocks a Block.zero ind).setWord j a) }
        trans := t })) Allowed := by
  rintro s rfl
  simp only [bmapEntry, StateT.run_bind, StateT.run_get, pure_bind]
  split
  · rw [StateT.run_pure, holds_pure]
    exact fun _ => .inl ⟨rfl, rfl⟩
  · rename_i absent
    rw [StateT.run_bind]
    refine (balloc_fresh s s rfl).bind fun a s1 fresh => ?_
    split
    · rename_i nz
      obtain ⟨free, inDisk, t, rfl⟩ := fresh nz
      simp only [modifyDisk, StateT.run_bind, StateT.run_modify, pure_bind]
      refine holds_logWrite_bind fun t' => ?_
      simp only [StateT.run_pure, holds_pure]
      exact fun _ => .inr ⟨not_not.mp absent, free, inDisk, t', rfl⟩
    · simp only [StateT.run_pure, holds_pure]
      exact fun nz => absurd nz ‹¬a ≠ 0›

end Frames

/-- The view of a file reads the disk only at its indirect block. -/
theorem Disk.blockOf_congr {d d' : Disk} (din : Dinode) (bn : Nat)
    (same : d'.blocks (din.addrs indirectSlot) = d.blocks (din.addrs indirectSlot)) :
    d'.blockOf din bn = d.blockOf din bn := by
  simp [Disk.blockOf, same]

/-! ### What `bmap` leaves of a file -/

theorem Disk.blockOf_of_direct (d : Disk) (din : Dinode) {bn : Nat} (direct : bn < nDirect) :
    d.blockOf din bn = din.addrs (directSlot ⟨bn, direct⟩) := by
  simp [Disk.blockOf, direct]

theorem Disk.blockOf_of_entry (d : Disk) (din : Dinode) {bn : Nat} (inFile : bn < maxFile)
    (indirect : ¬ bn < nDirect) :
    d.blockOf din bn =
      if din.addrs indirectSlot = 0 then 0 else (d.blocks (din.addrs indirectSlot)).word (bn - nDirect) := by
  simp [Disk.blockOf, indirect, entry_of_lt_maxFile inFile indirect]

/-- File block `bn` of `din` where the indirect block is missing is a direct one. -/
theorem Disk.direct_of_blockOf {d : Disk} {din : Dinode} {bn : Nat} (nz : d.blockOf din bn ≠ 0)
    (noIndirect : din.addrs indirectSlot = 0) : bn < nDirect := by
  by_contra indirect
  rw [d.blockOf_of_entry din (Disk.lt_maxFile_of_blockOf nz) indirect, if_pos noIndirect] at nz
  exact nz rfl

/-- What `bmap ip bn` returning `addr` did, from `fs` to `fs'`: file block `bn`
is `addr`, holding its old bytes when it was there and zeroed when it was not;
every other block of the file stays, with its bytes, and is not `addr`, and no
other missing block appears; `addr` is not the indirect block; of the inode
table only the addresses of `ip` changed. -/
structure Mapped (ip : Fin nInode) (bn addr : Nat) (fs fs' : FileSys) : Prop where
  mapped : fs'.disk.blockOf (fs'.itable ip).din bn = addr
  same : fs.disk.blockOf (fs.itable ip).din bn ≠ 0 →
    addr = fs.disk.blockOf (fs.itable ip).din bn ∧ fs'.disk.blocks addr = fs.disk.blocks addr
  others : ∀ bn', bn' ≠ bn → fs.disk.blockOf (fs.itable ip).din bn' ≠ 0 →
    fs'.disk.blockOf (fs'.itable ip).din bn' = fs.disk.blockOf (fs.itable ip).din bn' ∧
    fs.disk.blockOf (fs.itable ip).din bn' ≠ addr ∧
    fs'.disk.blocks (fs.disk.blockOf (fs.itable ip).din bn') = fs.disk.blocks (fs.disk.blockOf (fs.itable ip).din bn')
  notIndirect : (fs'.itable ip).din.addrs indirectSlot ≠ addr
  table : ∃ addrs, fs'.itable =
    Function.update fs.itable ip { fs.itable ip with din := { (fs.itable ip).din with addrs } }
  files : fs'.ftable = fs.ftable ∧ fs'.procs = fs.procs
  separate : Separate fs'.disk (fs'.itable ip).din
  zeroed : fs.disk.blockOf (fs.itable ip).din bn = 0 → fs'.disk.blocks addr = Block.zero
  unmapped : ∀ bn', bn' ≠ bn → fs.disk.blockOf (fs.itable ip).din bn' = 0 →
    fs'.disk.blockOf (fs'.itable ip).din bn' = 0

namespace Mapped

variable {fs : FileSys} {ip : Fin nInode} {bn a : Nat}

/-- The block was there: nothing changed. -/
theorem of_present (separate : Separate fs.disk (fs.itable ip).din)
    (nz : fs.disk.blockOf (fs.itable ip).din bn ≠ 0) :
    Mapped ip bn (fs.disk.blockOf (fs.itable ip).din bn) fs fs where
  mapped := rfl
  same := fun _ => ⟨rfl, rfl⟩
  others := fun _ other nz' => ⟨rfl, (separate.blockOf_ne (Ne.symm other) nz').symm, rfl⟩
  notIndirect := (separate.blockOf_ne_indirect nz).symm
  table := ⟨(fs.itable ip).din.addrs, (Function.update_eq_self ip fs.itable).symm⟩
  files := ⟨rfl, rfl⟩
  separate := separate
  zeroed := fun absent => absurd absent nz
  unmapped := fun _ _ absent => absent

/-- A fresh block put into the empty direct slot `j`. -/
theorem of_directFresh (separate : Separate fs.disk (fs.itable ip).din) {j : Fin nDirect}
    (absent : (fs.itable ip).din.addrs (directSlot j) = 0) (free : fs.disk.bitmap a = false) (nz : a ≠ 0)
    (t : Option (List Nat)) :
    Mapped ip j a fs { fs with
      disk := { fs.disk with
        bitmap := Function.update fs.disk.bitmap a true
        blocks := Function.update fs.disk.blocks a Block.zero }
      itable := Function.update fs.itable ip { fs.itable ip with
        din := { (fs.itable ip).din with addrs := Function.update (fs.itable ip).din.addrs (directSlot j) a } }
      trans := t } := by
  have indirect : Function.update (fs.itable ip).din.addrs (directSlot j) a indirectSlot =
      (fs.itable ip).din.addrs indirectSlot :=
    Function.update_of_ne (directSlot_ne_indirectSlot j).symm _ _
  -- the slot keeps the fresh block, every other place what it kept
  have places : ∀ p, { (fs.itable ip).din with
      addrs := Function.update (fs.itable ip).din.addrs (directSlot j) a }.blockAt
        (Function.update fs.disk.blocks a Block.zero) p =
      if p = .direct j then a else (fs.itable ip).din.blockAt fs.disk.blocks p := fun p => by
    rw [Dinode.blockAt_update_blocks _ _ (by dsimp only; rw [indirect]; exact separate.indirect_ne_fresh free nz),
      Dinode.blockAt_setDirect]
  refine ⟨?_, fun present => ?_, fun bn' other nz' => ?_, ?_, ⟨_, rfl⟩, ⟨rfl, rfl⟩, ?_, fun _ => ?_,
    fun bn' other absent => ?_⟩
  · simp [Disk.blockOf_of_direct _ _ j.isLt]
  · rw [Disk.blockOf_of_direct _ _ j.isLt, absent] at present
    exact absurd rfl present
  · refine ⟨?_, separate.blockOf_ne_free nz' free, Function.update_of_ne (separate.blockOf_ne_free nz' free) _ _⟩
    by_cases direct : bn' < nDirect
    · have slots : directSlot ⟨bn', direct⟩ ≠ directSlot j := fun same =>
        other (by simpa [directSlot] using congrArg Fin.val same)
      simp [Disk.blockOf_of_direct _ _ direct, Function.update_of_ne slots]
    · -- the indirect block is not the fresh one, so its entries stay
      have inFile := Disk.lt_maxFile_of_blockOf nz'
      have keep := nz'
      rw [Disk.blockOf_of_entry _ _ inFile direct] at keep ⊢
      rw [Disk.blockOf_of_entry _ _ inFile direct]
      have there : (fs.itable ip).din.addrs indirectSlot ≠ 0 := fun zero => keep (if_pos zero)
      simp [indirect, there, Function.update_of_ne (separate.indirect_ne_free there free)]
  · simp only [Function.update_self, indirect]
    exact separate.indirect_ne_fresh free nz
  · simp only [Function.update_self]
    exact separate.add (P := .direct j) free nz rfl places
  · simp
  · simp only [Function.update_self]
    rw [Disk.blockOf_of_kept (lt_of_lt_of_le j.isLt (by decide : nDirect ≤ maxFile)) (fun p _ moved => by
      rw [places, if_neg (by rwa [Place.ofBlock_direct] at moved)]) other]
    exact absent

/-- A fresh block written into the empty entry of the indirect block. -/
theorem of_entryFresh (separate : Separate fs.disk (fs.itable ip).din) (inFile : bn < maxFile)
    (indirect : ¬ bn < nDirect) (there : (fs.itable ip).din.addrs indirectSlot ≠ 0)
    (absent : (fs.disk.blocks ((fs.itable ip).din.addrs indirectSlot)).word (bn - nDirect) = 0)
    (free : fs.disk.bitmap a = false) (nz : a ≠ 0) (fits : a < 2 ^ 32) (t : Option (List Nat)) :
    Mapped ip bn a fs { fs with
      disk := { fs.disk with
        bitmap := Function.update fs.disk.bitmap a true
        blocks := Function.update (Function.update fs.disk.blocks a Block.zero) ((fs.itable ip).din.addrs indirectSlot)
          ((Function.update fs.disk.blocks a Block.zero ((fs.itable ip).din.addrs indirectSlot)).setWord
            (bn - nDirect) a) }
      trans := t } := by
  have apart : (fs.itable ip).din.addrs indirectSlot ≠ a := separate.indirect_ne_free there free
  -- the entry keeps the fresh block, every other place what it kept
  have places : ∀ p, (fs.itable ip).din.blockAt (Function.update (Function.update fs.disk.blocks a Block.zero)
      ((fs.itable ip).din.addrs indirectSlot)
      ((Function.update fs.disk.blocks a Block.zero ((fs.itable ip).din.addrs indirectSlot)).setWord
        (bn - nDirect) a)) p =
      if p = .entry ⟨bn - nDirect, entry_of_lt_maxFile inFile indirect⟩ then a
      else (fs.itable ip).din.blockAt fs.disk.blocks p := fun p => by
    rw [Dinode.blockAt_setEntry _ _ rfl there (entry_of_lt_maxFile inFile indirect) fits,
      Dinode.blockAt_update_blocks _ _ apart]
  refine ⟨?_, fun present => ?_, fun bn' other nz' => ?_, apart,
    ⟨_, (Function.update_eq_self ip fs.itable).symm⟩, ⟨rfl, rfl⟩, ?_, fun _ => ?_, fun bn' other absent => ?_⟩
  · rw [Disk.blockOf_of_entry _ _ inFile indirect, if_neg there]
    simp [Block.word_setWord_self _ _ fits]
  · rw [Disk.blockOf_of_entry _ _ inFile indirect, if_neg there, absent] at present
    exact absurd rfl present
  · have notFree := separate.blockOf_ne_free nz' free
    have notIndirect := separate.blockOf_ne_indirect nz'
    refine ⟨?_, notFree, ?_⟩
    · by_cases direct : bn' < nDirect
      · simp [Disk.blockOf_of_direct _ _ direct]
      · -- another entry of the indirect block: its word is not the one written
        have inFile' := Disk.lt_maxFile_of_blockOf nz'
        have words : bn' - nDirect ≠ bn - nDirect := by
          simp only [nDirect] at direct indirect ⊢
          omega
        rw [Disk.blockOf_of_entry _ _ inFile' direct, Disk.blockOf_of_entry _ _ inFile' direct, if_neg there,
          if_neg there]
        simp [Block.word_setWord_of_ne _ _ words, Function.update_of_ne apart]
    · simp [Function.update_of_ne notIndirect, Function.update_of_ne notFree]
  · exact separate.add (P := .entry ⟨bn - nDirect, entry_of_lt_maxFile inFile indirect⟩) free nz rfl places
  · simp [Function.update_of_ne (Ne.symm apart)]
  · rw [Disk.blockOf_of_kept inFile
      (fun p _ moved => by rw [places, if_neg (Place.ofBlock_entry inFile indirect ▸ moved)]) other]
    exact absent

/-- A fresh indirect block put into the empty indirect slot, then a fresh block
written into its entry. -/
theorem of_indirectFresh (separate : Separate fs.disk (fs.itable ip).din) (inFile : bn < maxFile)
    (indirect : ¬ bn < nDirect) (noIndirect : (fs.itable ip).din.addrs indirectSlot = 0) {b : Nat}
    (freeB : fs.disk.bitmap b = false) (nzB : b ≠ 0) (freeA : Function.update fs.disk.bitmap b true a = false)
    (nzA : a ≠ 0) (fits : a < 2 ^ 32) {t : Option (List Nat)} {fs1 : FileSys} (first : fs1 = { fs with
      disk := { fs.disk with
        bitmap := Function.update fs.disk.bitmap b true
        blocks := Function.update fs.disk.blocks b Block.zero }
      itable := Function.update fs.itable ip { fs.itable ip with
        din := { (fs.itable ip).din with addrs := Function.update (fs.itable ip).din.addrs indirectSlot b } }
      trans := t })
    (t' : Option (List Nat)) :
    Mapped ip bn a fs { fs1 with
      disk := { fs1.disk with
        bitmap := Function.update fs1.disk.bitmap a true
        blocks := Function.update (Function.update fs1.disk.blocks a Block.zero) b
          ((Function.update fs1.disk.blocks a Block.zero b).setWord (bn - nDirect) a) }
      trans := t' } := by
  subst first
  have apart : b ≠ a := fun same => by
    rw [same, Function.update_self] at freeA
    cases freeA
  have freeA' : fs.disk.bitmap a = false := by rwa [Function.update_of_ne (Ne.symm apart)] at freeA
  -- two fresh blocks, one place each: first the indirect block, then the entry
  have first : ∀ p, { (fs.itable ip).din with addrs := Function.update (fs.itable ip).din.addrs indirectSlot b }.blockAt
      (Function.update fs.disk.blocks b Block.zero) p =
      if p = .indirect then b else (fs.itable ip).din.blockAt fs.disk.blocks p :=
    Dinode.blockAt_setIndirect _ fs.disk.blocks noIndirect nzB
  have places : ∀ p, { (fs.itable ip).din with addrs := Function.update (fs.itable ip).din.addrs indirectSlot b }.blockAt
      (Function.update (Function.update (Function.update fs.disk.blocks b Block.zero) a Block.zero) b
        ((Function.update (Function.update fs.disk.blocks b Block.zero) a Block.zero b).setWord (bn - nDirect) a)) p =
      if p = .entry ⟨bn - nDirect, entry_of_lt_maxFile inFile indirect⟩ then a
      else { (fs.itable ip).din with addrs := Function.update (fs.itable ip).din.addrs indirectSlot b }.blockAt
        (Function.update fs.disk.blocks b Block.zero) p := fun p => by
    rw [Dinode.blockAt_setEntry _ _ (by simp) nzB (entry_of_lt_maxFile inFile indirect) fits,
      Dinode.blockAt_update_blocks _ _ (by simpa using apart)]
  refine ⟨?_, fun present => ?_, fun bn' other nz' => ?_, by simpa using apart, ⟨_, rfl⟩, ⟨rfl, rfl⟩, ?_,
    fun _ => ?_, fun bn' other absent => ?_⟩
  · rw [Disk.blockOf_of_entry _ _ inFile indirect]
    simp [nzB, Block.word_setWord_self _ _ fits]
  · rw [Disk.blockOf_of_entry _ _ inFile indirect, if_pos noIndirect] at present
    exact absurd rfl present
  · -- with no indirect block, the other blocks of the file are direct ones
    have direct := Disk.direct_of_blockOf nz' noIndirect
    have notFree := separate.blockOf_ne_free nz' freeA'
    have notB := separate.blockOf_ne_free nz' freeB
    have slots : directSlot ⟨bn', direct⟩ ≠ indirectSlot := directSlot_ne_indirectSlot _
    refine ⟨?_, notFree, ?_⟩
    · simp [Disk.blockOf_of_direct _ _ direct, Function.update_of_ne slots]
    · simp [Function.update_of_ne notB, Function.update_of_ne notFree]
  · simp only [Function.update_self]
    have withIndirect : Separate { fs.disk with
        bitmap := Function.update fs.disk.bitmap b true
        blocks := Function.update fs.disk.blocks b Block.zero }
        { (fs.itable ip).din with addrs := Function.update (fs.itable ip).din.addrs indirectSlot b } :=
      separate.add (P := .indirect) freeB nzB rfl first
    exact withIndirect.add (P := .entry ⟨bn - nDirect, entry_of_lt_maxFile inFile indirect⟩) freeA nzA rfl places
  · simp [Function.update_of_ne (Ne.symm apart)]
  · simp only [Function.update_self]
    rw [Disk.blockOf_of_kept inFile (fun p notIndirect moved => by
      rw [places, if_neg (Place.ofBlock_entry inFile indirect ▸ moved), first, if_neg notIndirect]) other]
    exact absent

end Mapped

section Frames

open Hoare

/-- **`bmap`'s frame.** Over a file whose blocks are kept apart, `bmap` returning
a block leaves the file `Mapped`. -/
theorem bmap_mapped (fs0 : FileSys) (ip : Fin nInode) (bn : Nat) (separate : Separate fs0.disk (fs0.itable ip).din) :
    Triple (· = fs0) (bmap ip bn) (fun addr fs => addr ≠ 0 → Mapped ip bn addr fs0 fs) Allowed := by
  intro s pre
  subst pre
  unfold bmap
  split
  · rename_i direct
    refine (bmapSlot_frame s ip _ s rfl).mono fun a fs framed nz => ?_
    rcases framed nz with ⟨present, unchanged⟩ | ⟨absent, free, -, t, rfl⟩
    · rw [unchanged]
      have there : s.disk.blockOf (s.itable ip).din bn = a := by
        rw [Disk.blockOf_of_direct _ _ direct, present]
      exact there ▸ Mapped.of_present separate (there ▸ nz)
    · exact Mapped.of_directFresh separate absent free nz t
  split
  · rename_i indirect entry
    have inFile : bn < maxFile := by
      simp only [maxFile, nDirect, nIndirect, bSize] at indirect entry ⊢
      omega
    rw [StateT.run_bind]
    refine (bmapSlot_frame s ip indirectSlot s rfl).bind fun ind s1 framed => ?_
    split
    · simp only [StateT.run_pure, holds_pure]
      exact fun nz => absurd rfl nz
    rename_i nzInd
    rcases framed nzInd with ⟨present, unchanged⟩ | ⟨absent, freeB, -, t, rfl⟩
    · -- the indirect block is there
      subst present unchanged
      refine (bmapEntry_frame s1 _ (bn - nDirect) s1 rfl).mono fun a fs framed' nz => ?_
      rcases framed' nz with ⟨word, unchanged⟩ | ⟨absentWord, free, inDisk, t', rfl⟩
      · rw [unchanged]
        have there : s1.disk.blockOf (s1.itable ip).din bn = a := by
          rw [Disk.blockOf_of_entry _ _ inFile indirect, if_neg nzInd, word]
        exact there ▸ Mapped.of_present separate (there ▸ nz)
      · have fits : a < 2 ^ 32 := by
          simp only [fsSize] at inDisk
          omega
        exact Mapped.of_entryFresh separate inFile indirect nzInd absentWord free nz fits t'
    · -- a fresh indirect block, whose entries are all 0
      refine (bmapEntry_frame _ ind (bn - nDirect) _ rfl).mono fun a fs framed' nz => ?_
      rcases framed' nz with ⟨word, rfl⟩ | ⟨-, freeA, inDisk, t', rfl⟩
      · simp only [Function.update_self, Block.word_zero] at word
        exact absurd word.symm nz
      · have fits : a < 2 ^ 32 := by
          simp only [fsSize] at inDisk
          omega
        exact Mapped.of_indirectFresh separate inFile indirect absent freeB nzInd freeA nz fits rfl t'
  · rw [run_throw, holds_error]
    decide

end Frames

/-! ### Bytes written -/

/-- From `fs` to `fs'` the file holds `src` at `off`, in blocks that are there, and
every other byte of a block it had is as it was; its blocks are still there. -/
structure Written (ip : Fin nInode) (src : List UInt8) (off : Nat) (fs fs' : FileSys) : Prop where
  bytes : ∀ i (inSrc : i < src.length), fs'.disk.byteAt (fs'.itable ip).din (off + i) = src[i]
  others : ∀ p, (p < off ∨ off + src.length ≤ p) → fs.disk.blockOf (fs.itable ip).din (p / bSize) ≠ 0 →
    fs'.disk.byteAt (fs'.itable ip).din p = fs.disk.byteAt (fs.itable ip).din p
  present : ∀ bn, fs.disk.blockOf (fs.itable ip).din bn ≠ 0 → fs'.disk.blockOf (fs'.itable ip).din bn ≠ 0
  covered : ∀ i, i < src.length → fs'.disk.blockOf (fs'.itable ip).din ((off + i) / bSize) ≠ 0

namespace Written

variable {ip : Fin nInode} {off : Nat}

theorem nil (fs : FileSys) : Written ip [] off fs fs :=
  ⟨fun _ inSrc => absurd inSrc (Nat.not_lt_zero _), fun _ _ _ => rfl, fun _ nz => nz,
    fun _ inSrc => absurd inSrc (Nat.not_lt_zero _)⟩

/-- **Two writes, one after the other.** A write followed by one at the offset it
ended at wrote both sources. -/
theorem append {s1 s2 : List UInt8} {off2 : Nat} {fs fs1 fs2 : FileSys} (first : Written ip s1 off fs fs1)
    (second : Written ip s2 off2 fs1 fs2) (starts : off2 = off + s1.length) :
    Written ip (s1 ++ s2) off fs fs2 := by
  subst starts
  -- an offset past the first source, as one of the second
  have shift : ∀ i, s1.length ≤ i → off + s1.length + (i - s1.length) = off + i := fun i past => by omega
  refine ⟨fun i inSrc => ?_, fun p outside nz => ?_, fun bn nz => second.present bn (first.present bn nz),
    fun i inSrc => ?_⟩
  · rw [List.length_append] at inSrc
    by_cases inFirst : i < s1.length
    · rw [List.getElem_append_left inFirst, second.others (off + i) (.inl (by omega)) (first.covered i inFirst),
        first.bytes i inFirst]
    · rw [List.getElem_append_right (by omega), ← second.bytes (i - s1.length) (by omega),
        shift i (by omega)]
  · rw [List.length_append] at outside
    rw [second.others p (by omega) (first.present _ nz), first.others p (by omega) nz]
  · rw [List.length_append] at inSrc
    by_cases inFirst : i < s1.length
    · exact second.present _ (first.covered i inFirst)
    · have there := second.covered (i - s1.length) (by omega)
      rwa [shift i (by omega)] at there

/-- The view is read from the blocks and the addresses alone. -/
theorem congr {src : List UInt8} {fs fs' fs'' : FileSys}
    (written : Written ip src off fs fs') (blocks : fs''.disk.blocks = fs'.disk.blocks)
    (addrs : (fs''.itable ip).din.addrs = (fs'.itable ip).din.addrs) : Written ip src off fs fs'' := by
  have view : ∀ bn, fs''.disk.blockOf (fs''.itable ip).din bn = fs'.disk.blockOf (fs'.itable ip).din bn := by
    intro bn
    simp [Disk.blockOf, blocks, addrs]
  have bytes : ∀ p, fs''.disk.byteAt (fs''.itable ip).din p = fs'.disk.byteAt (fs'.itable ip).din p := by
    intro p
    simp only [Disk.byteAt, view, blocks]
  refine ⟨fun i inSrc => ?_, fun p outside nz => ?_, fun bn nz => ?_, fun i inSrc => ?_⟩
  · rw [bytes, written.bytes i inSrc]
  · rw [bytes, written.others p outside nz]
  · rw [view]
    exact written.present bn nz
  · rw [view]
    exact written.covered i inSrc

/-- The piece `src` copied into the block `bmap` gave for the block of `off`. -/
theorem of_mapped {fs0 fs1 : FileSys} {src : List UInt8} {addr : Nat}
    (mapped : Mapped ip (off / bSize) addr fs0 fs1) (nz : addr ≠ 0) (oneBlock : off % bSize + src.length ≤ bSize)
    (t : Option (List Nat)) :
    Written ip src off fs0 { fs1 with
      disk := { fs1.disk with
        blocks := Function.update fs1.disk.blocks addr ((fs1.disk.blocks addr).write (off % bSize) src) }
      trans := t } := by
  -- the write misses the indirect block, so every block of the file is where it was
  have view : ∀ bn, Disk.blockOf { fs1.disk with
      blocks := Function.update fs1.disk.blocks addr ((fs1.disk.blocks addr).write (off % bSize) src) }
      (fs1.itable ip).din bn = fs1.disk.blockOf (fs1.itable ip).din bn := fun bn =>
    Disk.blockOf_congr _ bn (Function.update_of_ne mapped.notIndirect _ _)
  refine ⟨fun i inSrc => ?_, fun p outside nz0 => ?_, fun bn nz0 => ?_, fun i inSrc => ?_⟩
  · simp only
    rw [Disk.byteAt_add _ _ (by omega), view, mapped.mapped, if_neg nz]
    dsimp only
    rw [Function.update_self, Block.write, if_pos (by omega), Nat.add_sub_cancel_left, List.getD_eq_getElem?_getD,
      List.getElem?_eq_getElem inSrc, Option.getD_some]
  · by_cases sameBlock : p / bSize = off / bSize
    · obtain ⟨was, kept⟩ := mapped.same (sameBlock ▸ nz0)
      have apart : p % bSize < off % bSize ∨ off % bSize + src.length ≤ p % bSize := by
        simp only [bSize] at sameBlock oneBlock ⊢
        omega
      have outside : (fs1.disk.blocks addr).write (off % bSize) src (p % bSize) = fs1.disk.blocks addr (p % bSize) := by
        rcases apart with before | after
        · exact Block.write_of_lt _ _ before
        · exact Block.write_of_ge _ _ after
      simp only [Disk.byteAt, view, sameBlock, mapped.mapped, if_neg nz, Function.update_self, outside]
      rw [← was, if_neg nz, kept]
    · obtain ⟨there, notAddr, kept⟩ := mapped.others _ sameBlock nz0
      simp only [Disk.byteAt, view, there, if_neg nz0, Function.update_of_ne notAddr, kept]
  · simp only [view]
    by_cases here : bn = off / bSize
    · rw [here, mapped.mapped]
      exact nz
    · rw [(mapped.others bn here nz0).1]
      exact nz0
  · have inBlock : (off + i) / bSize = off / bSize := by
      simp only [bSize] at oneBlock ⊢
      omega
    simp only [view, inBlock, mapped.mapped]
    exact nz

end Written

/-- From `fs` to `fs'` only the addresses of entry `ip` changed in the inode table,
and the open files and the processes are as they were. -/
def AddrsOnly (ip : Fin nInode) (fs fs' : FileSys) : Prop :=
  (∃ addrs, fs'.itable =
      Function.update fs.itable ip { fs.itable ip with din := { (fs.itable ip).din with addrs } }) ∧
    fs'.ftable = fs.ftable ∧ fs'.procs = fs.procs

theorem AddrsOnly.refl (ip : Fin nInode) (fs : FileSys) : AddrsOnly ip fs fs :=
  ⟨⟨(fs.itable ip).din.addrs, (Function.update_eq_self ip fs.itable).symm⟩, rfl, rfl⟩

theorem AddrsOnly.trans {ip : Fin nInode} {fs fs1 fs2 : FileSys} (first : AddrsOnly ip fs fs1)
    (second : AddrsOnly ip fs1 fs2) : AddrsOnly ip fs fs2 := by
  obtain ⟨⟨addrs1, table1⟩, ftable1, procs1⟩ := first
  obtain ⟨⟨addrs2, table2⟩, ftable2, procs2⟩ := second
  refine ⟨⟨addrs2, ?_⟩, ftable2.trans ftable1, procs2.trans procs1⟩
  rw [table2, table1, Function.update_idem, Function.update_self]

theorem AddrsOnly.din {ip : Fin nInode} {fs fs' : FileSys} (only : AddrsOnly ip fs fs') :
    ∃ addrs, (fs'.itable ip).din = { (fs.itable ip).din with addrs } := by
  obtain ⟨⟨addrs, table⟩, -⟩ := only
  exact ⟨addrs, by rw [table, Function.update_self]⟩

theorem AddrsOnly.size {ip : Fin nInode} {fs fs' : FileSys} (only : AddrsOnly ip fs fs') :
    (fs'.itable ip).din.size = (fs.itable ip).din.size := by
  obtain ⟨addrs, din⟩ := only.din
  rw [din]

theorem AddrsOnly.ref {ip : Fin nInode} {fs fs' : FileSys} (only : AddrsOnly ip fs fs') (ip' : Fin nInode) :
    (fs'.itable ip').ref = (fs.itable ip').ref := by
  obtain ⟨⟨addrs, table⟩, -⟩ := only
  rw [table]
  by_cases same : ip' = ip
  · rw [same, Function.update_self]
  · rw [Function.update_of_ne same]

/-! ### Holes filled -/

/-- From `fs` to `fs'` blocks were only put into holes of the file: it reads the
same, the blocks it had are still there, its blocks are kept apart, and of the
inode table only the entry's addresses changed. -/
structure Filled (ip : Fin nInode) (fs fs' : FileSys) : Prop where
  view : ∀ o, fs'.disk.byteAt (fs'.itable ip).din o = fs.disk.byteAt (fs.itable ip).din o
  present : ∀ bn, fs.disk.blockOf (fs.itable ip).din bn ≠ 0 → fs'.disk.blockOf (fs'.itable ip).din bn ≠ 0
  separate : Separate fs'.disk (fs'.itable ip).din
  only : AddrsOnly ip fs fs'

namespace Filled

variable {ip : Fin nInode}

theorem refl {fs : FileSys} (separate : Separate fs.disk (fs.itable ip).din) : Filled ip fs fs :=
  ⟨fun _ => rfl, fun _ nz => nz, separate, AddrsOnly.refl ip fs⟩

theorem trans {fs fs1 fs2 : FileSys} (first : Filled ip fs fs1) (second : Filled ip fs1 fs2) :
    Filled ip fs fs2 :=
  ⟨fun o => (second.view o).trans (first.view o), fun bn nz => second.present bn (first.present bn nz),
    second.separate, first.only.trans second.only⟩

/-- **A hole filled.** `bmap` returning a block reads the file as it was: a block
it put into a hole is zeroed, and no other block moved. -/
theorem of_mapped {fs fs' : FileSys} {bn addr : Nat} (mapped : Mapped ip bn addr fs fs') (nz : addr ≠ 0) :
    Filled ip fs fs' := by
  refine ⟨fun o => ?_, fun bn' there => ?_, mapped.separate, ⟨mapped.table, mapped.files⟩⟩
  · by_cases here : o / bSize = bn
    · by_cases hole : fs.disk.blockOf (fs.itable ip).din bn = 0
      · -- a hole read 0, and the block put there is zeroed
        simp only [Disk.byteAt, here, mapped.mapped, if_neg nz, mapped.zeroed hole, hole, if_true]
        rfl
      · obtain ⟨same, kept⟩ := mapped.same hole
        simp only [Disk.byteAt, here, mapped.mapped]
        rw [if_neg nz, if_neg hole, ← same, kept]
    · by_cases hole : fs.disk.blockOf (fs.itable ip).din (o / bSize) = 0
      · simp only [Disk.byteAt, hole, mapped.unmapped _ here hole, if_true]
      · obtain ⟨there, -, kept⟩ := mapped.others _ here hole
        simp only [Disk.byteAt, there, kept]
  · by_cases here : bn' = bn
    · rw [here, mapped.mapped]
      exact nz
    · rw [(mapped.others bn' here there).1]
      exact there

end Filled

/-- `readi`'s loop once it has counted every byte: it returns what it read. -/
theorem readLoop_of_done {ip : Fin nInode} {room n tot off : Nat} {acc : List UInt8} (done : n ≤ tot)
    (fuel : Nat) (fs : FileSys) :
    (readLoop ip room n tot off acc fuel).run fs = pure (((tot : Int), acc), fs) := by
  cases fuel with
  | zero => rfl
  | succ fuel =>
    simp only [readLoop, if_pos done]
    rfl

section Frames

open Hoare

/-- `iupdate` writes the entry back and logs its block. -/
theorem iupdate_frame (fs0 : FileSys) (ip : Fin nInode) :
    Triple (· = fs0) (iupdate ip) (fun _ fs => ∃ t, fs = { fs0 with
      disk := { fs0.disk with inodes := Function.update fs0.disk.inodes (fs0.itable ip).inum (fs0.itable ip).din }
      trans := t }) Allowed := by
  intro s pre
  subst pre
  simp only [iupdate, modifyDisk, StateT.run_bind, StateT.run_get, StateT.run_modify, pure_bind]
  exact holds_logWrite fun t => ⟨t, rfl⟩

/-- Where `writei`'s loop stops having counted all `n` bytes, nothing was left to
write. -/
theorem writeLoop_stop {ip : Fin nInode} {src : List UInt8} {n tot : Nat} (length : src.length = n)
    (off : Nat) {fs : FileSys} (separate : Separate fs.disk (fs.itable ip).din) (counted : tot = n) :
    off = off + (n - tot) ∧ Written ip (src.drop tot) off fs fs ∧ Separate fs.disk (fs.itable ip).din ∧
      AddrsOnly ip fs fs := by
  rw [List.drop_eq_nil_of_le (by omega)]
  exact ⟨by omega, Written.nil fs, separate, AddrsOnly.refl ip fs⟩

/-- **`writei`'s loop.** From `tot` of the `n` bytes of `src` counted, over a file
whose blocks are kept apart, with a turn for each byte left: when the loop counts
all `n`, it wrote the rest of the source from `off` on, one piece a block, kept
the blocks apart and changed only the entry's addresses. -/
theorem writeLoop_written (ip : Fin nInode) (src : List UInt8) {n : Nat} (length : src.length = n) (fuel : Nat) :
    ∀ (tot off : Nat) (fs0 : FileSys), Separate fs0.disk (fs0.itable ip).din → n - tot ≤ fuel →
      Triple (· = fs0) (writeLoop ip src n tot off fuel) (fun res fs => res.1 = n →
        res.2 = off + (n - tot) ∧ Written ip (src.drop tot) off fs0 fs ∧
          Separate fs.disk (fs.itable ip).din ∧ AddrsOnly ip fs0 fs) Allowed := by
  induction fuel with
  | zero =>
    intro tot off fs0 separate enough s pre
    subst pre
    simp only [writeLoop, StateT.run_pure, holds_pure]
    exact writeLoop_stop length off separate
  | succ fuel ih =>
    intro tot off fs0 separate enough s pre
    subst pre
    simp only [writeLoop]
    by_cases done : n ≤ tot
    · rw [if_pos done, StateT.run_pure, holds_pure]
      exact writeLoop_stop length off separate
    rw [if_neg done, StateT.run_bind]
    refine (bmap_mapped s ip (off / bSize) separate s rfl).bind fun addr s1 mapped => ?_
    split
    · simp only [StateT.run_pure, holds_pure]
      intro counted
      omega
    rename_i nz
    have mapped := mapped nz
    -- this round's piece: up to the end of the block or of the source
    obtain ⟨m, piece⟩ : ∃ m, min (n - tot) (bSize - off % bSize) = m := ⟨_, rfl⟩
    have inBlock : off % bSize < bSize := Nat.mod_lt _ (by decide)
    have pieceLength : ((src.drop tot).take m).length = m := by
      rw [List.length_take, List.length_drop, length]
      omega
    simp only [piece, modifyDisk, StateT.run_bind, StateT.run_modify, pure_bind]
    rw [if_neg (by omega)]
    refine holds_logWrite_bind fun t => ?_
    have written := Written.of_mapped mapped nz (by omega : off % bSize + ((src.drop tot).take m).length ≤ bSize) t
    refine (ih (tot + m) (off + m) _ (mapped.separate.write mapped.notIndirect _) (by omega) _ rfl).mono ?_
    rintro ⟨tot', off'⟩ fs rest counted
    obtain ⟨reached, written', separate', only⟩ := rest counted
    have whole : (src.drop tot).take m ++ src.drop (tot + m) = src.drop tot := by
      rw [← List.drop_drop, List.take_append_drop]
    refine ⟨by dsimp only at reached ⊢; omega, whole ▸ written.append written' (by rw [pieceLength]),
      separate', ?_⟩
    exact AddrsOnly.trans ⟨mapped.table, mapped.files⟩ only

/-- **A write.** `writei` of a source over a file whose blocks are kept apart:
when it returns the whole length, the file holds the source at `off` and the rest
of its blocks as they were, its size covers the write, and of the inode table only
the entry's addresses and size changed. -/
theorem writei_written (fs0 : FileSys) (ip : Fin nInode) (src : List UInt8) (off : Nat)
    (separate : Separate fs0.disk (fs0.itable ip).din) :
    Triple (· = fs0) (writei ip src off src.length) (fun r fs => r = src.length →
      Written ip src off fs0 fs ∧
      (∃ addrs, fs.itable = Function.update fs0.itable ip { fs0.itable ip with
        din := { (fs0.itable ip).din with addrs, size := max (fs0.itable ip).din.size (off + src.length) } }) ∧
      fs.ftable = fs0.ftable ∧ fs.procs = fs0.procs) Allowed := by
  intro s pre
  subst pre
  simp only [writei, StateT.run_bind, StateT.run_get, pure_bind]
  split
  · simp only [StateT.run_pure, holds_pure]
    intro wrong
    omega
  split
  · simp only [StateT.run_pure, holds_pure]
    intro wrong
    omega
  rename_i inside _
  rw [StateT.run_bind]
  refine (writeLoop_written ip src rfl src.length 0 off s separate (by omega) s rfl).bind ?_
  rintro ⟨tot, reached⟩ s2 wrote
  -- what the loop did, once it counts every byte of the source
  replace wrote : (tot : Int) = src.length →
      reached = off + src.length ∧ Written ip src off s s2 ∧ AddrsOnly ip s s2 := by
    intro counted
    obtain ⟨reachedEq, written, -, only⟩ := wrote (by exact_mod_cast counted)
    rw [Nat.sub_zero] at reachedEq
    rw [List.drop_zero] at written
    exact ⟨reachedEq, written, only⟩
  simp only [StateT.run_bind, StateT.run_get, pure_bind]
  split
  · rename_i grows
    simp only [setDin, setInode, StateT.run_bind, StateT.run_modify, pure_bind]
    refine (iupdate_frame _ ip _ rfl).bind fun _ s4 updated => ?_
    obtain ⟨t', rfl⟩ := updated
    simp only [StateT.run_pure, holds_pure]
    intro counted
    obtain ⟨reachedEq, written, ⟨addrs, table⟩, ftable, procs⟩ := wrote counted
    refine ⟨written.congr rfl (by simp), ⟨addrs, ?_⟩, ftable, procs⟩
    rw [table, Function.update_idem, Function.update_self, reachedEq]
    simp only [Function.update_self, table] at grows
    rw [max_eq_right (by omega)]
  · rename_i stays
    refine (iupdate_frame _ ip _ rfl).bind fun _ s4 updated => ?_
    obtain ⟨t', rfl⟩ := updated
    simp only [holds_pure_apply]
    intro counted
    obtain ⟨reachedEq, written, ⟨addrs, table⟩, ftable, procs⟩ := wrote counted
    refine ⟨written.congr rfl rfl, ⟨addrs, ?_⟩, ftable, procs⟩
    simp only [Function.update_self, table] at stays
    rw [table, max_eq_left (by omega)]

/-- **A read through holes.** `readi` of `n` bytes inside one block, below the
size: the bytes the file reads there, with at most a block put into a hole of
the file, and that block there after. -/
theorem readi_filled (fs0 : FileSys) (ip : Fin nInode) {off n : Nat}
    (separate : Separate fs0.disk (fs0.itable ip).din) (inside : off + n ≤ (fs0.itable ip).din.size)
    (noWrap : off + n < 2 ^ 32) (oneBlock : off % bSize + n ≤ bSize) (positive : 0 < n) :
    Triple (· = fs0) (readi ip n off n) (fun r fs => r.1 = n →
      r.2 = (List.range n).map (fun i => fs0.disk.byteAt (fs0.itable ip).din (off + i)) ∧ Filled ip fs0 fs ∧
        fs.disk.blockOf (fs.itable ip).din (off / bSize) ≠ 0) Allowed := by
  intro s pre
  subst pre
  have inRange : ¬ ((s.itable ip).din.size < off ∨ (off + n) % 2 ^ 32 < off) := by
    rw [Nat.mod_eq_of_lt noWrap]
    omega
  have unclipped : ¬ (s.itable ip).din.size < off + n := by omega
  simp only [readi, StateT.run_bind, StateT.run_get, pure_bind, if_neg inRange, if_neg unclipped]
  -- one round reads all `n` bytes from the block `bmap` gives
  obtain ⟨fuel, rounds⟩ : ∃ fuel, n = fuel + 1 := ⟨n - 1, by omega⟩
  have whole : min (n - 0) (bSize - off % bSize) = n := by omega
  rw [show readLoop ip n n 0 off [] n = readLoop ip n n 0 off [] (fuel + 1) by rw [← rounds]]
  simp only [readLoop, if_neg (show ¬ n ≤ 0 by omega), StateT.run_bind]
  refine (bmap_mapped s ip (off / bSize) separate s rfl).bind fun addr s1 mapped => ?_
  split
  · simp only [StateT.run_pure, holds_pure]
    intro counted
    omega
  rename_i nz
  have filled := Filled.of_mapped (mapped nz) nz
  rw [whole, if_neg (by omega)]
  simp only [StateT.run_bind, StateT.run_get, pure_bind, readLoop_of_done (show n ≤ 0 + n by omega),
    holds_pure]
  intro _
  refine ⟨?_, filled, by rw [(mapped nz).mapped]; exact nz⟩
  -- the block's bytes are what the file now reads there, which is what it read
  apply List.ext_getElem (by simp)
  intro i inRead _
  simp only [List.nil_append, Block.read_length] at inRead
  simp only [List.nil_append, Block.read, List.getElem_map, List.getElem_range]
  rw [← filled.view, Disk.byteAt_add _ _ (by omega), (mapped nz).mapped, if_neg nz]

end Frames

end Xv6.Fs
