import Xv6.Fs.Places

/-!
Contract: the blocks a call logs. A transaction's header (`trans`) holds each
block it logged once; `log_write` adds a block unless it is there. From a header
with room, `balloc`, `bmap` and `writei` never fail, and each adds to the header
only blocks it names: the bitmap block, the block it returns, the indirect
block of the inode, the inode's own block.

`writei` of `n` bytes at `off` writes one round a block, `spanned off n` rounds.
A round logs the bitmap block, its data block, and the indirect block, which
once there stays the same block: so `writei` logs at most `spanned off n + 3`
blocks (`writei_logs`). `filewrite`'s chunk of `((MAXOPBLOCKS-1-1-2)/2)*BSIZE`
bytes spans at most four blocks: a transaction of `filewrite` logs at most
seven (`writei_chunk_logs`), within the eight per call under which
`Xv6.Log.GroupCommit.log_capacity_safe` shows `log_write` never overflows.

Owns: `Within`, `indList`, `spanned`, and the header lemmas of `log_write`,
`balloc`, `bmapSlot`, `bmapEntry`, `bmap`, `iupdate`, `writei`'s loop and `writei`.

Does not own: what those functions do to the data of a file (`Xv6.Fs.DataView`).
-/

namespace Xv6.Fs

/-! ### Headers -/

/-- The header `l'` holds each block once, and only blocks of `l` or of `extra`. -/
def Within (l extra l' : List Nat) : Prop :=
  l'.Nodup ∧ ∀ b ∈ l', b ∈ l ∨ b ∈ extra

namespace Within

variable {l l1 l2 e e1 e2 : List Nat}

theorem refl (nodup : l.Nodup) (extra : List Nat) : Within l extra l :=
  ⟨nodup, fun _ member => .inl member⟩

theorem trans (first : Within l e1 l1) (second : Within l1 e2 l2) : Within l (e1 ++ e2) l2 := by
  refine ⟨second.1, fun b member => ?_⟩
  rcases second.2 b member with before | added
  · rcases first.2 b before with old | logged
    · exact .inl old
    · exact .inr (List.mem_append_left _ logged)
  · exact .inr (List.mem_append_right _ added)

theorem mono (within : Within l e l1) (sub : ∀ b ∈ e, b ∈ e1) : Within l e1 l1 :=
  ⟨within.1, fun b member => (within.2 b member).imp_right (sub b)⟩

/-- A header within `l` and `extra` is at most as long as both together. -/
theorem length_le (within : Within l e l1) : l1.length ≤ l.length + e.length := by
  have sub : l1 ⊆ l ++ e := fun b member => List.mem_append.mpr (within.2 b member)
  rw [← List.length_append]
  exact (within.1.subperm sub).length_le

/-- The room a header within `l` and `e` leaves, from the room `l` left. -/
theorem room (within : Within l e l1) {k m : Nat} (room : l.length + e.length + k ≤ m) : l1.length + k ≤ m := by
  have := within.length_le
  omega

end Within

/-- A system with its header replaced by the one it has is itself. -/
theorem FileSys.with_trans_eq {fs : FileSys} {l : List Nat} (header : fs.trans = some l) :
    { fs with disk := fs.disk, itable := fs.itable, trans := some l } = fs := by
  cases fs
  cases header
  rfl

/-! ### `log_write` and `balloc` -/

/-- `log_write` into a header with room adds the block, unless it is there. -/
theorem logWrite_logs (fs : FileSys) {l : List Nat} (header : fs.trans = some l) (nodup : l.Nodup)
    (room : l.length + 1 ≤ nlog - 1) (b : Nat) :
    ∃ l', (logWrite b).run fs = pure ((), { fs with trans := some l' }) ∧ Within l [b] l' := by
  have fits : ¬ (logSize ≤ l.length ∨ nlog - 1 ≤ l.length) := by
    simp only [logSize, nlog, maxOpBlocks] at room ⊢
    omega
  simp only [logWrite, StateT.run_bind, StateT.run_get, pure_bind, header, Option.getD_some, if_neg fits]
  by_cases logged : b ∈ l
  · -- absorbed: the header stays
    refine ⟨l, ?_, Within.refl nodup _⟩
    rw [if_pos logged, StateT.run_pure]
    congr
    cases fs
    cases header
    rfl
  · refine ⟨l ++ [b], ?_, ?_, fun x member => ?_⟩
    · rw [if_neg logged]
      rfl
    · exact nodup.append (List.nodup_singleton b) (List.disjoint_singleton.mpr logged)
    · rcases List.mem_append.mp member with old | added
      · exact .inl old
      · exact .inr added

/-- `log_write` of a block already counted keeps the header within its count. -/
theorem logWrite_counted (fs : FileSys) {l0 e l : List Nat} (header : fs.trans = some l) (within : Within l0 e l)
    (room : l.length + 1 ≤ nlog - 1) {b : Nat} (counted : b ∈ e) :
    ∃ l', (logWrite b).run fs = pure ((), { fs with trans := some l' }) ∧ Within l0 e l' := by
  obtain ⟨l', ran, logged⟩ := logWrite_logs fs header within.1 room b
  refine ⟨l', ran, (within.trans logged).mono fun x member => ?_⟩
  rcases List.mem_append.mp member with old | added
  · exact old
  · rw [List.mem_singleton.mp added]
    exact counted

/-- Every block of the disk has its bit in the one bitmap block. -/
theorem bBlock_of_lt {b : Nat} (inDisk : b < fsSize) : bBlock b = bmapStart := by
  simp only [bBlock, bPB, bSize, fsSize] at inDisk ⊢
  omega

/-- `balloc` into a header with room: the bitmap block and the block it returns,
changing only the disk. -/
theorem balloc_logs (fs : FileSys) {l : List Nat} (header : fs.trans = some l) (nodup : l.Nodup)
    (room : l.length + 2 ≤ nlog - 1) :
    ∃ b l' disk, balloc.run fs = pure (b, { fs with disk, trans := some l' }) ∧ Within l [bmapStart, b] l' := by
  simp only [balloc, StateT.run_bind, StateT.run_get, pure_bind]
  cases found : freeBlock fs.disk.bitmap with
  | none =>
    refine ⟨0, l, fs.disk, ?_, Within.refl nodup _⟩
    rw [StateT.run_pure, FileSys.with_trans_eq header]
  | some b =>
    have inDisk := (freeBlock_spec found).1
    simp only [modifyDisk, StateT.run_bind, StateT.run_modify, pure_bind]
    -- the bit, then the zeroed block
    obtain ⟨l1, ran1, logged1⟩ := logWrite_logs { fs with disk := { fs.disk with
      bitmap := Function.update fs.disk.bitmap b true } } header nodup (by omega) (bBlock b)
    have room1 : l1.length + 1 ≤ nlog - 1 := logged1.room (by rw [List.length_singleton]; omega)
    rw [ran1, pure_bind]
    simp only [bzero, modifyDisk, StateT.run_bind, StateT.run_modify, pure_bind]
    obtain ⟨l2, ran2, logged2⟩ := logWrite_logs
      { fs with
        disk := { fs.disk with
          bitmap := Function.update fs.disk.bitmap b true
          blocks := Function.update fs.disk.blocks b Block.zero }
        trans := some l1 } rfl logged1.1 room1 b
    rw [ran2, pure_bind, StateT.run_pure]
    refine ⟨b, l2, _, rfl, (logged1.trans logged2).mono fun x member => ?_⟩
    simp only [List.mem_append, List.mem_singleton, bBlock_of_lt inDisk] at member
    simp only [List.mem_cons, List.not_mem_nil, or_false]
    exact member

/-! ### `bmap` -/

/-- The indirect block as the blocks it adds to a header: none while there is none. -/
def indList (ind : Nat) : List Nat :=
  if ind = 0 then [] else [ind]

theorem mem_indList {ind b : Nat} : b ∈ indList ind ↔ ind ≠ 0 ∧ b = ind := by
  unfold indList
  split <;> simp_all [eq_comm]

theorem length_indList (ind : Nat) : (indList ind).length = if ind = 0 then 0 else 1 := by
  unfold indList
  split <;> rfl

/-- `bmapSlot` into a header with room: the bitmap block and the block it
returns, which the slot then holds, the one it held if it held one; of the
inode table only that slot changed. -/
theorem bmapSlot_logs (fs : FileSys) {l : List Nat} (header : fs.trans = some l) (nodup : l.Nodup)
    (room : l.length + 2 ≤ nlog - 1) (ip : Fin nInode) (slot : Fin (nDirect + 1)) :
    ∃ addr l' disk itable, (bmapSlot ip slot).run fs = pure (addr, { fs with disk, itable, trans := some l' }) ∧
      Within l [bmapStart, addr] l' ∧ (itable ip).din.addrs slot = addr ∧
      ((fs.itable ip).din.addrs slot ≠ 0 → addr = (fs.itable ip).din.addrs slot) ∧
      (∀ s, s ≠ slot → (itable ip).din.addrs s = (fs.itable ip).din.addrs s) := by
  by_cases there : (fs.itable ip).din.addrs slot ≠ 0
  · refine ⟨_, l, fs.disk, fs.itable, ?_, Within.refl nodup _, rfl, fun _ => rfl, fun _ _ => rfl⟩
    simp only [bmapSlot, StateT.run_bind, StateT.run_get, pure_bind, if_pos there]
    rw [FileSys.with_trans_eq header]
    rfl
  obtain ⟨b, l', disk, ran, logged⟩ := balloc_logs fs header nodup room
  simp only [bmapSlot, StateT.run_bind, StateT.run_get, pure_bind, if_neg there, ran]
  by_cases zero : b = 0
  · -- no free block: the slot stays empty
    refine ⟨0, l', disk, fs.itable, ?_, zero ▸ logged, not_not.mp there, fun held => absurd held there,
      fun _ _ => rfl⟩
    simp only [if_pos zero]
    rfl
  · refine ⟨b, l', disk, Function.update fs.itable ip { fs.itable ip with din := { (fs.itable ip).din with
      addrs := Function.update (fs.itable ip).din.addrs slot b } }, ?_, logged, by simp,
      fun held => absurd held there, fun s other => by simp [other]⟩
    simp only [if_neg zero, setAddr, setDin, setInode, StateT.run_bind, StateT.run_modify, pure_bind]
    rfl

/-- `bmapEntry` into a header with room: the bitmap block, the block it returns,
and the indirect block it writes that block into; the inode table stays. -/
theorem bmapEntry_logs (fs : FileSys) {l : List Nat} (header : fs.trans = some l) (nodup : l.Nodup)
    (room : l.length + 3 ≤ nlog - 1) (ind j : Nat) :
    ∃ addr l' disk, (bmapEntry ind j).run fs = pure (addr, { fs with disk, trans := some l' }) ∧
      Within l [bmapStart, addr, ind] l' := by
  by_cases there : (fs.disk.blocks ind).word j ≠ 0
  · refine ⟨(fs.disk.blocks ind).word j, l, fs.disk, ?_, Within.refl nodup _⟩
    simp only [bmapEntry, StateT.run_bind, StateT.run_get, pure_bind, if_pos there]
    rw [FileSys.with_trans_eq header]
    rfl
  obtain ⟨b, l1, disk, ran, logged⟩ := balloc_logs fs header nodup (by omega)
  simp only [bmapEntry, StateT.run_bind, StateT.run_get, pure_bind, if_neg there, ran]
  have within : Within l [bmapStart, b, ind] l1 := logged.mono fun x member => by
    simp only [List.mem_cons, List.not_mem_nil, or_false] at member ⊢
    rcases member with rfl | rfl
    · exact .inl rfl
    · exact .inr (.inl rfl)
  by_cases zero : b = 0
  · refine ⟨b, l1, disk, ?_, within⟩
    simp only [zero, ne_eq, not_true_eq_false, if_false, StateT.run_pure]
  · -- the entry is written into the indirect block, which is logged
    have room1 : l1.length + 1 ≤ nlog - 1 := logged.room (by simp only [List.length_cons, List.length_nil]; omega)
    obtain ⟨l2, ran2, logged2⟩ := logWrite_counted { fs with
      disk := { disk with blocks := Function.update disk.blocks ind ((disk.blocks ind).setWord j b) },
      trans := some l1 } rfl within room1 (b := ind) (by simp)
    simp only [if_pos zero, modifyDisk, StateT.run_bind, StateT.run_modify, pure_bind, ran2, StateT.run_pure]
    exact ⟨b, l2, _, rfl, logged2⟩

/-- The indirect block of entry `ip`. -/
def FileSys.indOf (fs : FileSys) (ip : Fin nInode) : Nat :=
  (fs.itable ip).din.addrs indirectSlot

/-- **`bmap`'s header.** Into a header with room, `bmap` of a block of the file
returns, having logged the bitmap block, the block it returns and the indirect
block the inode then has; an indirect block there stays. -/
theorem bmap_logs (fs : FileSys) {l : List Nat} (header : fs.trans = some l) (nodup : l.Nodup)
    (room : l.length + 5 ≤ nlog - 1) (ip : Fin nInode) (bn : Nat) (inFile : bn < maxFile) :
    ∃ addr l' disk itable, (bmap ip bn).run fs = pure (addr, { fs with disk, itable, trans := some l' }) ∧
      Within l (bmapStart :: addr :: indList ((itable ip).din.addrs indirectSlot)) l' ∧
      (fs.indOf ip ≠ 0 → (itable ip).din.addrs indirectSlot = fs.indOf ip) := by
  by_cases direct : bn < nDirect
  · obtain ⟨addr, l', disk, itable, ran, logged, -, -, others⟩ :=
      bmapSlot_logs fs header nodup (by omega) ip (directSlot ⟨bn, direct⟩)
    refine ⟨addr, l', disk, itable, ?_, logged.mono fun x member => ?_,
      fun _ => others _ (directSlot_ne_indirectSlot _).symm⟩
    · simp only [bmap, dif_pos direct, ran]
    · simp only [List.mem_cons, List.not_mem_nil, or_false] at member
      rcases member with rfl | rfl
      · exact List.mem_cons_self
      · exact List.mem_cons_of_mem _ List.mem_cons_self
  have entry : bn - nDirect < nIndirect := by
    simp only [maxFile, nDirect, nIndirect, bSize] at inFile direct ⊢
    omega
  -- first the indirect block, then its entry
  obtain ⟨ind, l1, disk1, itable1, ran1, logged1, slot1, held1, -⟩ :=
    bmapSlot_logs fs header nodup (by omega) ip indirectSlot
  have kept : fs.indOf ip ≠ 0 → (itable1 ip).din.addrs indirectSlot = fs.indOf ip := fun there =>
    slot1.trans (held1 there)
  simp only [bmap, dif_neg direct, if_pos entry, StateT.run_bind, ran1, pure_bind]
  by_cases zero : ind = 0
  · refine ⟨0, l1, disk1, itable1, ?_, logged1.mono fun x member => ?_, kept⟩
    · simp only [if_pos zero, StateT.run_pure]
    · simp only [List.mem_cons, List.not_mem_nil, or_false, zero] at member ⊢
      tauto
  have room1 : l1.length + 3 ≤ nlog - 1 := logged1.room (by simp only [List.length_cons, List.length_nil]; omega)
  obtain ⟨addr, l2, disk2, ran2, logged2⟩ :=
    bmapEntry_logs { fs with disk := disk1, itable := itable1, trans := some l1 } rfl logged1.1 room1 ind
      (bn - nDirect)
  refine ⟨addr, l2, disk2, itable1, ?_, (logged1.trans logged2).mono fun x member => ?_, kept⟩
  · simp only [if_neg zero, ran2]
  · -- the indirect block is the one the slot now holds
    rw [slot1, indList, if_neg zero]
    simp only [List.mem_append, List.mem_cons, List.not_mem_nil, or_false] at member ⊢
    tauto

/-! ### `writei` -/

/-- The blocks `[off, off + n)` meets: the rounds of `writei`'s loop. -/
def spanned (off n : Nat) : Nat :=
  if n = 0 then 0 else (off % bSize + n - 1) / bSize + 1

/-- A round of `writei`'s loop, to the end of the block or of the bytes, leaves
one block fewer to meet. -/
theorem spanned_round {off tot n : Nat} (more : tot < n) :
    spanned (off + min (n - tot) (bSize - off % bSize)) (n - (tot + min (n - tot) (bSize - off % bSize))) + 1 ≤
      spanned off (n - tot) := by
  have piece : min (n - tot) (bSize - off % bSize) = min (n - tot) (1024 - off % 1024) := rfl
  rw [piece]
  generalize chunk : min (n - tot) (1024 - off % 1024) = m
  have bounds : m ≤ n - tot ∧ m ≤ 1024 - off % 1024 ∧ (m = n - tot ∨ m = 1024 - off % 1024) := by omega
  unfold spanned
  rw [if_neg (by omega : n - tot ≠ 0)]
  simp only [bSize]
  by_cases finished : n - (tot + m) = 0
  · rw [if_pos finished]
    omega
  · -- the round ran to the end of its block, so the next starts a block
    rw [if_neg finished]
    omega

/-- What a round counts: the header's blocks so far, the data block `addr`, and
the indirect block `ind'` if the round made it, there having been none (`ind`). -/
def countRound (e : List Nat) (ind ind' addr : Nat) : List Nat :=
  if ind = 0 then e ++ addr :: indList ind' else e ++ [addr]

/-- A round's `bmap` keeps the header within what the round counts, which holds
the bitmap block and the indirect block, and grows by the data block and at most
the new indirect block. -/
theorem Within.round {l0 e l l1 : List Nat} {ind ind' addr : Nat} (within : Within l0 e l)
    (bitmap : bmapStart ∈ e) (indirect : ind ≠ 0 → ind ∈ e) (kept : ind ≠ 0 → ind' = ind)
    (logged : Within l (bmapStart :: addr :: indList ind') l1) :
    Within l0 (countRound e ind ind' addr) l1 ∧ addr ∈ countRound e ind ind' addr ∧
      bmapStart ∈ countRound e ind ind' addr ∧ (ind' ≠ 0 → ind' ∈ countRound e ind ind' addr) ∧
      (countRound e ind ind' addr).length + (indList ind).length ≤ e.length + 1 + (indList ind').length := by
  have counted : ∀ x ∈ bmapStart :: addr :: indList ind', x ∈ countRound e ind ind' addr := by
    intro x member
    rcases List.mem_cons.mp member with rfl | member
    · unfold countRound
      split <;> exact List.mem_append_left _ bitmap
    rcases List.mem_cons.mp member with rfl | member
    · unfold countRound
      split <;> simp
    obtain ⟨there, rfl⟩ := mem_indList.mp member
    unfold countRound
    split
    · simp [indList, there]
    · -- an indirect block there before is the one counted
      rename_i before
      exact List.mem_append_left _ (kept before ▸ indirect before)
  refine ⟨(within.trans logged).mono fun x member => ?_, counted addr (by simp), counted _ List.mem_cons_self,
    fun there => counted _ (by simp [indList, there]), ?_⟩
  · rcases List.mem_append.mp member with old | new
    · unfold countRound
      split <;> exact List.mem_append_left _ old
    · exact counted x new
  · unfold countRound
    split
    · rename_i none
      simp only [List.length_append, List.length_cons, indList, if_pos none, List.length_nil]
      omega
    · rename_i before
      rw [kept before]
      simp only [List.length_append, List.length_singleton, indList, if_neg before]
      omega

/-- **`writei`'s loop.** With the header within `e`, which holds the bitmap
block, the indirect block once there is one, and a block for each round done,
and rounds left for the blocks the bytes left meet: the loop returns, each round
adding its data block and, the round that makes it, the indirect block. -/
theorem writeLoop_logs (ip : Fin nInode) (src : List UInt8) (n : Nat) {l0 : List Nat} {R0 : Nat}
    (room : l0.length + R0 + 6 ≤ nlog - 1) (fuel : Nat) :
    ∀ (tot off : Nat) (fs : FileSys) (l e : List Nat), fs.trans = some l → Within l0 e l → bmapStart ∈ e →
      (fs.indOf ip ≠ 0 → fs.indOf ip ∈ e) →
      e.length + spanned off (n - tot) ≤ 1 + (indList (fs.indOf ip)).length + R0 →
      off + (n - tot) ≤ maxFile * bSize →
      ∃ res fs' l' e', (writeLoop ip src n tot off fuel).run fs = pure (res, fs') ∧ fs'.trans = some l' ∧
        Within l0 e' l' ∧ e'.length ≤ 2 + R0 := by
  have count : ∀ x, (indList x).length ≤ 1 := fun x => by rw [length_indList]; split <;> omega
  induction fuel with
  | zero =>
    intro tot off fs l e header within _ _ budget _
    exact ⟨(tot, off), fs, l, e, rfl, header, within, by have := count (fs.indOf ip); omega⟩
  | succ fuel ih =>
    intro tot off fs l e header within bitmap indirect budget inside
    by_cases done : n ≤ tot
    · refine ⟨(tot, off), fs, l, e, ?_, header, within, by have := count (fs.indOf ip); omega⟩
      simp only [writeLoop, if_pos done, StateT.run_pure]
    have more : 0 < spanned off (n - tot) := by
      unfold spanned
      rw [if_neg (by omega)]
      exact Nat.succ_pos _
    have inFile : off / bSize < maxFile := by
      simp only [maxFile, nDirect, nIndirect, bSize] at inside ⊢
      omega
    have lengthL := within.length_le
    obtain ⟨addr, l1, disk1, itable1, ran1, logged1, kept⟩ :=
      bmap_logs fs header within.1 (by have := count (fs.indOf ip); omega) ip (off / bSize) inFile
    obtain ⟨within1, counted, bitmap1, indirect1, grown⟩ := within.round bitmap indirect kept logged1
    simp only [writeLoop, if_neg done, StateT.run_bind, ran1, pure_bind]
    generalize countRound e (fs.indOf ip) ((itable1 ip).din.addrs indirectSlot) addr = e1
      at within1 counted bitmap1 indirect1 grown
    have bounded1 : e1.length ≤ 2 + R0 := by
      have := count ((itable1 ip).din.addrs indirectSlot)
      omega
    have lengthL1 := within1.length_le
    by_cases zero : addr = 0
    · -- no block: the loop stops
      refine ⟨(tot, off), { fs with disk := disk1, itable := itable1, trans := some l1 }, l1, e1, ?_, rfl,
        within1, bounded1⟩
      rw [if_pos zero, StateT.run_pure]
    rw [if_neg zero]
    simp only [modifyDisk, StateT.run_bind, StateT.run_modify, pure_bind]
    have round := @spanned_round off tot n (by omega)
    -- the round's piece: to the end of the block or of the bytes
    generalize piece : min (n - tot) (bSize - off % bSize) = m at round
    generalize ({ disk1 with
      blocks := Function.update disk1.blocks addr ((disk1.blocks addr).write (off % bSize) ((src.drop tot).take m)) }
      : Disk) = written
    by_cases short : ((src.drop tot).take m).length < m
    · -- the source ran out: the loop stops
      refine ⟨(tot, off), { fs with disk := written, itable := itable1, trans := some l1 }, l1, e1, ?_, rfl,
        within1, bounded1⟩
      rw [if_pos short, StateT.run_pure]
    -- the block is logged, and the loop goes on from the next byte
    obtain ⟨l2, ran2, within2⟩ := logWrite_counted { fs with disk := written, itable := itable1, trans := some l1 }
      rfl within1 (by omega) counted
    rw [if_neg short, StateT.run_bind, ran2, pure_bind]
    have budget1 : e1.length + spanned (off + m) (n - (tot + m)) ≤
        1 + (indList ((itable1 ip).din.addrs indirectSlot)).length + R0 := by
      have := count (fs.indOf ip)
      omega
    exact ih (tot + m) (off + m) { fs with disk := written, itable := itable1, trans := some l2 } l2 e1 rfl within2
      bitmap1 indirect1 budget1 (by omega)

/-- `iupdate` into a header with room logs the inode's block. -/
theorem iupdate_logs (fs : FileSys) {l : List Nat} (header : fs.trans = some l) (nodup : l.Nodup)
    (room : l.length + 1 ≤ nlog - 1) (ip : Fin nInode) :
    ∃ l' disk, (iupdate ip).run fs = pure ((), { fs with disk, trans := some l' }) ∧
      Within l [iBlock (fs.itable ip).inum] l' := by
  simp only [iupdate, modifyDisk, StateT.run_bind, StateT.run_get, StateT.run_modify, pure_bind]
  obtain ⟨l', ran, logged⟩ := logWrite_logs
    { fs with disk := { fs.disk with inodes := Function.update fs.disk.inodes (fs.itable ip).inum (fs.itable ip).din } }
    header nodup room (iBlock (fs.itable ip).inum)
  rw [ran]
  exact ⟨l', _, rfl, logged⟩

/-- `iupdate` after a header within `l0` and `e`: one block more than both. -/
theorem iupdate_within (fs : FileSys) {l0 e l : List Nat} (header : fs.trans = some l) (within : Within l0 e l)
    (room : l.length + 1 ≤ nlog - 1) (ip : Fin nInode) :
    ∃ l' disk, (iupdate ip).run fs = pure ((), { fs with disk, trans := some l' }) ∧
      l'.Nodup ∧ l'.length ≤ l0.length + e.length + 1 := by
  obtain ⟨l', disk, ran, logged⟩ := iupdate_logs fs header within.1 room ip
  have counted := (within.trans logged).length_le
  simp only [List.length_append, List.length_singleton] at counted
  exact ⟨l', disk, ran, logged.1, by omega⟩

/-- **`writei`'s header.** From a header with room, `writei` of `n` bytes at
`off` returns, having added at most the bitmap block, the indirect block, the
inode's block and one block for each block the bytes meet. -/
theorem writei_logs (fs : FileSys) {l0 : List Nat} (header : fs.trans = some l0) (nodup : l0.Nodup)
    (ip : Fin nInode) (src : List UInt8) (off n : Nat) (room : l0.length + spanned off n + 6 ≤ nlog - 1) :
    ∃ r fs' l', (writei ip src off n).run fs = pure (r, fs') ∧ fs'.trans = some l' ∧
      l'.Nodup ∧ l'.length ≤ l0.length + spanned off n + 3 := by
  simp only [writei, StateT.run_bind, StateT.run_get, pure_bind]
  by_cases bad : (fs.itable ip).din.size < off ∨ (off + n) % 2 ^ 32 < off
  · refine ⟨-1, fs, l0, ?_, header, nodup, by omega⟩
    rw [if_pos bad, StateT.run_pure]
  rw [if_neg bad]
  by_cases big : maxFile * bSize < off + n
  · refine ⟨-1, fs, l0, ?_, header, nodup, by omega⟩
    rw [if_pos big, StateT.run_pure]
  rw [if_neg big, StateT.run_bind]
  -- the loop, counting the bitmap block and the indirect block the inode has
  obtain ⟨res, fs1, l1, e1, ran1, header1, within1, bounded1⟩ :=
    @writeLoop_logs ip src n l0 (spanned off n) room n 0 off fs l0 (bmapStart :: indList (fs.indOf ip)) header
      (Within.refl nodup _) List.mem_cons_self (fun there => by simp [indList, there])
      (by simp only [List.length_cons, Nat.sub_zero]; omega) (by omega)
  have lengthL1 := within1.length_le
  rw [ran1, pure_bind]
  simp only [StateT.run_bind, StateT.run_get, pure_bind]
  split
  · -- the file grew: its size, then the inode written back
    simp only [setDin, setInode, StateT.run_bind, StateT.run_modify, pure_bind]
    obtain ⟨l2, disk2, ran2, nodup2, short2⟩ := iupdate_within
      { fs1 with itable := Function.update fs1.itable ip { fs1.itable ip with
          din := { (fs1.itable ip).din with size := res.2 } } } header1 within1 (by omega) ip
    rw [ran2, pure_bind, StateT.run_pure]
    exact ⟨_, _, l2, rfl, rfl, nodup2, by omega⟩
  · obtain ⟨l2, disk2, ran2, nodup2, short2⟩ := iupdate_within fs1 header1 within1 (by omega) ip
    rw [StateT.run_bind, ran2, pure_bind, StateT.run_pure]
    exact ⟨_, _, l2, rfl, rfl, nodup2, by omega⟩

/-- `filewrite`'s chunk meets at most four blocks. -/
theorem spanned_le_of_chunk (off : Nat) {n : Nat} (chunk : n ≤ writeChunk) : spanned off n ≤ 4 := by
  unfold spanned
  split
  · omega
  · simp only [writeChunk, maxOpBlocks, bSize] at chunk ⊢
    omega

/-- **A transaction of `filewrite` logs at most seven blocks.** `writei` of at
most `filewrite`'s chunk of `((MAXOPBLOCKS-1-1-2)/2)*BSIZE` bytes, from the
empty header `begin_op` leaves, at any offset of any inode, returns, leaving a
header of at most seven distinct blocks. -/
theorem writei_chunk_logs (fs : FileSys) (ip : Fin nInode) (src : List UInt8) (off n : Nat)
    (chunk : n ≤ writeChunk) (begun : fs.trans = some []) :
    ∃ r fs' l, (writei ip src off n).run fs = .ok (r, fs') ∧ fs'.trans = some l ∧ l.Nodup ∧ l.length ≤ 7 := by
  have few := spanned_le_of_chunk off chunk
  obtain ⟨r, fs', l, ran, header, nodup, short⟩ :=
    writei_logs fs begun List.nodup_nil ip src off n
      (by simp only [List.length_nil, nlog, logSize, maxOpBlocks]; omega)
  simp only [List.length_nil, Nat.zero_add] at short
  exact ⟨r, fs', l, ran, header, nodup, by omega⟩

/-- A chunk written from byte 1000 of an inode of the booted table meets four blocks. -/
theorem writei_chunk_logs_straddling :
    3072 ≤ writeChunk ∧
      ({ boot ⟨fun _ => Dinode.zero, fun _ => false, fun _ => Block.zero⟩ with trans := some [] } :
        FileSys).trans = some [] ∧
      ∃ r fs' l, (writei 0 (List.replicate 3072 7) 1000 3072).run
          { boot ⟨fun _ => Dinode.zero, fun _ => false, fun _ => Block.zero⟩ with trans := some [] } = .ok (r, fs') ∧
        fs'.trans = some l ∧ l.Nodup ∧ l.length ≤ 7 :=
  ⟨by decide, rfl, writei_chunk_logs _ 0 _ 1000 3072 (by decide) rfl⟩

end Xv6.Fs
