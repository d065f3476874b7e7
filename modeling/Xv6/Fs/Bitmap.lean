import Mathlib.Data.Nat.Bitwise
import Xv6.Fs.Mkfs
import Xv6.Fs.ShortWrite

/-!
Contract: the free-block bitmap as `kernel/fs.c` keeps it, one bit per block in
the bitmap blocks on disk, and as `mkfs` writes it.

`Xv6.Fs.State` keeps the bitmap as a function from block numbers to bits. Here
`balloc` and `bfree` work on the bytes of the bitmap blocks, with the loops of
the source: the bit of block `b` is bit `(b % BPB) % 8` of byte `(b % BPB) / 8`
of block `BBLOCK(b, sb)` (`bitOf`), `balloc` stops at the first block below
`sb.size` whose bit is clear, marks it and zeroes it, and `bfree` clears the bit
of a block whose bit is set. `sb.size` is a parameter; the loop counters are
taken as numbers, as they are for every `sb.size` below `2^31`.

The bitmap blocks are disk blocks like the others, and `balloc` zeroes the
block it returns after marking it: were that block a bitmap block, the mark
would be lost with the rest of that block. A bitmap that marks its own blocks in
use (`Reserves`), as the one `mkfs` writes does, never lets that happen.

Owns: `Bitmap.bitOf`, `Bitmap.balloc`, `Bitmap.bfree`, `Mkfs.balloc`, and the
bitmap on which `bfree` of what `balloc` returned panics.

Does not own: the bitmap as bits (`Xv6.Fs.State`), the log (`Xv6.Log.Commit`).
-/

namespace Xv6.Fs

namespace Bitmap

theorem bPB_eq : bPB = 8192 := rfl

/-! ### Bytes -/

/-- `m = 1 << (bi % 8)`, the mask of bit `bi` in its byte. -/
def mask (bi : Nat) : UInt8 :=
  1 <<< (bi % 8).toUInt8

theorem mask_toNat (bi : Nat) : (mask bi).toNat = 2 ^ (bi % 8) := by
  have small : bi % 8 < 8 := Nat.mod_lt bi (by decide)
  unfold mask
  generalize bi % 8 = j at small ⊢
  interval_cases j <;> rfl

/-- The code's test `(data & m) == 0` reads bit `bi % 8` of the byte. -/
theorem and_mask_eq_zero (x : UInt8) (bi : Nat) :
    x &&& mask bi = 0 ↔ x.toNat.testBit (bi % 8) = false := by
  rw [← UInt8.toNat_inj, UInt8.toNat_and, mask_toNat, Nat.and_two_pow]
  cases x.toNat.testBit (bi % 8) <;> simp

theorem testBit_or_mask (x : UInt8) (bi k : Nat) :
    (x ||| mask bi).toNat.testBit k = (x.toNat.testBit k || decide (bi % 8 = k)) := by
  rw [UInt8.toNat_or, mask_toNat, Nat.testBit_or, Nat.testBit_two_pow]

theorem testBit_and_not_mask (x : UInt8) (bi : Nat) {k : Nat} (inByte : k < 8) :
    (x &&& ~~~mask bi).toNat.testBit k = (x.toNat.testBit k && !decide (bi % 8 = k)) := by
  -- the complement is read bit by bit through the byte's bit vector
  have flipped : (~~~mask bi).toNat.testBit k = !(mask bi).toNat.testBit k := by
    show (~~~mask bi).toBitVec.getLsbD k = !(mask bi).toBitVec.getLsbD k
    rw [UInt8.toBitVec_not, BitVec.getLsbD_not]
    simp [inByte]
  rw [UInt8.toNat_and, Nat.testBit_and, flipped, mask_toNat, Nat.testBit_two_pow]

/-- Marking a clear bit and clearing it again gives the byte back. -/
theorem mark_then_clear (x : UInt8) (bi : Nat) (clear : x &&& mask bi = 0) :
    (x ||| mask bi) &&& ~~~mask bi = x := by
  rw [and_mask_eq_zero] at clear
  apply UInt8.toNat_inj.mp
  apply Nat.eq_of_testBit_eq
  intro k
  by_cases inByte : k < 8
  · rw [testBit_and_not_mask _ _ inByte, testBit_or_mask]
    by_cases same : bi % 8 = k
    · subst same
      simp [clear]
    · simp [same]
  · -- past the byte every bit is clear
    have high : ∀ y : UInt8, y.toNat.testBit k = false := fun y =>
      Nat.testBit_lt_two_pow (lt_of_lt_of_le y.toNat_lt (Nat.pow_le_pow_right (by decide) (by omega)))
    rw [high, high]

/-! ### The bit of a block -/

/-- `bp->data[i] = f(bp->data[i])` on block `blk`: a write through the buffer
cache, which lands at once. -/
def updateByte (blocks : Nat → Block) (blk i : Nat) (f : UInt8 → UInt8) : Nat → Block :=
  Function.update blocks blk (Function.update (blocks blk) i (f (blocks blk i)))

/-- The bit of block `b`, tested as `balloc` and `bfree` test it: with
`bi = b % BPB`, byte `bi / 8` of block `BBLOCK(b, sb)` under the mask of `bi`. -/
def bitOf (blocks : Nat → Block) (b : Nat) : Bool :=
  blocks (bBlock b) (b % bPB / 8) &&& mask (b % bPB) != 0

/-- `bp->data[bi/8] |= m`: block `b` marked in use. -/
def markBit (blocks : Nat → Block) (b : Nat) : Nat → Block :=
  updateByte blocks (bBlock b) (b % bPB / 8) (· ||| mask (b % bPB))

/-- `bp->data[bi/8] &= ~m`: block `b` marked free. -/
def clearBit (blocks : Nat → Block) (b : Nat) : Nat → Block :=
  updateByte blocks (bBlock b) (b % bPB / 8) (· &&& ~~~mask (b % bPB))

theorem bitOf_eq_testBit (blocks : Nat → Block) (b : Nat) :
    bitOf blocks b = (blocks (bBlock b) (b % bPB / 8)).toNat.testBit (b % bPB % 8) := by
  unfold bitOf
  cases tested : (blocks (bBlock b) (b % bPB / 8)).toNat.testBit (b % bPB % 8)
  · simp [(and_mask_eq_zero _ _).mpr tested]
  · have set : ¬ (blocks (bBlock b) (b % bPB / 8)).toNat.testBit (b % bPB % 8) = false := by
      simp [tested]
    simp [(and_mask_eq_zero _ _).not.mpr set]

/-- The place of a block's bit (its bitmap block, byte and bit) names the block. -/
theorem eq_of_place {b c : Nat} (block : bBlock c = bBlock b) (byte : c % bPB / 8 = b % bPB / 8)
    (bit : c % bPB % 8 = b % bPB % 8) : c = b := by
  simp only [bBlock, bPB_eq] at block byte bit
  omega

/-- A block of the blocks `[b, b + BPB)` with `b` a multiple of `BPB` has its bit
in block `BBLOCK(b, sb)`, at `bi = c - b`. -/
theorem place_of_aligned {b bi : Nat} (aligned : b % bPB = 0) (inBlock : bi < bPB) :
    bBlock (b + bi) = bBlock b ∧ (b + bi) % bPB = bi := by
  simp only [bBlock, bPB_eq] at aligned inBlock ⊢
  omega

/-- A write outside the bitmap block holding `c`'s bit keeps that bit. -/
theorem bitOf_update_of_ne {blocks : Nat → Block} {blk c : Nat} (x : Block) (other : bBlock c ≠ blk) :
    bitOf (Function.update blocks blk x) c = bitOf blocks c := by
  simp [bitOf, Function.update_of_ne other]

/-- A byte written at the place of `b`'s bit: `c`'s bit is read from the new
byte when it shares `b`'s byte, and is kept otherwise. -/
theorem bitOf_updateByte (blocks : Nat → Block) (b c : Nat) (f : UInt8 → UInt8) :
    bitOf (updateByte blocks (bBlock b) (b % bPB / 8) f) c =
      if bBlock c = bBlock b ∧ c % bPB / 8 = b % bPB / 8 then
        (f (blocks (bBlock b) (b % bPB / 8))).toNat.testBit (c % bPB % 8)
      else bitOf blocks c := by
  split
  · rename_i same
    obtain ⟨block, byte⟩ := same
    rw [bitOf_eq_testBit, updateByte, block, byte, Function.update_self, Function.update_self]
  · rename_i apart
    rw [bitOf_eq_testBit, bitOf_eq_testBit, updateByte]
    rcases not_and_or.mp apart with block | byte
    · rw [Function.update_of_ne block]
    · by_cases sameBlock : bBlock c = bBlock b
      · rw [sameBlock, Function.update_self, Function.update_of_ne byte]
      · rw [Function.update_of_ne sameBlock]

/-- Marking `b` sets exactly `b`'s bit. -/
theorem bitOf_markBit (blocks : Nat → Block) (b c : Nat) :
    bitOf (markBit blocks b) c = (bitOf blocks c || decide (c = b)) := by
  rw [markBit, bitOf_updateByte]
  split
  · rename_i same
    obtain ⟨block, byte⟩ := same
    rw [testBit_or_mask, bitOf_eq_testBit, block, byte]
    congr 1
    exact decide_eq_decide.mpr ⟨fun bit => eq_of_place block byte bit.symm, fun same => by rw [same]⟩
  · rename_i apart
    have other : c ≠ b := fun same => apart ⟨by rw [same], by rw [same]⟩
    simp [other]

/-- Clearing `b` clears exactly `b`'s bit. -/
theorem bitOf_clearBit (blocks : Nat → Block) (b c : Nat) :
    bitOf (clearBit blocks b) c = (bitOf blocks c && !decide (c = b)) := by
  rw [clearBit, bitOf_updateByte]
  split
  · rename_i same
    obtain ⟨block, byte⟩ := same
    rw [testBit_and_not_mask _ _ (Nat.mod_lt _ (by decide)), bitOf_eq_testBit, block, byte]
    congr 2
    exact decide_eq_decide.mpr ⟨fun bit => eq_of_place block byte bit.symm, fun same => by rw [same]⟩
  · rename_i apart
    have other : c ≠ b := fun same => apart ⟨by rw [same], by rw [same]⟩
    simp [other]

/-- Clearing a bit just marked gives the bitmap back. -/
theorem clearBit_markBit {blocks : Nat → Block} {b : Nat} (free : bitOf blocks b = false) :
    clearBit (markBit blocks b) b = blocks := by
  have clear : blocks (bBlock b) (b % bPB / 8) &&& mask (b % bPB) = 0 := by
    simpa [bitOf] using free
  simp only [clearBit, markBit, updateByte, Function.update_self, Function.update_idem,
    mark_then_clear _ _ clear, Function.update_eq_self]

/-- `bfree`'s write and a write of another block than its bitmap block commute. -/
theorem clearBit_update_of_ne {blocks : Nat → Block} {r : Nat} (x : Block) (apart : bBlock r ≠ r) :
    clearBit (Function.update blocks r x) r = Function.update (clearBit blocks r) r x := by
  simp only [clearBit, updateByte, Function.update_of_ne apart]
  exact Function.update_comm (Ne.symm apart) _ _ _

/-! ### The first clear bit -/

section Search

variable {bits : Nat → Bool} {lo mid hi r : Nat}

/-- `r` is the first number of `[lo, hi)` whose bit is clear. -/
structure FirstClear (bits : Nat → Bool) (lo hi r : Nat) : Prop where
  low : lo ≤ r
  high : r < hi
  clear : bits r = false
  before : ∀ c, lo ≤ c → c < r → bits c = true

/-- Every bit of `[lo, hi)` is set. -/
def AllSet (bits : Nat → Bool) (lo hi : Nat) : Prop :=
  ∀ c, lo ≤ c → c < hi → bits c = true

theorem FirstClear.here (inside : lo < hi) (clear : bits lo = false) : FirstClear bits lo hi lo :=
  ⟨le_refl lo, inside, clear, fun _ low below => absurd below (Nat.not_lt.mpr low)⟩

theorem FirstClear.next (set : bits lo = true) (first : FirstClear bits (lo + 1) hi r) :
    FirstClear bits lo hi r := by
  refine ⟨by have := first.low; omega, first.high, first.clear, fun c low below => ?_⟩
  rcases Nat.eq_or_lt_of_le low with rfl | later
  · exact set
  · exact first.before c later below

theorem AllSet.next (set : bits lo = true) (rest : AllSet bits (lo + 1) hi) : AllSet bits lo hi := by
  intro c low high
  rcases Nat.eq_or_lt_of_le low with rfl | later
  · exact set
  · exact rest c later high

theorem AllSet.of_le (empty : hi ≤ lo) : AllSet bits lo hi :=
  fun _ low high => absurd (lt_of_lt_of_le high empty) (Nat.not_lt.mpr low)

theorem AllSet.mono (set : AllSet bits lo hi) (le : mid ≤ hi) : AllSet bits lo mid :=
  fun c low high => set c low (lt_of_lt_of_le high le)

theorem FirstClear.widen (first : FirstClear bits lo mid r) (le : mid ≤ hi) : FirstClear bits lo hi r :=
  ⟨first.low, lt_of_lt_of_le first.high le, first.clear, first.before⟩

/-- Past a stretch of set bits the first clear bit is the same. -/
theorem FirstClear.drop (first : FirstClear bits lo hi r) (set : AllSet bits lo mid) (le : lo ≤ mid) :
    FirstClear bits mid hi r := by
  have past : mid ≤ r := by
    by_contra before
    have := set r first.low (by omega)
    rw [first.clear] at this
    cases this
  exact ⟨past, first.high, first.clear, fun c low below => first.before c (by omega) below⟩

theorem FirstClear.unique {r' : Nat} (first : FirstClear bits lo hi r) (first' : FirstClear bits lo hi r') :
    r = r' := by
  rcases Nat.lt_trichotomy r r' with earlier | same | later
  · have := first'.before r first.low earlier
    rw [first.clear] at this
    cases this
  · exact same
  · have := first.before r' first'.low later
    rw [first'.clear] at this
    cases this

theorem FirstClear.not_allSet (first : FirstClear bits lo hi r) : ¬ AllSet bits lo hi := by
  intro set
  have := set r first.low first.high
  rw [first.clear] at this
  cases this

/-- Every range has a first clear bit or has all its bits set. -/
theorem firstClear_or_allSet (bits : Nat → Bool) (lo hi : Nat) :
    (∃ r, FirstClear bits lo hi r) ∨ AllSet bits lo hi := by
  by_cases some : ∃ c, lo ≤ c ∧ c < hi ∧ bits c = false
  · classical
    obtain ⟨low, high, clear⟩ := Nat.find_spec some
    refine .inl ⟨Nat.find some, low, high, clear, fun c low' below => ?_⟩
    have notClear := Nat.find_min some below
    simp only [not_and, Bool.not_eq_false] at notClear
    exact notClear low' (by have := high; omega)
  · refine .inr fun c low high => ?_
    simp only [not_exists, not_and, Bool.not_eq_false] at some
    exact some c low high

end Search

/-! ### `balloc` and `bfree` -/

/-- `balloc`'s inner loop over the bitmap block `data` read for the blocks from
`b` on: the first `bi` from `bi` on, with `bi < BPB` and `b + bi < sb.size`,
whose bit is clear. -/
def scan (data : Block) (size b : Nat) : Nat → Nat → Option Nat
  | _, 0 => none
  | bi, fuel + 1 =>
    if bi < bPB ∧ b + bi < size then
      if data (bi / 8) &&& mask bi = 0 then some bi else scan data size b (bi + 1) fuel
    else none

/-- What `balloc` does with the clear bit `bi` of the bitmap block of `b`: mark
it in use, log the bitmap block, zero block `b + bi` and return it. -/
def markInUse (b bi : Nat) : FsM Nat := do
  modifyDisk fun d => { d with blocks := updateByte d.blocks (bBlock b) (bi / 8) (· ||| mask bi) }
  logWrite (bBlock b)
  bzero (b + bi)
  pure (b + bi)

/-- `balloc`'s outer loop from `b`, one bitmap block a round; `fuel` bounds the
rounds. -/
def ballocLoop (size : Nat) : Nat → Nat → FsM Nat
  | _, 0 => pure 0
  | b, fuel + 1 => do
    if size ≤ b then pure 0
    else
      match scan ((← get).disk.blocks (bBlock b)) size b 0 bPB with
      | some bi => markInUse b bi
      | none => ballocLoop size (b + bPB) fuel

/-- `balloc`: a zeroed block, or 0 ("balloc: out of blocks") when every block
below `sb.size` is in use. -/
def balloc (size : Nat) : FsM Nat :=
  ballocLoop size 0 (size / bPB + 1)

/-- `bfree`. -/
def bfree (b : Nat) : FsM Unit := do
  let bi := b % bPB
  if (← get).disk.blocks (bBlock b) (bi / 8) &&& mask bi = 0 then throw "freeing free block"
  modifyDisk fun d => { d with blocks := clearBit d.blocks b }
  logWrite (bBlock b)

/-- The disk after `balloc` returned `r`: `r`'s bit marked, then block `r` zeroed. -/
def allocate (d : Disk) (r : Nat) : Disk :=
  { d with blocks := Function.update (markBit d.blocks r) r Block.zero }

/-- The bits of the bitmap's own blocks are set, so that `balloc` never hands
one of them out. -/
def Reserves (blocks : Nat → Block) (size : Nat) : Prop :=
  ∀ b < size, bBlock b < size → bitOf blocks (bBlock b) = true

/-- Under `Reserves`, the first clear block holds no block's bit. -/
theorem Reserves.apart {blocks : Nat → Block} {size r : Nat} (reserves : Reserves blocks size)
    (first : FirstClear (bitOf blocks) 0 size r) {c : Nat} (below : c < size) : bBlock c ≠ r := by
  intro same
  have marked := reserves c below (by rw [same]; exact first.high)
  rw [same, first.clear] at marked
  cases marked

/-! ### The loops -/

/-- The inner loop over the bitmap block of an aligned `b` finds the first clear
bit of `[b + bi, min (b + BPB) sb.size)`, or finds that there is none. -/
theorem scan_spec {blocks : Nat → Block} {size b : Nat} (aligned : b % bPB = 0) :
    ∀ bi fuel, bPB ≤ bi + fuel →
      (∃ bi', scan (blocks (bBlock b)) size b bi fuel = some bi' ∧
        FirstClear (bitOf blocks) (b + bi) (min (b + bPB) size) (b + bi')) ∨
      (scan (blocks (bBlock b)) size b bi fuel = none ∧
        AllSet (bitOf blocks) (b + bi) (min (b + bPB) size)) := by
  intro bi fuel
  induction fuel generalizing bi with
  | zero =>
    intro enough
    exact .inr ⟨rfl, AllSet.of_le (by omega)⟩
  | succ fuel ih =>
    intro enough
    by_cases within : bi < bPB ∧ b + bi < size
    · obtain ⟨block, byte⟩ := place_of_aligned aligned within.1
      -- the code's byte test is the bit of block `b + bi`
      have tested : blocks (bBlock b) (bi / 8) &&& mask bi = 0 ↔ bitOf blocks (b + bi) = false := by
        rw [bitOf_eq_testBit, block, byte, and_mask_eq_zero]
      by_cases clear : blocks (bBlock b) (bi / 8) &&& mask bi = 0
      · refine .inl ⟨bi, by simp [scan, within, clear], FirstClear.here (by omega) (tested.mp clear)⟩
      · have set : bitOf blocks (b + bi) = true := by simpa using tested.not.mp clear
        have stepped : scan (blocks (bBlock b)) size b bi (fuel + 1) =
            scan (blocks (bBlock b)) size b (bi + 1) fuel := by
          simp [scan, within, clear]
        rw [stepped]
        rcases ih (bi + 1) (by omega) with ⟨bi', found, first⟩ | ⟨none, rest⟩
        · exact .inl ⟨bi', found, FirstClear.next set first⟩
        · exact .inr ⟨none, AllSet.next set rest⟩
    · have stopped : scan (blocks (bBlock b)) size b bi (fuel + 1) = none := by
        simp only [scan, if_neg within]
      exact .inr ⟨stopped, AllSet.of_le (by omega)⟩

/-- `bzero` in a transaction with room: the block is zero, and the header grows
by at most that block. -/
theorem bzero_within {fs : FileSys} {lh : List Nat} (x : Nat) (inTrans : fs.trans = some lh)
    (room : lh.length + 1 < nlog) :
    ∃ lh', (bzero x).run fs = pure ((), { fs with
      disk := { fs.disk with blocks := Function.update fs.disk.blocks x Block.zero }, trans := some lh' }) ∧
      lh'.length ≤ lh.length + 1 := by
  obtain ⟨lh', logged, grew⟩ := @logWrite_within { fs with
    disk := { fs.disk with blocks := Function.update fs.disk.blocks x Block.zero } } lh x inTrans room
  refine ⟨lh', ?_, grew⟩
  simp only [bzero, modifyDisk, StateT.run_bind, StateT.run_modify, pure_bind]
  exact logged

/-- Marking the clear bit of an aligned `b`'s block `b + bi`: the disk is
`allocate`d at `b + bi`, and two blocks are logged at most. -/
theorem markInUse_within {fs : FileSys} {lh : List Nat} {b bi : Nat} (aligned : b % bPB = 0)
    (inBlock : bi < bPB) (inTrans : fs.trans = some lh) (room : lh.length + 2 < nlog) :
    ∃ lh', (markInUse b bi).run fs = pure (b + bi, { fs with disk := allocate fs.disk (b + bi), trans := some lh' }) ∧
      lh'.length ≤ lh.length + 2 := by
  obtain ⟨block, byte⟩ := place_of_aligned aligned inBlock
  -- the code's write at `(BBLOCK(b), bi / 8)` is the mark of `b + bi`
  have marked : updateByte fs.disk.blocks (bBlock b) (bi / 8) (· ||| mask bi) = markBit fs.disk.blocks (b + bi) := by
    rw [markBit, block, byte]
  let fsMarked : FileSys := { fs with disk := { fs.disk with blocks := markBit fs.disk.blocks (b + bi) } }
  obtain ⟨lh1, logged, grew1⟩ := @logWrite_within fsMarked lh (bBlock b) inTrans (by omega)
  obtain ⟨lh2, zeroed, grew2⟩ := @bzero_within { fsMarked with trans := some lh1 } lh1 (b + bi) rfl (by omega)
  refine ⟨lh2, ?_, by omega⟩
  simp only [markInUse, modifyDisk, StateT.run_bind, StateT.run_modify, pure_bind, marked]
  rw [show ({ fs with disk := { fs.disk with blocks := markBit fs.disk.blocks (b + bi) } } : FileSys) = fsMarked from rfl,
    logged, pure_bind, zeroed, pure_bind]
  rfl

/-- The outer loop from an aligned `b`, over a range whose bits are all set:
it returns 0 and changes nothing. -/
theorem ballocLoop_full {size : Nat} :
    ∀ (fuel b : Nat) (fs : FileSys), b % bPB = 0 → AllSet (bitOf fs.disk.blocks) b size →
      (ballocLoop size b fuel).run fs = pure (0, fs) := by
  intro fuel
  induction fuel with
  | zero => intro b fs _ _; rfl
  | succ fuel ih =>
    intro b fs aligned full
    by_cases past : size ≤ b
    · simp [ballocLoop, past]
    · rcases @scan_spec fs.disk.blocks size b aligned 0 bPB (by omega)
        with ⟨bi, found, first⟩ | ⟨none, set⟩
      · exact absurd (full.mono (min_le_right _ _)) (by simpa using first.not_allSet)
      · have next : AllSet (bitOf fs.disk.blocks) (b + bPB) size :=
          fun c low high => full c (by omega) high
        simp only [ballocLoop, if_neg past, StateT.run_bind, StateT.run_get, pure_bind, none]
        exact ih (b + bPB) fs (by rw [Nat.add_mod_right, aligned]) next

/-- The outer loop from an aligned `b` with enough rounds, over a range with a
first clear bit `r`: it returns `r`, with the disk `allocate`d at `r`. -/
theorem ballocLoop_found {size r : Nat} :
    ∀ (fuel b : Nat) (fs : FileSys) (lh : List Nat), b % bPB = 0 → size ≤ b + fuel * bPB →
      FirstClear (bitOf fs.disk.blocks) b size r → fs.trans = some lh → lh.length + 2 < nlog →
      ∃ lh', (ballocLoop size b fuel).run fs = pure (r, { fs with disk := allocate fs.disk r, trans := some lh' }) ∧
        lh'.length ≤ lh.length + 2 := by
  intro fuel
  induction fuel with
  | zero =>
    intro b fs lh _ enough first
    have := first.low
    have := first.high
    omega
  | succ fuel ih =>
    intro b fs lh aligned enough first inTrans room
    have notPast : ¬ size ≤ b := by have := first.low; have := first.high; omega
    rcases @scan_spec fs.disk.blocks size b aligned 0 bPB (by omega)
      with ⟨bi, found, here⟩ | ⟨none, set⟩
    · -- the loop stops in this round, at the first clear bit
      have inBlock : bi < bPB := by have := here.high; omega
      have same : r = b + bi := first.unique ((here.widen (min_le_right _ _)).drop (AllSet.of_le le_rfl) (by omega))
      subst same
      simp only [ballocLoop, if_neg notPast, StateT.run_bind, StateT.run_get, pure_bind, found]
      exact markInUse_within aligned inBlock inTrans room
    · -- every bit of this round is set: the next round starts one bitmap block on
      have later := first.drop set (by omega)
      have inRange : min (b + bPB) size = b + bPB := by have := later.low; have := later.high; omega
      rw [inRange] at later
      simp only [ballocLoop, if_neg notPast, StateT.run_bind, StateT.run_get, pure_bind, none]
      exact ih (b + bPB) fs lh (by rw [Nat.add_mod_right, aligned]) (by rw [bPB_eq] at enough ⊢; rw [Nat.succ_mul] at enough; omega)
        later inTrans room

/-- **`balloc`, found.** In a transaction with room for two more blocks, when `r`
is the first block below `sb.size` whose bit is clear, `balloc` returns `r`,
with its bit marked and the block zeroed. -/
theorem balloc_found {fs : FileSys} {lh : List Nat} {size r : Nat}
    (first : FirstClear (bitOf fs.disk.blocks) 0 size r) (inTrans : fs.trans = some lh)
    (room : lh.length + 2 < nlog) :
    ∃ lh', (balloc size).run fs = pure (r, { fs with disk := allocate fs.disk r, trans := some lh' }) ∧
      lh'.length ≤ lh.length + 2 :=
  ballocLoop_found _ 0 fs lh (Nat.zero_mod _) (by rw [bPB_eq]; omega) first inTrans room

/-- **`balloc`, full.** When every bit below `sb.size` is set, `balloc` returns 0
and changes nothing. -/
theorem balloc_full {fs : FileSys} {size : Nat} (full : AllSet (bitOf fs.disk.blocks) 0 size) :
    (balloc size).run fs = pure (0, fs) :=
  ballocLoop_full _ 0 fs (Nat.zero_mod _) full

/-- **`bfree`, marked.** In a transaction with room, `bfree` of a block whose bit
is set clears that bit. -/
theorem bfree_marked {fs : FileSys} {lh : List Nat} {b : Nat} (marked : bitOf fs.disk.blocks b = true)
    (inTrans : fs.trans = some lh) (room : lh.length + 1 < nlog) :
    ∃ lh', (bfree b).run fs = pure ((), { fs with
      disk := { fs.disk with blocks := clearBit fs.disk.blocks b }, trans := some lh' }) ∧
      lh'.length ≤ lh.length + 1 := by
  have set : ¬ fs.disk.blocks (bBlock b) (b % bPB / 8) &&& mask (b % bPB) = 0 := by
    simpa [bitOf] using marked
  obtain ⟨lh', logged, grew⟩ := @logWrite_within { fs with
    disk := { fs.disk with blocks := clearBit fs.disk.blocks b } } lh (bBlock b) inTrans room
  refine ⟨lh', ?_, grew⟩
  simp only [bfree, StateT.run_bind, StateT.run_get, pure_bind, if_neg set, modifyDisk, StateT.run_modify]
  exact logged

/-- **`bfree`, free.** `bfree` of a block whose bit is clear panics. -/
theorem bfree_free {fs : FileSys} {b : Nat} (free : bitOf fs.disk.blocks b = false) :
    (bfree b).run fs = .error "freeing free block" := by
  have clear : fs.disk.blocks (bBlock b) (b % bPB / 8) &&& mask (b % bPB) = 0 := by
    simpa [bitOf] using free
  simp only [bfree, StateT.run_bind, StateT.run_get, pure_bind, if_pos clear]
  rfl

/-- A block whose bitmap block was zeroed reads as free. -/
theorem bitOf_update_zero {blocks : Nat → Block} {b : Nat} :
    bitOf (Function.update blocks (bBlock b) Block.zero) b = false := by
  simp [bitOf, Block.zero]

end Bitmap

/-! ### The bitmap `mkfs` writes -/

namespace Mkfs

/-- `mkfs`'s `balloc(used)`: the bitmap block with the bits of the blocks
`[0, used)` set, which `mkfs` writes at `sb.bmapstart` once it has asserted
`used < BPB`. -/
def balloc (used : Nat) : Block :=
  (List.range used).foldl (fun buf i => Function.update buf (i / 8) (buf (i / 8) ||| Bitmap.mask i)) Block.zero

theorem balloc_succ (used : Nat) :
    balloc (used + 1) = Function.update (balloc used) (used / 8) (balloc used (used / 8) ||| Bitmap.mask used) := by
  simp only [balloc, List.range_succ, List.foldl_append, List.foldl_cons, List.foldl_nil]

/-- Bit `k` of byte `j` of `mkfs`'s bitmap block is set exactly for the blocks
below `used`. -/
theorem testBit_balloc (used j : Nat) {k : Nat} (inByte : k < 8) :
    (balloc used j).toNat.testBit k = decide (j * 8 + k < used) := by
  induction used with
  | zero => simp [balloc, Block.zero]
  | succ used ih =>
    rw [balloc_succ]
    by_cases here : j = used / 8
    · -- the byte the round writes gains bit `used % 8`
      subst here
      rw [Function.update_self, Bitmap.testBit_or_mask, ih]
      by_cases old : used / 8 * 8 + k < used <;> by_cases new : used % 8 = k <;> simp [old, new] <;> omega
    · have other : j * 8 + k ≠ used := by omega
      rw [Function.update_of_ne here, ih]
      exact decide_eq_decide.mpr ⟨fun below => by omega, fun below => by omega⟩

end Mkfs

namespace Bitmap

/-- Below `BPB`, a disk whose bitmap block is `mkfs`'s reads the bits `mkfs`
set: exactly the blocks below `used`. -/
theorem bitOf_mkfs (blocks : Nat → Block) {used c : Nat} (small : c < bPB) :
    bitOf (Function.update blocks bmapStart (Mkfs.balloc used)) c = decide (c < used) := by
  have first : bBlock c = bmapStart := by
    simp only [bBlock, bPB_eq] at small ⊢
    omega
  rw [bitOf_eq_testBit, first, Function.update_self, Mkfs.testBit_balloc _ _ (Nat.mod_lt _ (by decide))]
  have place : c % bPB / 8 * 8 + c % bPB % 8 = c := by
    rw [bPB_eq] at small ⊢
    omega
  rw [place]

/-- `mkfs`'s bitmap has the first clear bit at `used`. -/
theorem firstClear_mkfs (blocks : Nat → Block) {used size : Nat} (inside : used < size) (small : size ≤ bPB) :
    FirstClear (bitOf (Function.update blocks bmapStart (Mkfs.balloc used))) 0 size used := by
  refine ⟨Nat.zero_le _, inside, ?_, fun c _ below => ?_⟩
  · simp [bitOf_mkfs blocks (show used < bPB by omega)]
  · simp [bitOf_mkfs blocks (show c < bPB by omega), below]

/-- Once `mkfs` has marked the metadata blocks, its bitmap marks its own block. -/
theorem reserves_mkfs (blocks : Nat → Block) {used size : Nat} (marksMeta : nMeta ≤ used) (small : size ≤ bPB) :
    Reserves (Function.update blocks bmapStart (Mkfs.balloc used)) size := by
  intro b below _
  have first : bBlock b = bmapStart := by
    simp only [bBlock, bPB_eq] at small ⊢
    omega
  have inMeta : bmapStart < nMeta := by decide
  rw [first, bitOf_mkfs blocks (by decide)]
  exact decide_eq_true (by omega)

/-- **The bitmap allocator.** Over a bitmap that marks its own blocks in use and
in a transaction with room for three more blocks: `bfree` of a block whose bit
is set clears exactly that bit; and `balloc` returns the first block below
`sb.size` whose bit is clear, with exactly that bit marked and the block zeroed,
after which `bfree` of it gives the bitmap back, or, when every bit below
`sb.size` is set, returns 0 and changes nothing. -/
theorem balloc_bfree_bitmap (size : Nat) (fs : FileSys) (lh : List Nat)
    (reserves : Reserves fs.disk.blocks size) (inTrans : fs.trans = some lh) (room : lh.length + 3 < nlog) :
    (∀ b, bitOf fs.disk.blocks b = true → ∃ fs', (bfree b).run fs = .ok ((), fs') ∧
      ∀ c, bitOf fs'.disk.blocks c = (bitOf fs.disk.blocks c && !decide (c = b))) ∧
    ∃ r fs1, (balloc size).run fs = .ok (r, fs1) ∧
      ((FirstClear (bitOf fs.disk.blocks) 0 size r ∧ fs1.disk = allocate fs.disk r ∧
        (∀ c < size, bitOf fs1.disk.blocks c = (bitOf fs.disk.blocks c || decide (c = r))) ∧
        ∃ fs2, (bfree r).run fs1 = .ok ((), fs2) ∧
          fs2.disk = { fs.disk with blocks := Function.update fs.disk.blocks r Block.zero }) ∨
       (AllSet (bitOf fs.disk.blocks) 0 size ∧ r = 0 ∧ fs1 = fs)) := by
  refine ⟨fun b marked => ?_, ?_⟩
  · obtain ⟨lh', freed, -⟩ := bfree_marked marked inTrans (by omega)
    exact ⟨_, freed, bitOf_clearBit fs.disk.blocks b⟩
  rcases firstClear_or_allSet (bitOf fs.disk.blocks) 0 size with ⟨r, first⟩ | full
  · obtain ⟨lh1, allocated, grew⟩ := balloc_found first inTrans (by omega)
    -- no bit below `sb.size` lives in the block `balloc` zeroes
    have apart : ∀ c < size, bBlock c ≠ r := fun c below => reserves.apart first below
    have bits : ∀ c < size, bitOf (allocate fs.disk r).blocks c = (bitOf fs.disk.blocks c || decide (c = r)) := by
      intro c below
      rw [allocate, bitOf_update_of_ne _ (apart c below), bitOf_markBit]
    have marked : bitOf (allocate fs.disk r).blocks r = true := by
      simp [bits r first.high]
    obtain ⟨lh2, freed, -⟩ :=
      @bfree_marked { fs with disk := allocate fs.disk r, trans := some lh1 } lh1 r marked rfl (by omega)
    refine ⟨r, _, allocated, .inl ⟨first, rfl, bits, _, freed, ?_⟩⟩
    -- clearing the bit just marked, past the zeroed block, gives the bitmap back
    show { allocate fs.disk r with blocks := clearBit (allocate fs.disk r).blocks r } = _
    simp only [allocate, clearBit_update_of_ne _ (apart r first.high), clearBit_markBit first.clear]
  · exact ⟨0, fs, balloc_full full, .inr ⟨full, rfl, rfl⟩⟩

/-- The system booted on a disk with `blocks`, inside a transaction that has
logged nothing yet. -/
def begunOn (blocks : Nat → Block) : FileSys :=
  { boot ⟨fun _ => Dinode.zero, fun _ => false, blocks⟩ with trans := some [] }

/-- The blocks of an image whose bitmap block is the one `mkfs` writes after
the metadata. -/
def mkfsBlocks : Nat → Block :=
  Function.update (fun _ => Block.zero) bmapStart (Mkfs.balloc nMeta)

/-- On `mkfs`'s bitmap, `balloc` returns the first data block, and `bfree` of it
gives the bitmap block back. -/
theorem balloc_bfree_on_mkfs :
    Reserves mkfsBlocks fsSize ∧ ∃ fs1, (balloc fsSize).run (begunOn mkfsBlocks) = .ok (nMeta, fs1) ∧
      ∃ fs2, (bfree nMeta).run fs1 = .ok ((), fs2) ∧ fs2.disk.blocks bmapStart = mkfsBlocks bmapStart := by
  have reserves : Reserves mkfsBlocks fsSize := reserves_mkfs _ le_rfl (by decide)
  obtain ⟨-, r, fs1, allocated, found | full⟩ :=
    balloc_bfree_bitmap fsSize (begunOn mkfsBlocks) [] reserves rfl (by decide)
  · obtain ⟨first, -, -, fs2, freed, restored⟩ := found
    have same : r = nMeta := first.unique (firstClear_mkfs _ (by decide) (by decide))
    subst same
    refine ⟨reserves, fs1, allocated, fs2, freed, ?_⟩
    have apart : bmapStart ≠ nMeta := by decide
    rw [restored]
    exact Function.update_of_ne apart Block.zero mkfsBlocks
  · exact absurd full.1 (firstClear_mkfs _ (by decide) (by decide)).not_allSet

/-- A bitmap block that marks the blocks `[0, 45)` in use and leaves its own
bit, 45, clear: what `mkfs`'s `balloc` writes for `used = sb.bmapstart`. -/
def selfClearBlocks : Nat → Block :=
  Function.update (fun _ => Block.zero) bmapStart (Mkfs.balloc bmapStart)

/-- Over a bitmap that leaves its own block free, `balloc` returns the bitmap
block itself and zeroes it with the mark it has just set, so that the block
reads as free again and `bfree` of it panics. -/
theorem balloc_zeroes_own_bitmap :
    ∃ fs1, (balloc fsSize).run (begunOn selfClearBlocks) = .ok (bmapStart, fs1) ∧
      bitOf fs1.disk.blocks bmapStart = false ∧ (bfree bmapStart).run fs1 = .error "freeing free block" := by
  have first : FirstClear (bitOf selfClearBlocks) 0 fsSize bmapStart := firstClear_mkfs _ (by decide) (by decide)
  obtain ⟨lh, allocated, -⟩ := @balloc_found (begunOn selfClearBlocks) [] fsSize bmapStart first rfl (by decide)
  -- block 45 holds its own bit, and `bzero` has cleared it
  have own : bBlock bmapStart = bmapStart := by decide
  have cleared : bitOf (allocate (begunOn selfClearBlocks).disk bmapStart).blocks bmapStart = false := by
    show bitOf (Function.update _ bmapStart Block.zero) bmapStart = false
    rw [← own]
    exact bitOf_update_zero
  exact ⟨_, allocated, cleared, bfree_free cleared⟩

end Bitmap

end Xv6.Fs
