import Xv6.Log.State
import Xv6.Lib.StepRun

/-!
Contract: the block writes of `commit()` and `recover_from_log()` in
`kernel/log.c`, and crash atomicity of one transaction.

Every `bwrite` ends in `virtio_disk_rw`, which writes one whole block and
sleeps until the device has done it; a crash keeps a prefix of the writes.
A write is a `Disk β → Disk β`, so `commit` and `recoverFromLog` are step lists
for `StepRun`. `install_trans` reads the log block through `bread`: after
`write_log` that buffer, cached or read again, holds what the disk holds, so
the model reads the disk. Recovery reads the header once (`read_head`) and
computes its writes from it.

Owns:
- `Disk`, `writeLog`, `writeHead`, `installTrans`, `commit`, `recoverFromLog`;
- the loop specifications of `write_log` and `install_trans`;
- the three disks recovery can find (`Recoverable`), and that every cut of
  `commit` and of `recover_from_log` leaves one of them;
- `commit_crash_atomic`.

Does not own: which blocks are logged or what the cache holds. Both are
parameters here; `Xv6.Log.GroupCommit` and `Xv6.Bio` own them.
-/

namespace Xv6.Log

open StepRun

universe u

variable {β : Type u}

/-- The disk as `log.c` sees it: the header block at `log.start`, decoded the
way `read_head` reads it (the first `n` entries of `block[]`), and the contents
of every block. -/
structure Disk (β : Type u) where
  head : List Nat
  data : Nat → β

namespace Disk

/-- `bwrite` of one whole block. -/
def write (disk : Disk β) (blockno : Nat) (contents : β) : Disk β :=
  { disk with data := Function.update disk.data blockno contents }

@[simp] theorem write_head (disk : Disk β) (blockno : Nat) (contents : β) :
    (disk.write blockno contents).head = disk.head := rfl

theorem write_data (disk : Disk β) (blockno : Nat) (contents : β) (other : Nat) :
    (disk.write blockno contents).data other =
      if other = blockno then contents else disk.data other :=
  Function.update_apply _ _ _ _

@[simp] theorem write_data_self (disk : Disk β) (blockno : Nat) (contents : β) :
    (disk.write blockno contents).data blockno = contents := by
  simp [write_data]

theorem write_data_of_ne (disk : Disk β) {blockno other : Nat} (contents : β)
    (different : other ≠ blockno) :
    (disk.write blockno contents).data other = disk.data other := by
  simp [write_data, different]

end Disk

/-- `write_head`: the header block now holds `block` (the in-memory `log.lh`). -/
def writeHead (block : List Nat) (disk : Disk β) : Disk β :=
  { disk with head := block }

@[simp] theorem writeHead_head (block : List Nat) (disk : Disk β) :
    (writeHead block disk).head = block := rfl

@[simp] theorem writeHead_data (block : List Nat) (disk : Disk β) :
    (writeHead block disk).data = disk.data := rfl

/-- `write_log` from slot `tail` on: log block `start+tail+1` gets the cached
copy of the home block `log.lh.block[tail]`. -/
def writeLog (start : Nat) (cache : Nat → β) : Nat → List Nat → List (Disk β → Disk β)
  | _, [] => []
  | tail, blockno :: rest =>
      (fun disk => disk.write (start + tail + 1) (cache blockno)) ::
        writeLog start cache (tail + 1) rest

/-- `install_trans` from slot `tail` on: the home block `log.lh.block[tail]`
gets log block `start+tail+1` as the disk holds it. `recovering` only decides
whether the cache pin is dropped, so it does not appear here. -/
def installTrans (start : Nat) : Nat → List Nat → List (Disk β → Disk β)
  | _, [] => []
  | tail, blockno :: rest =>
      (fun disk => disk.write blockno (disk.data (start + tail + 1))) ::
        installTrans start (tail + 1) rest

/-- The block writes of `commit()`, in order. `cache b` is the data of the
cached buffer of home block `b`, which `write_log` copies. -/
def commit (log : Log) (cache : Nat → β) : List (Disk β → Disk β) :=
  if 0 < log.lh.length then
    writeLog log.start cache 0 log.lh ++
      (writeHead log.lh :: (installTrans log.start 0 log.lh ++ [writeHead []]))
  else []

/-- The block writes of `recover_from_log()`, computed from the header that
`read_head` finds on `disk`. -/
def recoverFromLog (start : Nat) (disk : Disk β) : List (Disk β → Disk β) :=
  installTrans start 0 disk.head ++ [writeHead []]

/-! ### The two copy loops -/

section Loops

variable (start : Nat)

theorem installTrans_length : ∀ (tail : Nat) (block : List Nat),
    (installTrans start tail block : List (Disk β → Disk β)).length = block.length
  | _, [] => rfl
  | tail, _ :: rest => by simp [installTrans, installTrans_length (tail + 1) rest]

theorem writeLog_length (cache : Nat → β) : ∀ (tail : Nat) (block : List Nat),
    (writeLog start cache tail block).length = block.length
  | _, [] => rfl
  | tail, _ :: rest => by simp [writeLog, writeLog_length cache (tail + 1) rest]

theorem writeLog_take_head (cache : Nat → β) : ∀ (tail : Nat) (block : List Nat) (cut : Nat)
    (disk : Disk β), (runSteps ((writeLog start cache tail block).take cut) disk).head = disk.head
  | _, [], _, _ => by simp [writeLog]
  | _, _ :: _, 0, _ => rfl
  | tail, _ :: rest, cut + 1, disk => by
      simp only [writeLog, List.take_succ_cons, runSteps_cons]
      rw [writeLog_take_head cache (tail + 1) rest cut]
      rfl

/-- Any cut of `write_log` leaves every block outside the slots it copies into. -/
theorem writeLog_take_frame (cache : Nat → β) : ∀ (tail : Nat) (block : List Nat) (cut : Nat)
    (disk : Disk β) (other : Nat),
    (other < start + tail + 1 ∨ start + tail + 1 + block.length ≤ other) →
    (runSteps ((writeLog start cache tail block).take cut) disk).data other = disk.data other
  | _, [], _, _, _, _ => by simp [writeLog]
  | _, _ :: _, 0, _, _, _ => rfl
  | tail, blockno :: rest, cut + 1, disk, other, outside => by
      simp only [writeLog, List.take_succ_cons, runSteps_cons, List.length_cons] at outside ⊢
      rw [writeLog_take_frame cache (tail + 1) rest cut _ other (by omega)]
      exact Disk.write_data_of_ne disk _ (by omega)

/-- A completed `write_log`: slot `tail + i` holds the cached copy of the `i`-th block. -/
theorem writeLog_logged (cache : Nat → β) : ∀ (tail : Nat) (block : List Nat) (disk : Disk β)
    (index : Nat) (below : index < block.length),
    (runSteps (writeLog start cache tail block) disk).data (start + (tail + index) + 1) =
      cache block[index]
  | _, [], _, _, below => absurd below (Nat.not_lt_zero _)
  | tail, blockno :: rest, disk, 0, _ => by
      simp only [writeLog, runSteps_cons, List.getElem_cons_zero]
      have untouched := writeLog_take_frame start cache (tail + 1) rest rest.length
        (disk.write (start + tail + 1) (cache blockno)) (start + tail + 1) (by omega)
      rw [List.take_of_length_le (by rw [writeLog_length])] at untouched
      have firstSlot : start + (tail + 0) + 1 = start + tail + 1 := by omega
      rw [firstSlot, untouched, Disk.write_data_self]
  | tail, blockno :: rest, disk, index + 1, below => by
      simp only [writeLog, runSteps_cons, List.getElem_cons_succ]
      have shifted : start + (tail + (index + 1)) + 1 = start + (tail + 1 + index) + 1 := by omega
      rw [shifted]
      exact writeLog_logged cache (tail + 1) rest _ index (by simpa using below)

theorem installTrans_take_head : ∀ (tail : Nat) (block : List Nat) (cut : Nat) (disk : Disk β),
    (runSteps ((installTrans start tail block).take cut) disk).head = disk.head
  | _, [], _, _ => by simp [installTrans]
  | _, _ :: _, 0, _ => rfl
  | tail, _ :: rest, cut + 1, disk => by
      simp only [installTrans, List.take_succ_cons, runSteps_cons]
      rw [installTrans_take_head (tail + 1) rest cut]
      rfl

/-- Loop specification of `install_trans`: when the log slots hold `new` of
their home blocks and no home block lies among those slots, any cut of the
loop has written `new b` to exactly the home blocks `b` it reached. -/
theorem installTrans_take_data (new : Nat → β) : ∀ (tail : Nat) (block : List Nat) (cut : Nat)
    (disk : Disk β),
    (∀ index (below : index < block.length),
      disk.data (start + (tail + index) + 1) = new block[index]) →
    (∀ b ∈ block, b < start + tail + 1 ∨ start + tail + 1 + block.length ≤ b) →
    ∀ other, (runSteps ((installTrans start tail block).take cut) disk).data other =
      if other ∈ block.take cut then new other else disk.data other
  | _, [], _, _, _, _, other => by simp [installTrans]
  | _, _ :: _, 0, _, _, _, other => by simp
  | tail, blockno :: rest, cut + 1, disk, logged, outside, other => by
      simp only [installTrans, List.take_succ_cons, runSteps_cons, List.mem_cons]
      have homeOutside := outside blockno (by simp)
      simp only [List.length_cons] at homeOutside
      have slot : disk.data (start + tail + 1) = new blockno := by
        have first := logged 0 (by simp)
        simp only [Nat.add_zero, List.getElem_cons_zero] at first
        exact first
      -- the rest of the loop sees the log slots unchanged by this home write
      have restLogged : ∀ index (below : index < rest.length),
          (disk.write blockno (disk.data (start + tail + 1))).data
            (start + (tail + 1 + index) + 1) = new rest[index] := by
        intro index below
        rw [Disk.write_data_of_ne _ _ (by omega)]
        have shifted : start + (tail + 1 + index) + 1 = start + (tail + (index + 1)) + 1 := by
          omega
        rw [shifted]
        have later := logged (index + 1) (by simpa using below)
        simp only [List.getElem_cons_succ] at later
        exact later
      have restOutside : ∀ b ∈ rest,
          b < start + (tail + 1) + 1 ∨ start + (tail + 1) + 1 + rest.length ≤ b := by
        intro b member
        have bOutside := outside b (by simp [member])
        simp only [List.length_cons] at bOutside
        omega
      rw [installTrans_take_data new (tail + 1) rest cut _ restLogged restOutside other,
        Disk.write_data, slot]
      by_cases later : other ∈ rest.take cut
      · simp [later]
      · by_cases home : other = blockno
        · subst home; simp
        · simp [later, home]

end Loops

/-! ### The disks recovery can find -/

section Transaction

variable (start size : Nat) (block : List Nat) (old new : Nat → β)

/-- Outside the log area `[start, start + size)`. -/
def OutsideLog (b : Nat) : Prop :=
  b < start ∨ start + size ≤ b

instance (b : Nat) : Decidable (OutsideLog start size b) :=
  inferInstanceAs (Decidable (_ ∨ _))

/-- The log slots hold the new contents of the transaction's blocks. -/
def LogHolds (disk : Disk β) : Prop :=
  ∀ index (below : index < block.length), disk.data (start + index + 1) = new block[index]

/-- Every block outside the log area and the transaction holds its old contents. -/
def Framed (disk : Disk β) : Prop :=
  ∀ b, b ∉ block → OutsideLog start size b → disk.data b = old b

/-- Committed but maybe not installed: the header names the transaction, the
log holds it, and each home block holds its old or its new contents. -/
structure Committed (disk : Disk β) : Prop where
  head : disk.head = block
  logged : LogHolds start block new disk
  framed : Framed start size block old disk
  homes : ∀ b ∈ block, disk.data b = old b ∨ disk.data b = new b

/-- The three disks a cut of `commit` or of `recover_from_log` leaves: not
committed (nothing outside the log changed), committed, or installed with the
header cleared. -/
def Recoverable (disk : Disk β) : Prop :=
  (disk.head = [] ∧ ∀ b, OutsideLog start size b → disk.data b = old b) ∨
    Committed start size block old new disk ∨
    (disk.head = [] ∧ Framed start size block old disk ∧ ∀ b ∈ block, disk.data b = new b)

/-- What a completed recovery must leave: a clean header, the transaction
all there or not at all, and every other block outside the log untouched. -/
structure Atomic (disk : Disk β) : Prop where
  clean : disk.head = []
  allOrNothing : (∀ b ∈ block, disk.data b = old b) ∨ (∀ b ∈ block, disk.data b = new b)
  framed : Framed start size block old disk

variable {start size block old new}

/-- The log slots of a transaction that fits lie in the log area. -/
theorem slot_not_outside (fits : block.length < size) {index : Nat} (below : index < block.length) :
    ¬ OutsideLog start size (start + index + 1) := by
  unfold OutsideLog
  omega

/-- Any cut of `install_trans` over a committed disk leaves it committed, and
a complete one leaves every home block new. -/
theorem installTrans_take_committed (fits : block.length < size)
    (outside : ∀ b ∈ block, OutsideLog start size b) {disk : Disk β}
    (committed : Committed start size block old new disk) (cut : Nat) :
    Committed start size block old new (runSteps ((installTrans start 0 block).take cut) disk) ∧
      (block.length ≤ cut →
        ∀ b ∈ block, (runSteps ((installTrans start 0 block).take cut) disk).data b = new b) := by
  have logged : ∀ index (below : index < block.length),
      disk.data (start + (0 + index) + 1) = new block[index] := by
    intro index below
    simpa using committed.logged index below
  have homesOutside : ∀ b ∈ block, b < start + 0 + 1 ∨ start + 0 + 1 + block.length ≤ b := by
    intro b member
    have bOutside := outside b member
    unfold OutsideLog at bOutside
    omega
  have spec := installTrans_take_data start new 0 block cut disk logged homesOutside
  refine ⟨⟨?_, ?_, ?_, ?_⟩, ?_⟩
  · rw [installTrans_take_head, committed.head]
  · intro index below
    rw [spec, if_neg, committed.logged index below]
    intro member
    exact slot_not_outside fits below (outside _ (List.mem_of_mem_take member))
  · intro b absent bOutside
    rw [spec, if_neg (fun member => absent (List.mem_of_mem_take member))]
    exact committed.framed b absent bOutside
  · intro b member
    rw [spec]
    split
    · exact Or.inr rfl
    · exact committed.homes b member
  · intro complete b member
    rw [spec, if_pos (by rwa [List.take_of_length_le complete])]

/-- Installing and then clearing the header, cut anywhere, from a committed disk. -/
theorem installClear_take_recoverable (fits : block.length < size)
    (outside : ∀ b ∈ block, OutsideLog start size b) {disk : Disk β}
    (committed : Committed start size block old new disk) (cut : Nat) :
    Recoverable start size block old new
      (runSteps ((installTrans start 0 block ++ [writeHead []]).take cut) disk) := by
  rw [runSteps_take_append, installTrans_length]
  obtain ⟨installed, allNew⟩ := installTrans_take_committed fits outside committed cut
  by_cases within : cut ≤ block.length
  · rw [Nat.sub_eq_zero_of_le within, List.take_zero, runSteps_nil]
    exact Or.inr (Or.inl installed)
  · obtain ⟨rest, restEq⟩ : ∃ rest, cut - block.length = rest + 1 := ⟨cut - block.length - 1, by omega⟩
    rw [restEq, List.take_succ_cons, List.take_nil, runSteps_cons, runSteps_nil]
    refine Or.inr (Or.inr ⟨rfl, installed.framed, ?_⟩)
    exact allNew (by omega)

/-- When the header is already clear, recovery rewrites it and nothing else. -/
theorem recoverFromLog_take_of_clean {disk : Disk β} (clean : disk.head = []) (cut : Nat) :
    runSteps ((recoverFromLog start disk).take cut) disk = disk := by
  rw [recoverFromLog, clean]
  cases cut with
  | zero => rfl
  | succ cut =>
      cases disk
      simp_all [installTrans, writeHead]

/-- Every cut of `recover_from_log` keeps the disk recoverable. -/
theorem recoverFromLog_take_recoverable (fits : block.length < size)
    (outside : ∀ b ∈ block, OutsideLog start size b) {disk : Disk β}
    (recoverable : Recoverable start size block old new disk) (cut : Nat) :
    Recoverable start size block old new (runSteps ((recoverFromLog start disk).take cut) disk) := by
  rcases recoverable with uncommitted | committed | installed
  · rw [recoverFromLog_take_of_clean uncommitted.1]
    exact Or.inl uncommitted
  · rw [recoverFromLog, committed.head]
    exact installClear_take_recoverable fits outside committed cut
  · rw [recoverFromLog_take_of_clean installed.1]
    exact Or.inr (Or.inr installed)

theorem recoverFromLog_head (disk : Disk β) :
    (runSteps (recoverFromLog start disk) disk).head = [] := by
  rw [recoverFromLog, runSteps_append]
  rfl

/-- A recoverable disk with a clear header is atomic. -/
theorem atomic_of_recoverable (outside : ∀ b ∈ block, OutsideLog start size b)
    {disk : Disk β} (recoverable : Recoverable start size block old new disk)
    (clean : disk.head = []) : Atomic start size block old new disk := by
  rcases recoverable with ⟨_, unchanged⟩ | committed | ⟨_, framed, allNew⟩
  · refine ⟨clean, Or.inl fun b member => unchanged b (outside b member), ?_⟩
    exact fun b _ bOutside => unchanged b bOutside
  · -- a committed header is the transaction, so a clear one means an empty transaction
    have empty : block = [] := committed.head.symm.trans clean
    subst empty
    exact ⟨clean, Or.inl (by simp), committed.framed⟩
  · exact ⟨clean, Or.inr allNew, framed⟩

/-- Every cut of `commit()` from a disk with a clear header leaves it recoverable. -/
theorem commit_take_recoverable (log : Log) (cache : Nat → β) {disk : Disk β}
    (clean : disk.head = []) (fits : log.lh.length < log.size)
    (outside : ∀ b ∈ log.lh, OutsideLog log.start log.size b) (cut : Nat) :
    Recoverable log.start log.size log.lh disk.data cache
      (runSteps ((commit log cache).take cut) disk) := by
  unfold commit
  split
  · rw [runSteps_take_append, writeLog_length]
    have framedLog : ∀ cut', ∀ b, OutsideLog log.start log.size b →
        (runSteps ((writeLog log.start cache 0 log.lh).take cut') disk).data b = disk.data b := by
      intro cut' b bOutside
      apply writeLog_take_frame
      unfold OutsideLog at bOutside
      omega
    by_cases within : cut ≤ log.lh.length
    · -- cut inside `write_log`: the header is still clear
      rw [Nat.sub_eq_zero_of_le within, List.take_zero, runSteps_nil]
      left
      exact ⟨by rw [writeLog_take_head, clean], framedLog cut⟩
    · -- `write_log` completed and the header names the transaction: it is committed
      obtain ⟨rest, restEq⟩ : ∃ rest, cut - log.lh.length = rest + 1 :=
        ⟨cut - log.lh.length - 1, by omega⟩
      have wholeLog : (writeLog log.start cache 0 log.lh).length ≤ cut := by
        rw [writeLog_length]; omega
      rw [restEq, List.take_succ_cons, runSteps_cons, List.take_of_length_le wholeLog]
      apply installClear_take_recoverable fits outside
      refine ⟨rfl, ?_, ?_, ?_⟩
      · intro index below
        simpa using writeLog_logged log.start cache 0 log.lh disk index below
      · intro b _ bOutside
        have whole := framedLog log.lh.length b bOutside
        rwa [List.take_of_length_le (by rw [writeLog_length])] at whole
      · intro b member
        have whole := framedLog log.lh.length b (outside b member)
        rw [List.take_of_length_le (by rw [writeLog_length])] at whole
        exact Or.inl whole
  · -- an empty transaction writes nothing
    rw [List.take_nil, runSteps_nil]
    exact Or.inl ⟨clean, fun _ _ => rfl⟩

end Transaction

/-- **Crash atomicity of a transaction.** Let `commit()` start from a disk
whose header is clear, with a transaction `log.lh` that fits in the log and
whose home blocks lie outside it. Cut `commit()` after any number of its block
writes, then cut any number of runs of `recover_from_log()` anywhere, and let
the next run complete: the header is clear, the transaction's blocks hold
their old contents all together or the cached new contents all together, and
every other block outside the log holds what it held before. -/
theorem commit_crash_atomic (log : Log) (cache : Nat → β) (disk : Disk β)
    (clean : disk.head = []) (fits : log.lh.length < log.size)
    (outside : ∀ b ∈ log.lh, OutsideLog log.start log.size b)
    (cut : Nat) (cuts : List Nat) :
    Atomic log.start log.size log.lh disk.data cache
      (recoverAfter (recoverFromLog log.start) cuts (runSteps ((commit log cache).take cut) disk)) := by
  have cutStable : ∀ state cut', Recoverable log.start log.size log.lh disk.data cache state →
      Recoverable log.start log.size log.lh disk.data cache
        (runSteps ((recoverFromLog log.start state).take cut') state) :=
    fun state cut' recoverable => recoverFromLog_take_recoverable fits outside recoverable cut'
  apply done_after_crashRuns cutStable
  · intro state recoverable
    apply atomic_of_recoverable outside _ (recoverFromLog_head state)
    have whole := cutStable state (recoverFromLog log.start state).length recoverable
    rwa [List.take_length] at whole
  · exact commit_take_recoverable log cache clean fits outside cut

/-- A two-block transaction cut after its first home write, then a recovery
cut after one home write, then a complete recovery. -/
theorem commit_crash_atomic_two_blocks :
    let log : Log := ⟨logStart, nlog, 0, false, [50, 51]⟩
    let disk : Disk Nat := ⟨[], fun _ => 0⟩
    disk.head = [] ∧ log.lh.length < log.size ∧ (∀ b ∈ log.lh, OutsideLog log.start log.size b) ∧
      Atomic log.start log.size log.lh disk.data (fun b => b + 100)
        (recoverAfter (recoverFromLog log.start) [1]
          (runSteps ((commit log (fun b => b + 100)).take 4) disk)) := by
  intro log disk
  exact ⟨rfl, by decide, by decide,
    commit_crash_atomic log (fun b => b + 100) disk rfl (by decide) (by decide) 4 [1]⟩

end Xv6.Log
