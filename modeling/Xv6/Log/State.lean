import Xv6.Param

/-!
Contract: the in-memory side of `kernel/log.c`: `struct log`, and what
`begin_op`, `end_op` and `log_write` do to it under `log.lock`.

`log.lh.block[0..log.lh.n)` is kept as the list `lh`, so `log.lh.n` is its
length. The lock, the device number and the sleep/wakeup channel carry no
state the modelled code reads: a sleeping `begin_op` is a pass of its loop that
returns `none` and is tried again later.

Owns: `Log`, `beginOp`, `endOp`, `logWrite` with the panics of the source as
`Except` errors, and the absorption lemma `logWrite_eq`. Does not own: the disk
writes of `commit` (`Xv6.Log.Commit`), the cache pins of `log_write`
(`Xv6.Bio`), or the interleaving of system calls (`Xv6.Log.GroupCommit`).
-/

namespace Xv6

/-- `struct log`. `start` and `size` come from the superblock's unsigned
`logstart` and `nlog`; `outstanding` is the source's `int` and may be
decremented below zero by an unmatched `end_op`. -/
structure Log where
  start : Nat
  size : Nat
  outstanding : Int
  committing : Bool
  lh : List Nat
deriving DecidableEq, Repr

namespace Log

/-- One pass of `begin_op`'s loop under `log.lock`: `none` when the caller
sleeps, either because a commit is running or because this op might exhaust
log space. -/
def beginOp (log : Log) : Option Log :=
  if log.committing then none
  else if (log.lh.length : Int) + (log.outstanding + 1) * maxOpBlocks > logSize then none
  else some { log with outstanding := log.outstanding + 1 }

/-- `end_op`'s critical section: the log it leaves and `do_commit`. -/
def endOp (log : Log) : Except String (Log × Bool) :=
  let log := { log with outstanding := log.outstanding - 1 }
  if log.committing then .error "log.committing"
  else if log.outstanding = 0 then .ok ({ log with committing := true }, true)
  else .ok (log, false)

/-- The absorption loop of `log_write`: the first slot of the header holding
`blockno`, or `log.lh.n` when there is none. -/
def absorbIndex (block : List Nat) (blockno : Nat) : Nat :=
  block.findIdx (· == blockno)

/-- `log_write` on the log: the new log, and whether the block is new to the
transaction (the `i == log.lh.n` branch, where the source calls `bpin`). -/
def logWrite (log : Log) (blockno : Nat) : Except String (Log × Bool) :=
  if log.lh.length ≥ logSize ∨ (log.lh.length : Int) ≥ (log.size : Int) - 1 then
    .error "too big a transaction"
  else if log.outstanding < 1 then .error "log_write outside of trans"
  else
    let i := absorbIndex log.lh blockno
    if i = log.lh.length then .ok ({ log with lh := log.lh ++ [blockno] }, true)
    else .ok ({ log with lh := log.lh.set i blockno }, false)

/-! ### What each function can do -/

/-- `begin_op` returns exactly when no commit runs and the reservation fits. -/
theorem beginOp_eq_some {log log' : Log} :
    log.beginOp = some log' ↔
      log.committing = false ∧
        (log.lh.length : Int) + (log.outstanding + 1) * maxOpBlocks ≤ logSize ∧
        log' = { log with outstanding := log.outstanding + 1 } := by
  unfold beginOp
  by_cases tooMuch : (log.lh.length : Int) + (log.outstanding + 1) * maxOpBlocks > logSize
  · have notFits : ¬ (log.lh.length : Int) + (log.outstanding + 1) * maxOpBlocks ≤ logSize := by
      omega
    cases log.committing <;> simp [tooMuch, notFits]
  · have fits : (log.lh.length : Int) + (log.outstanding + 1) * maxOpBlocks ≤ logSize := by
      omega
    cases log.committing <;> simp [tooMuch, fits, eq_comm]

/-- `end_op` returns exactly when no commit runs; it decrements the count and
starts a commit when that reaches zero. -/
theorem endOp_eq_ok {log log' : Log} {doCommit : Bool} :
    log.endOp = .ok (log', doCommit) ↔
      log.committing = false ∧ doCommit = decide (log.outstanding - 1 = 0) ∧
        log' = { log with outstanding := log.outstanding - 1, committing := doCommit } := by
  unfold endOp
  cases committing : log.committing <;> dsimp only
  · simp only [Bool.false_eq_true, if_false, true_and]
    split
    · next last =>
        simp only [Except.ok.injEq, Prod.mk.injEq, last, decide_true]
        constructor
        · rintro ⟨rfl, rfl⟩; exact ⟨rfl, rfl⟩
        · rintro ⟨rfl, rfl⟩; exact ⟨rfl, rfl⟩
    · next notLast =>
        simp only [Except.ok.injEq, Prod.mk.injEq, notLast, decide_false]
        constructor
        · rintro ⟨rfl, rfl⟩; exact ⟨rfl, by cases log; simp_all⟩
        · rintro ⟨rfl, rfl⟩; exact ⟨by cases log; simp_all, rfl⟩
  · simp [reduceCtorEq]

/-! ### Absorption -/

theorem absorbIndex_eq_length_iff (block : List Nat) (blockno : Nat) :
    absorbIndex block blockno = block.length ↔ blockno ∉ block := by
  simp only [absorbIndex, List.findIdx_eq_length, beq_eq_false_iff_ne, ne_eq]
  exact ⟨fun never member => never blockno member rfl,
    fun absent other member same => absent (same ▸ member)⟩

/-- Writing `blockno` into the slot that already holds it changes nothing. -/
theorem set_absorbIndex {block : List Nat} {blockno : Nat} (member : blockno ∈ block) :
    block.set (absorbIndex block blockno) blockno = block := by
  have found : absorbIndex block blockno < block.length := by
    have notLength : absorbIndex block blockno ≠ block.length := by
      rw [Ne, absorbIndex_eq_length_iff]
      exact not_not.mpr member
    have atMost : absorbIndex block blockno ≤ block.length := List.findIdx_le_length
    omega
  have atSlot : block[absorbIndex block blockno] = blockno := by
    simp only [absorbIndex] at found ⊢
    simpa using @List.findIdx_getElem _ _ block found
  apply List.ext_getElem (by simp)
  intro index lengthSet lengthBlock
  rw [List.getElem_set]
  split
  · next same => rw [← atSlot]; simp [same]
  · rfl

/-- `log_write` when neither panic fires: a block already in the header is
absorbed, a new one is appended and pinned. -/
theorem logWrite_eq {log : Log} {blockno : Nat}
    (roomy : ¬ (log.lh.length ≥ logSize ∨ (log.lh.length : Int) ≥ (log.size : Int) - 1))
    (inside : ¬ log.outstanding < 1) :
    logWrite log blockno =
      if blockno ∈ log.lh then .ok (log, false)
      else .ok ({ log with lh := log.lh ++ [blockno] }, true) := by
  unfold logWrite
  rw [if_neg roomy, if_neg inside]
  by_cases member : blockno ∈ log.lh
  · have notLength : absorbIndex log.lh blockno ≠ log.lh.length := by
      rw [Ne, absorbIndex_eq_length_iff]
      exact not_not.mpr member
    simp only [notLength, if_false, member, if_true, set_absorbIndex member]
  · have atLength : absorbIndex log.lh blockno = log.lh.length :=
      (absorbIndex_eq_length_iff _ _).mpr member
    simp [atLength, member]

/-- What a `log_write` that returns has done: it ran inside a transaction, and
it either absorbed the block or appended it. -/
theorem logWrite_eq_ok {log log' : Log} {blockno : Nat} {new : Bool}
    (wrote : log.logWrite blockno = .ok (log', new)) :
    1 ≤ log.outstanding ∧
      ((blockno ∈ log.lh ∧ log' = log ∧ new = false) ∨
        (blockno ∉ log.lh ∧ log' = { log with lh := log.lh ++ [blockno] } ∧ new = true)) := by
  by_cases roomy : log.lh.length ≥ logSize ∨ (log.lh.length : Int) ≥ (log.size : Int) - 1
  · unfold logWrite at wrote
    rw [if_pos roomy] at wrote
    cases wrote
  · by_cases inside : log.outstanding < 1
    · unfold logWrite at wrote
      rw [if_neg roomy, if_pos inside] at wrote
      cases wrote
    · refine ⟨by omega, ?_⟩
      rw [logWrite_eq roomy inside] at wrote
      by_cases member : blockno ∈ log.lh
      · simp only [member, if_true, Except.ok.injEq, Prod.mk.injEq] at wrote
        exact Or.inl ⟨member, wrote.1.symm, wrote.2.symm⟩
      · simp only [member, if_false, Except.ok.injEq, Prod.mk.injEq] at wrote
        exact Or.inr ⟨member, wrote.1.symm, wrote.2.symm⟩

end Log

end Xv6
