import Xv6.Log.State
import Xv6.Bio.Cache

/-!
Contract: `log_write`'s pins in the buffer cache and `commit()`'s passes over
the cache, under every interleaving of file-system calls with other cache
traffic.

The state is `struct log`, the cache with its holders and pins
(`Bio.Sys`), the disk, and where the committing process is in `commit()`.
File-system calls and other traffic `bread` (`bget` on `ROOTDEV`, then the
read), change the data of buffers they hold, `log_write` them and `brelse`
them. A file-system call changes a buffer only inside a transaction
(`log.outstanding > 0`); `Xv6.Log.GroupCommit.group_commit_protocol` shows that
no call is inside one while a commit runs. `bget` is static in `bio.c`, so a
caller's buffer is valid by the time it can `log_write` it.

One pass of `write_log`'s or `install_trans`'s loop, and one `write_head`, is
one event: from its `bread`s to its `brelse`s the committing process holds the
buffers it works on (their sleep-locks), so another process can only add a
reference to them, and its calls on other buffers commute with the pass.

A history variable `logBuf` records, for each logged block, the buffer that
`log_write` pinned for it.

Owns: `Pc`, `Sys`, `Event`, `step`, the invariant `Inv` and the results drawn
from it. Does not own: the cache itself (`Xv6.Bio`), the log's arithmetic
(`Xv6.Log.State`), what a crash leaves on the disk (`Xv6.Log.Commit`).
-/

namespace Xv6.Log.Pinning

/-- Where the committing process is in `commit()`: in `write_log`'s loop (at
`lh.n`: the `write_head` that commits), in `install_trans(0)`'s loop (at
`lh.n`: `log.lh.n = 0`, the second `write_head`, and `end_op`'s
`log.committing = 0`), or nowhere. -/
inductive Pc where
  | idle
  | writeLog (tail : Nat)
  | install (tail : Nat)
deriving DecidableEq, Repr

/-- The log's entries whose pins `install_trans` has already removed. -/
def Pc.installed : Pc → Nat
  | .install tail => tail
  | _ => 0

structure Sys (n : Nat) (β : Type) where
  log : Log
  cache : Bio.Sys n β
  disk : Nat → β
  pc : Pc
  logBuf : Nat → Option (Fin n)

/-- A call of a file-system operation or of other cache traffic, or one step of
the committing process. -/
inductive Event (n : Nat) (β : Type) where
  | beginOp
  | endOp
  | bget (blockno : Nat)
  | read (b : Fin n)
  | modify (b : Fin n) (contents : β)
  | brelse (b : Fin n)
  | logWrite (b : Fin n)
  | commit

variable {n : Nat} {β : Type}

/-! ### The passes of `commit()` -/

/-- `bget(log.dev, blockno)` with the caller counted as a holder, and the
buffer it returns. -/
def acquire (c : Bio.Sys n β) (blockno : Nat) : Option (Bio.Sys n β × Fin n) :=
  match Bio.bget c.cache rootDev blockno with
  | .ok (cache, b) => some (⟨cache, Function.update c.held b (c.held b + 1), c.pins⟩, b)
  | .error _ => none

/-- `bread(log.dev, blockno)` on `disk`. -/
def bread (c : Bio.Sys n β) (disk : Nat → β) (blockno : Nat) : Option (Bio.Sys n β × Fin n) := do
  let (c, b) ← acquire c blockno
  let c ← Bio.step c (.read b (disk blockno))
  pure (c, b)

/-- One pass of `write_log`'s loop: `to` is the log block, `from` the cached
block. -/
def writeLogBlock (s : Sys n β) (tail blockno : Nat) : Option (Sys n β) := do
  let slot := s.log.start + tail + 1
  let (c, toBuf) ← bread s.cache s.disk slot
  let (c, fromBuf) ← bread c s.disk blockno
  let c ← Bio.step c (.modify toBuf (c.cache.buf fromBuf).data)
  let disk := Function.update s.disk slot (c.cache.buf toBuf).data
  let c ← Bio.step c (.brelse fromBuf)
  let c ← Bio.step c (.brelse toBuf)
  pure { s with cache := c, disk := disk }

/-- `write_head`: the header block gets `image lh old`, the header `lh` laid
over the block's old data, and is written. -/
def writeHead (image : List Nat → β → β) (s : Sys n β) : Option (Sys n β) := do
  let (c, buf) ← bread s.cache s.disk s.log.start
  let c ← Bio.step c (.modify buf (image s.log.lh (c.cache.buf buf).data))
  let disk := Function.update s.disk s.log.start (c.cache.buf buf).data
  let c ← Bio.step c (.brelse buf)
  pure { s with cache := c, disk := disk }

/-- One pass of `install_trans(0)`'s loop, `bunpin` included. -/
def installBlock (s : Sys n β) (tail blockno : Nat) : Option (Sys n β) := do
  let (c, lbuf) ← bread s.cache s.disk (s.log.start + tail + 1)
  let (c, dbuf) ← bread c s.disk blockno
  let c ← Bio.step c (.modify dbuf (c.cache.buf lbuf).data)
  let disk := Function.update s.disk blockno (c.cache.buf dbuf).data
  let c ← Bio.step c (.bunpin dbuf)
  let c ← Bio.step c (.brelse lbuf)
  let c ← Bio.step c (.brelse dbuf)
  pure { s with cache := c, disk := disk }

/-- One step of the committing process. -/
def commitStep (image : List Nat → β → β) (s : Sys n β) : Option (Sys n β) :=
  match s.pc with
  | .idle => none
  | .writeLog tail =>
      if inRange : tail < s.log.lh.length then
        (writeLogBlock s tail s.log.lh[tail]).map fun s => { s with pc := .writeLog (tail + 1) }
      else (writeHead image s).map fun s => { s with pc := .install 0 }
  | .install tail =>
      if inRange : tail < s.log.lh.length then
        (installBlock s tail s.log.lh[tail]).map fun s => { s with pc := .install (tail + 1) }
      else
        (writeHead image { s with log := { s.log with lh := [] } }).map fun s =>
          { s with log := { s.log with committing := false }, pc := .idle }

/-- One event. `end_op` is made by a call that began; the last one to end
commits (`commit()` does nothing when `log.lh.n = 0`). A file-system call
changes a buffer only inside a transaction, and `log_write`s only a buffer it
holds and has read. -/
def step (image : List Nat → β → β) (s : Sys n β) : Event n β → Option (Sys n β)
  | .beginOp => s.log.beginOp.map fun log => { s with log := log }
  | .endOp =>
      if 0 < s.log.outstanding then
        match s.log.endOp with
        | .ok (log, true) =>
            if 0 < log.lh.length then some { s with log := log, pc := .writeLog 0 }
            else some { s with log := { log with committing := false } }
        | .ok (log, false) => some { s with log := log }
        | .error _ => none
      else none
  | .bget blockno =>
      (Bio.step s.cache (.bget rootDev blockno)).map fun cache => { s with cache := cache }
  | .read b =>
      (Bio.step s.cache (.read b (s.disk (s.cache.cache.buf b).blockno))).map fun cache =>
        { s with cache := cache }
  | .modify b contents =>
      if 0 < s.log.outstanding then
        (Bio.step s.cache (.modify b contents)).map fun cache => { s with cache := cache }
      else none
  | .brelse b => (Bio.step s.cache (.brelse b)).map fun cache => { s with cache := cache }
  | .logWrite b =>
      if (s.cache.cache.buf b).valid = true ∧ 0 < s.cache.held b then
        match s.log.logWrite (s.cache.cache.buf b).blockno with
        | .ok (log, true) =>
            (Bio.step s.cache (.bpin b)).map fun cache =>
              { s with log := log, cache := cache,
                       logBuf := Function.update s.logBuf (s.cache.cache.buf b).blockno (some b) }
        | .ok (log, false) => some { s with log := log }
        | .error _ => none
      else none
  | .commit => commitStep image s

/-- After `binit` and `initlog`'s recovery: an empty log at `start` of `size`
blocks. -/
def init (n : Nat) (zero : β) (disk : Nat → β) (start size : Nat) : Sys n β :=
  ⟨⟨start, size, 0, false, []⟩, Bio.init n zero, disk, .idle, fun _ => none⟩

def Reachable (image : List Nat → β → β) (n : Nat) (zero : β) (disk : Nat → β)
    (start size : Nat) (s : Sys n β) : Prop :=
  Machine.Reachable (step image) (init n zero disk start size) s

/-- The logged blocks that still hold a pin. -/
def pending (s : Sys n β) : List Nat :=
  s.log.lh.drop s.pc.installed

/-! ### What the log needs of the cache -/

/-- Cache calls other than the log's pins, on the one disk. -/
def Traffic : Bio.Call n β → Prop
  | .bget dev _ => dev = rootDev
  | .bpin _ | .bunpin _ => False
  | _ => True

/-- The log's hold on the cache: each pending block has the buffer `logBuf`
pinned for it, valid and carrying the block; each buffer has one pin per
pending entry mapped to it; every held buffer is on the one disk. -/
structure Pinned (c : Bio.Sys n β) (pending : List Nat) (logBuf : Nat → Option (Fin n)) :
    Prop where
  cache : Bio.Inv c
  onDisk : ∀ b, 0 < c.held b → (c.cache.buf b).dev = rootDev
  carrier : ∀ k ∈ pending, ∃ b, logBuf k = some b ∧ Bio.carries c.cache rootDev k b = true ∧
    (c.cache.buf b).valid = true
  pins : ∀ b, c.pins b = (pending.filter (fun k => logBuf k = some b)).length

section Cache

variable {c c' : Bio.Sys n β} {pending : List Nat} {logBuf : Nat → Option (Fin n)}

/-- What traffic does: it leaves the pins alone, and the block and validity of
every referenced buffer; a buffer it hands out is on the one disk. -/
theorem traffic_step {call : Bio.Call n β} (traffic : Traffic call)
    (stepped : Bio.step c call = some c') :
    c'.pins = c.pins ∧
    (∀ x, 0 < (c.cache.buf x).refcnt →
      (c'.cache.buf x).dev = (c.cache.buf x).dev ∧
      (c'.cache.buf x).blockno = (c.cache.buf x).blockno ∧
      ((c.cache.buf x).valid = true → (c'.cache.buf x).valid = true)) ∧
    (∀ x, 0 < c'.held x → 0 < c.held x ∨ (c'.cache.buf x).dev = rootDev) := by
  cases call with
  | bget dev k =>
      simp only [Traffic] at traffic
      subst traffic
      simp only [Bio.step] at stepped
      split at stepped
      · next cache r got =>
          cases stepped
          refine ⟨rfl, fun x referenced => ?_, fun x holding => ?_⟩
          · obtain ⟨dev, blockno, valid, -⟩ := Bio.bget_keeps_referenced got referenced
            exact ⟨dev, blockno, fun wasValid => valid.trans wasValid⟩
          · by_cases same : x = r
            · subst same
              exact Or.inr (Bio.bget_carries got).1
            · left
              simpa [same] using holding
      · cases stepped
  | read r contents =>
      simp only [Bio.step] at stepped
      split at stepped
      · cases stepped
        refine ⟨rfl, fun x _ => ?_, fun x holding => Or.inl holding⟩
        show ((Bio.readIn c.cache r contents).buf x).dev = _ ∧ _
        rw [Bio.readIn_buf]
        split
        · next which => simp [which.1]
        · exact ⟨rfl, rfl, id⟩
      · cases stepped
  | modify r contents =>
      simp only [Bio.step] at stepped
      split at stepped
      · cases stepped
        refine ⟨rfl, fun x _ => ?_, fun x holding => Or.inl holding⟩
        by_cases same : x = r
        · subst same
          simp
        · simp [same]
      · cases stepped
  | brelse r =>
      simp only [Bio.step] at stepped
      split at stepped
      · cases stepped
        refine ⟨rfl, fun x _ => ?_, fun x holding => Or.inl ?_⟩
        · show ((Bio.brelse c.cache r).buf x).dev = _ ∧ _
          rw [Bio.brelse_buf]
          by_cases same : x = r
          · subst same
            simp
          · simp [same]
        · by_cases same : x = r
          · subst same
            simp only [Function.update_self] at holding
            omega
          · simpa [same] using holding
      · cases stepped
  | bpin r => exact absurd traffic id
  | bunpin r => exact absurd traffic id

/-- A pinned buffer is referenced. -/
theorem Pinned.referenced (pinned : Pinned c pending logBuf) {k : Nat} (member : k ∈ pending)
    {b : Fin n} (mapped : logBuf k = some b) : 0 < (c.cache.buf b).refcnt := by
  obtain ⟨order, wf⟩ := pinned.cache
  have counted : 0 < c.pins b := by
    rw [pinned.pins b]
    exact List.length_pos_of_mem (List.mem_filter.mpr ⟨member, by simpa using mapped⟩)
  exact wf.referenced (Or.inr counted)

theorem Pinned.traffic (pinned : Pinned c pending logBuf) {call : Bio.Call n β}
    (stepped : Bio.step c call = some c') (traffic : Traffic call) : Pinned c' pending logBuf := by
  obtain ⟨pins, keeps, handed⟩ := traffic_step traffic stepped
  obtain ⟨order, wf⟩ := pinned.cache
  refine ⟨Bio.inv_step pinned.cache stepped, fun x holding => ?_, fun k member => ?_, ?_⟩
  · rcases handed x holding with wasHeld | onDisk
    · rw [(keeps x (wf.referenced (Or.inl wasHeld))).1]
      exact pinned.onDisk x wasHeld
    · exact onDisk
  · obtain ⟨b, mapped, carried, valid⟩ := pinned.carrier k member
    obtain ⟨dev, blockno, stillValid⟩ := keeps b (pinned.referenced member mapped)
    refine ⟨b, mapped, ?_, stillValid valid⟩
    simpa [Bio.carries, dev, blockno] using carried
  · rw [pins]
    exact pinned.pins

theorem Pinned.mapped_carries (pinned : Pinned c pending logBuf) {k : Nat} (member : k ∈ pending)
    {b : Fin n} (mapped : logBuf k = some b) :
    Bio.carries c.cache rootDev k b = true ∧ (c.cache.buf b).valid = true := by
  obtain ⟨b', mapped', carried, valid⟩ := pinned.carrier k member
  rw [mapped] at mapped'
  cases mapped'
  exact ⟨carried, valid⟩

/-- `bget` of a pending block hits the buffer pinned for it. -/
theorem Pinned.bget_pinned (pinned : Pinned c pending logBuf) {k : Nat} (member : k ∈ pending)
    {b₀ : Fin n} (mapped : logBuf k = some b₀) {cache : Bio.BCache n β} {b : Fin n}
    (got : Bio.bget c.cache rootDev k = .ok (cache, b)) : b = b₀ := by
  obtain ⟨order, wf⟩ := pinned.cache
  obtain ⟨carried, -⟩ := pinned.mapped_carries member mapped
  have first := wf.firstCopy b₀ (Or.inl (pinned.referenced member mapped))
  simp only [Bio.carries, Bool.and_eq_true, beq_iff_eq] at carried
  rw [carried.1, carried.2] at first
  rcases Bio.bget_eq_ok got with ⟨found, -⟩ | ⟨missed, -, -⟩
  · rw [wf.scan_next, first] at found
    exact (Option.some.inj found).symm
  · rw [wf.scan_next, first] at missed
    cases missed

/-- The log's unpin of the first pending block. -/
theorem Pinned.bunpin {k : Nat} {rest : List Nat} (pinned : Pinned c (k :: rest) logBuf)
    {b₀ : Fin n} (mapped : logBuf k = some b₀) (stepped : Bio.step c (.bunpin b₀) = some c') :
    Pinned c' rest logBuf := by
  have cacheInv := Bio.inv_step pinned.cache stepped
  simp only [Bio.step] at stepped
  split at stepped
  · cases stepped
    refine ⟨cacheInv, fun x holding => ?_, fun k' member => ?_, fun x => ?_⟩
    · by_cases same : x = b₀
      · subst same
        simpa [Bio.bunpin] using pinned.onDisk x holding
      · simpa [Bio.bunpin, same] using pinned.onDisk x holding
    · obtain ⟨b, mapped', carried, valid⟩ := pinned.carrier k' (List.mem_cons_of_mem k member)
      refine ⟨b, mapped', ?_, ?_⟩
      · by_cases same : b = b₀
        · subst same
          simpa [Bio.bunpin, Bio.carries] using carried
        · simpa [Bio.bunpin, Bio.carries, same] using carried
      · by_cases same : b = b₀
        · subst same
          simpa [Bio.bunpin] using valid
        · simpa [Bio.bunpin, same] using valid
    · have count := pinned.pins x
      by_cases same : x = b₀
      · subst same
        rw [List.filter_cons_of_pos (by simp [mapped]), List.length_cons] at count
        simp [count]
      · rw [List.filter_cons_of_neg (by simpa [mapped] using Ne.symm same)] at count
        simp [same, count]
  · cases stepped

/-- `log_write`'s pin of a block new to the log. -/
theorem Pinned.bpin {lh : List Nat} (pinned : Pinned c lh logBuf) {b : Fin n}
    (holding : 0 < c.held b) (valid : (c.cache.buf b).valid = true)
    (fresh : (c.cache.buf b).blockno ∉ lh) (stepped : Bio.step c (.bpin b) = some c') :
    Pinned c' (lh ++ [(c.cache.buf b).blockno])
      (Function.update logBuf (c.cache.buf b).blockno (some b)) := by
  have cacheInv := Bio.inv_step pinned.cache stepped
  simp only [Bio.step, if_pos holding, Option.some.injEq] at stepped
  subst stepped
  have keeps : ∀ x, ((Bio.bpin c.cache b).buf x).dev = (c.cache.buf x).dev ∧
      ((Bio.bpin c.cache b).buf x).blockno = (c.cache.buf x).blockno ∧
      ((Bio.bpin c.cache b).buf x).valid = (c.cache.buf x).valid := fun x => by
    by_cases same : x = b
    · subst same
      simp [Bio.bpin]
    · simp [Bio.bpin, same]
  refine ⟨cacheInv, fun x holdingX => ?_, fun k member => ?_, fun x => ?_⟩
  · rw [(keeps x).1]
    exact pinned.onDisk x holdingX
  · rcases List.mem_append.mp member with old | new
    · have different : k ≠ (c.cache.buf b).blockno := fun same => fresh (same ▸ old)
      obtain ⟨b', mapped, carried, validB'⟩ := pinned.carrier k old
      refine ⟨b', by simpa [Function.update_apply, different] using mapped, ?_, ?_⟩
      · simpa [Bio.carries, (keeps b').1, (keeps b').2.1] using carried
      · rw [(keeps b').2.2]
        exact validB'
    · rw [List.mem_singleton] at new
      subst new
      refine ⟨b, by simp, ?_, by rw [(keeps b).2.2]; exact valid⟩
      simp [Bio.carries, (keeps b).1, (keeps b).2.1, pinned.onDisk b holding]
  · have onOld : (lh.filter fun k =>
          Function.update logBuf (c.cache.buf b).blockno (some b) k = some x)
        = lh.filter fun k => logBuf k = some x := by
      apply List.filter_congr
      intro k member
      have different : k ≠ (c.cache.buf b).blockno := fun same => fresh (same ▸ member)
      simp [different]
    rw [List.filter_append, List.length_append, onOld, ← pinned.pins x]
    by_cases same : x = b
    · subst same
      simp
    · simp [same, Ne.symm same]

end Cache

/-! ### One pass at a time -/

section Passes

variable {c c' : Bio.Sys n β} {pending : List Nat} {logBuf : Nat → Option (Fin n)}

theorem acquire_eq_some {blockno : Nat} {b : Fin n} (got : acquire c blockno = some (c', b)) :
    Bio.bget c.cache rootDev blockno = .ok (c'.cache, b) ∧
      Bio.step c (.bget rootDev blockno) = some c' := by
  unfold acquire at got
  split at got
  · next cache r fetched =>
      simp only [Option.some.injEq, Prod.mk.injEq] at got
      obtain ⟨rfl, rfl⟩ := got
      exact ⟨fetched, by simp [Bio.step, fetched]⟩
  · cases got

theorem bread_eq_some {disk : Nat → β} {blockno : Nat} {b : Fin n}
    (got : bread c disk blockno = some (c', b)) :
    ∃ c₁, acquire c blockno = some (c₁, b) ∧ Bio.step c₁ (.read b (disk blockno)) = some c' := by
  simp only [bread, Option.bind_eq_some_iff, bind, Option.pure_def, Option.some.injEq,
    Prod.mk.injEq] at got
  obtain ⟨⟨c₁, b₁⟩, acquired, c₂, fetched, rfl, rfl⟩ := got
  exact ⟨c₁, acquired, fetched⟩

theorem Pinned.bread (pinned : Pinned c pending logBuf) {disk : Nat → β} {blockno : Nat}
    {b : Fin n} (got : bread c disk blockno = some (c', b)) : Pinned c' pending logBuf := by
  obtain ⟨c₁, acquired, fetched⟩ := bread_eq_some got
  exact (pinned.traffic (acquire_eq_some acquired).2 rfl).traffic fetched trivial

/-- `bread` leaves the data of a referenced valid buffer alone. -/
theorem bread_keeps {disk : Nat → β} {blockno : Nat} {b : Fin n}
    (got : bread c disk blockno = some (c', b)) {x : Fin n}
    (referenced : 0 < (c.cache.buf x).refcnt) (valid : (c.cache.buf x).valid = true) :
    (c'.cache.buf x).data = (c.cache.buf x).data := by
  obtain ⟨c₁, acquired, fetched⟩ := bread_eq_some got
  have fetchedOk := (acquire_eq_some acquired).1
  obtain ⟨-, -, valid₁, data₁⟩ := Bio.bget_keeps_referenced fetchedOk referenced
  simp only [Bio.step] at fetched
  split at fetched
  · cases fetched
    show ((Bio.readIn c₁.cache b (disk blockno)).buf x).data = _
    rw [Bio.readIn_buf]
    split
    · next which =>
        rw [← which.1, valid₁, valid] at which
        cases which.2
    · exact data₁
  · cases fetched

theorem step_modify_data {b : Fin n} {contents : β}
    (stepped : Bio.step c (.modify b contents) = some c') : (c'.cache.buf b).data = contents := by
  simp only [Bio.step] at stepped
  split at stepped
  · cases stepped
    simp
  · cases stepped

variable {s s' : Sys n β} {tail blockno : Nat}

theorem writeLogBlock_eq_some (passed : writeLogBlock s tail blockno = some s') :
    ∃ c₁ toBuf c₂ fromBuf c₃ c₄ c₅,
      bread s.cache s.disk (s.log.start + tail + 1) = some (c₁, toBuf) ∧
      bread c₁ s.disk blockno = some (c₂, fromBuf) ∧
      Bio.step c₂ (.modify toBuf (c₂.cache.buf fromBuf).data) = some c₃ ∧
      Bio.step c₃ (.brelse fromBuf) = some c₄ ∧
      Bio.step c₄ (.brelse toBuf) = some c₅ ∧
      s' = { s with cache := c₅,
                    disk := Function.update s.disk (s.log.start + tail + 1) (c₃.cache.buf toBuf).data } := by
  simp only [writeLogBlock, Option.bind_eq_some_iff, bind, Option.pure_def,
    Option.some.injEq] at passed
  obtain ⟨⟨c₁, toBuf⟩, read₁, ⟨c₂, fromBuf⟩, read₂, c₃, copied, c₄, released₁, c₅, released₂,
    rfl⟩ := passed
  exact ⟨c₁, toBuf, c₂, fromBuf, c₃, c₄, c₅, read₁, read₂, copied, released₁, released₂, rfl⟩

theorem writeHead_eq_some {image : List Nat → β → β} (passed : writeHead image s = some s') :
    ∃ c₁ buf c₂ c₃,
      bread s.cache s.disk s.log.start = some (c₁, buf) ∧
      Bio.step c₁ (.modify buf (image s.log.lh (c₁.cache.buf buf).data)) = some c₂ ∧
      Bio.step c₂ (.brelse buf) = some c₃ ∧
      s' = { s with cache := c₃,
                    disk := Function.update s.disk s.log.start (c₂.cache.buf buf).data } := by
  simp only [writeHead, Option.bind_eq_some_iff, bind, Option.pure_def,
    Option.some.injEq] at passed
  obtain ⟨⟨c₁, buf⟩, read₁, c₂, written, c₃, released, rfl⟩ := passed
  exact ⟨c₁, buf, c₂, c₃, read₁, written, released, rfl⟩

theorem installBlock_eq_some (passed : installBlock s tail blockno = some s') :
    ∃ c₁ lbuf c₂ dbuf c₃ c₄ c₅ c₆,
      bread s.cache s.disk (s.log.start + tail + 1) = some (c₁, lbuf) ∧
      bread c₁ s.disk blockno = some (c₂, dbuf) ∧
      Bio.step c₂ (.modify dbuf (c₂.cache.buf lbuf).data) = some c₃ ∧
      Bio.step c₃ (.bunpin dbuf) = some c₄ ∧
      Bio.step c₄ (.brelse lbuf) = some c₅ ∧
      Bio.step c₅ (.brelse dbuf) = some c₆ ∧
      s' = { s with cache := c₆,
                    disk := Function.update s.disk blockno (c₃.cache.buf dbuf).data } := by
  simp only [installBlock, Option.bind_eq_some_iff, bind, Option.pure_def,
    Option.some.injEq] at passed
  obtain ⟨⟨c₁, lbuf⟩, read₁, ⟨c₂, dbuf⟩, read₂, c₃, copied, c₄, unpinned, c₅, released₁, c₆,
    released₂, rfl⟩ := passed
  exact ⟨c₁, lbuf, c₂, dbuf, c₃, c₄, c₅, c₆, read₁, read₂, copied, unpinned, released₁,
    released₂, rfl⟩

theorem Pinned.writeLogBlock (pinned : Pinned s.cache pending logBuf)
    (passed : writeLogBlock s tail blockno = some s') : Pinned s'.cache pending logBuf := by
  obtain ⟨c₁, toBuf, c₂, fromBuf, c₃, c₄, c₅, read₁, read₂, copied, released₁, released₂, rfl⟩ :=
    writeLogBlock_eq_some passed
  exact ((((pinned.bread read₁).bread read₂).traffic copied trivial).traffic released₁
    trivial).traffic released₂ trivial

theorem Pinned.writeHead {image : List Nat → β → β} (pinned : Pinned s.cache pending logBuf)
    (passed : writeHead image s = some s') : Pinned s'.cache pending logBuf := by
  obtain ⟨c₁, buf, c₂, c₃, read₁, written, released, rfl⟩ := writeHead_eq_some passed
  exact ((pinned.bread read₁).traffic written trivial).traffic released trivial

/-- **`write_log` copies the pinned buffer.** The log block of a pending block
gets the data of the buffer `log_write` pinned for it, as that buffer holds it
when the pass starts. -/
theorem writeLogBlock_copies (pinned : Pinned s.cache pending logBuf) (member : blockno ∈ pending)
    {b₀ : Fin n} (mapped : logBuf blockno = some b₀) (passed : writeLogBlock s tail blockno = some s') :
    s'.disk (s.log.start + tail + 1) = (s.cache.cache.buf b₀).data := by
  obtain ⟨c₁, toBuf, c₂, fromBuf, c₃, c₄, c₅, read₁, read₂, copied, released₁, released₂, rfl⟩ :=
    writeLogBlock_eq_some passed
  have pinned₁ := pinned.bread read₁
  obtain ⟨c₂', acquired, -⟩ := bread_eq_some read₂
  have isPinned : fromBuf = b₀ :=
    pinned₁.bget_pinned member mapped (acquire_eq_some acquired).1
  subst isPinned
  have kept₁ := bread_keeps read₁ (pinned.referenced member mapped)
    (pinned.mapped_carries member mapped).2
  have kept₂ := bread_keeps read₂ (pinned₁.referenced member mapped)
    (pinned₁.mapped_carries member mapped).2
  show Function.update s.disk (s.log.start + tail + 1) (c₃.cache.buf toBuf).data
      (s.log.start + tail + 1) = _
  rw [Function.update_self, step_modify_data copied, kept₂, kept₁]

/-- `install_trans`'s pass over the first pending block removes its pin. -/
theorem Pinned.installBlock {rest : List Nat} (pinned : Pinned s.cache (blockno :: rest) logBuf)
    {b₀ : Fin n} (mapped : logBuf blockno = some b₀)
    (passed : installBlock s tail blockno = some s') : Pinned s'.cache rest logBuf := by
  obtain ⟨c₁, lbuf, c₂, dbuf, c₃, c₄, c₅, c₆, read₁, read₂, copied, unpinned, released₁, released₂,
    rfl⟩ := installBlock_eq_some passed
  have pinned₁ := pinned.bread read₁
  obtain ⟨c₂', acquired, -⟩ := bread_eq_some read₂
  have isPinned : dbuf = b₀ :=
    pinned₁.bget_pinned List.mem_cons_self mapped (acquire_eq_some acquired).1
  subst isPinned
  exact ((((pinned₁.bread read₂).traffic copied trivial).bunpin mapped unpinned).traffic
    released₁ trivial).traffic released₂ trivial

end Passes

/-! ### The invariant -/

/-- The log's invariant: its hold on the cache, absorption (no block twice in
the header), and that a commit runs exactly while `log.committing` is set and
only when no call is inside a transaction. -/
structure Inv (s : Sys n β) : Prop where
  pinned : Pinned s.cache (pending s) s.logBuf
  nodup : s.log.lh.Nodup
  idle : s.pc = .idle ↔ s.log.committing = false
  quiet : s.log.committing = true → s.log.outstanding = 0

section Preservation

variable {image : List Nat → β → β} {s s' : Sys n β}

theorem inv_init (n : Nat) (zero : β) (disk : Nat → β) (start size : Nat) :
    Inv (init n zero disk start size) := by
  refine ⟨⟨Bio.inv_init n zero, fun b holding => ?_, fun k member => ?_, fun b => ?_⟩,
    List.nodup_nil, by simp [init], by simp [init]⟩
  · simp [init, Bio.init] at holding
  · simp [pending, init] at member
  · simp [pending, init, Bio.init]

/-- Cache traffic keeps the invariant. -/
theorem Inv.traffic (inv : Inv s) {call : Bio.Call n β} {cache : Bio.Sys n β}
    (stepped : Bio.step s.cache call = some cache) (traffic : Traffic call) :
    Inv { s with cache := cache } :=
  ⟨inv.pinned.traffic stepped traffic, inv.nodup, inv.idle, inv.quiet⟩

/-- Outside a commit, every logged block is pending. -/
theorem pending_of_idle (idle : s.pc = .idle) : pending s = s.log.lh := by
  simp [pending, idle, Pc.installed]

theorem inv_beginOp (inv : Inv s) (stepped : step image s .beginOp = some s') : Inv s' := by
  simp only [step, Option.map_eq_some_iff] at stepped
  obtain ⟨log, begun, rfl⟩ := stepped
  obtain ⟨notCommitting, -, rfl⟩ := Log.beginOp_eq_some.mp begun
  exact ⟨inv.pinned, inv.nodup, inv.idle, by simp [notCommitting]⟩

theorem inv_endOp (inv : Inv s) (stepped : step image s .endOp = some s') : Inv s' := by
  simp only [step] at stepped
  split at stepped
  · split at stepped
    · next log ended =>
        obtain ⟨notCommitting, last, rfl⟩ := Log.endOp_eq_ok.mp ended
        have pinned := inv.pinned
        rw [pending_of_idle (inv.idle.mpr notCommitting)] at pinned
        split at stepped
        · cases stepped
          exact ⟨pinned, inv.nodup, by simp, fun _ => by simpa using last⟩
        · cases stepped
          exact ⟨inv.pinned, inv.nodup, by simpa using inv.idle.mpr notCommitting, by simp⟩
    · next log ended =>
        obtain ⟨notCommitting, -, rfl⟩ := Log.endOp_eq_ok.mp ended
        cases stepped
        exact ⟨inv.pinned, inv.nodup, by simpa using inv.idle.mpr notCommitting, by simp⟩
    · cases stepped
  · cases stepped

theorem inv_logWrite {b : Fin n} (inv : Inv s) (stepped : step image s (.logWrite b) = some s') :
    Inv s' := by
  simp only [step] at stepped
  split at stepped
  · next ready =>
      obtain ⟨valid, holding⟩ := ready
      split at stepped
      · next log wrote =>
          obtain ⟨inside, absorbedOrNew⟩ := Log.logWrite_eq_ok wrote
          rcases absorbedOrNew with ⟨-, -, new⟩ | ⟨fresh, rfl, -⟩
          · cases new
          have idle : s.pc = .idle := inv.idle.mpr (by
            cases committing : s.log.committing with
            | false => rfl
            | true => have := inv.quiet committing; omega)
          simp only [Option.map_eq_some_iff] at stepped
          obtain ⟨cache, pinnedStep, rfl⟩ := stepped
          have pinned := inv.pinned
          rw [pending_of_idle idle] at pinned
          refine ⟨?_, ?_, by simpa using inv.idle, inv.quiet⟩
          · simpa [pending, idle, Pc.installed] using pinned.bpin holding valid fresh pinnedStep
          · exact List.nodup_append.mpr ⟨inv.nodup, List.nodup_singleton _,
              fun x member y same => by simp at same; exact same ▸ fun eq => fresh (eq ▸ member)⟩
      · next log wrote =>
          cases stepped
          obtain ⟨-, absorbedOrNew⟩ := Log.logWrite_eq_ok wrote
          rcases absorbedOrNew with ⟨-, rfl, -⟩ | ⟨-, -, new⟩
          · exact inv
          · cases new
      · cases stepped
  · cases stepped

theorem inv_commit (inv : Inv s) (stepped : step image s .commit = some s') : Inv s' := by
  simp only [step, commitStep] at stepped
  split at stepped
  · cases stepped
  · next tail writing =>
      have committing : s.log.committing = true := by
        cases committed : s.log.committing with
        | false => rw [inv.idle.mpr committed] at writing; cases writing
        | true => rfl
      split at stepped
      · obtain ⟨s₁, passed, rfl⟩ := Option.map_eq_some_iff.mp stepped
        obtain ⟨_, _, _, _, _, _, _, _, _, _, _, _, rfl⟩ := writeLogBlock_eq_some passed
        have pinned := (inv.pinned).writeLogBlock passed
        refine ⟨?_, inv.nodup, by simp [committing], inv.quiet⟩
        simpa [pending, writing, Pc.installed] using pinned
      · obtain ⟨s₁, passed, rfl⟩ := Option.map_eq_some_iff.mp stepped
        obtain ⟨_, _, _, _, _, _, _, rfl⟩ := writeHead_eq_some passed
        have pinned := (inv.pinned).writeHead passed
        refine ⟨?_, inv.nodup, by simp [committing], inv.quiet⟩
        simpa [pending, writing, Pc.installed] using pinned
  · next tail installing =>
      have committing : s.log.committing = true := by
        cases committed : s.log.committing with
        | false => rw [inv.idle.mpr committed] at installing; cases installing
        | true => rfl
      split at stepped
      · next inRange =>
          obtain ⟨s₁, passed, rfl⟩ := Option.map_eq_some_iff.mp stepped
          have split : pending s = s.log.lh[tail] :: s.log.lh.drop (tail + 1) := by
            simp only [pending, installing, Pc.installed]
            exact List.drop_eq_getElem_cons inRange
          have pinned := inv.pinned
          rw [split] at pinned
          obtain ⟨b₀, mapped, -⟩ := pinned.carrier _ List.mem_cons_self
          have unpinned := pinned.installBlock mapped passed
          obtain ⟨_, _, _, _, _, _, _, _, _, _, _, _, _, _, rfl⟩ := installBlock_eq_some passed
          refine ⟨?_, inv.nodup, by simp [committing], inv.quiet⟩
          simpa [pending, Pc.installed] using unpinned
      · next outOfRange =>
          obtain ⟨s₁, passed, rfl⟩ := Option.map_eq_some_iff.mp stepped
          have empty : pending s = [] := by
            simp only [pending, installing, Pc.installed]
            exact List.drop_eq_nil_of_le (by omega)
          have pinned := inv.pinned
          rw [empty] at pinned
          have cleared := (show Pinned ({ s with log := { s.log with lh := [] } } : Sys n β).cache []
            s.logBuf from pinned).writeHead passed
          obtain ⟨_, _, _, _, _, _, _, rfl⟩ := writeHead_eq_some passed
          exact ⟨by simpa [pending, Pc.installed] using cleared, List.nodup_nil, by simp,
            by simp⟩

theorem inv_step (inv : Inv s) {event : Event n β} (stepped : step image s event = some s') :
    Inv s' := by
  cases event with
  | beginOp => exact inv_beginOp inv stepped
  | endOp => exact inv_endOp inv stepped
  | bget blockno =>
      obtain ⟨cache, fetched, rfl⟩ := Option.map_eq_some_iff.mp stepped
      exact inv.traffic fetched rfl
  | read b =>
      obtain ⟨cache, fetched, rfl⟩ := Option.map_eq_some_iff.mp stepped
      exact inv.traffic fetched trivial
  | modify b contents =>
      simp only [step] at stepped
      split at stepped
      · obtain ⟨cache, written, rfl⟩ := Option.map_eq_some_iff.mp stepped
        exact inv.traffic written trivial
      · cases stepped
  | brelse b =>
      obtain ⟨cache, released, rfl⟩ := Option.map_eq_some_iff.mp stepped
      exact inv.traffic released trivial
  | logWrite b => exact inv_logWrite inv stepped
  | commit => exact inv_commit inv stepped

end Preservation

/-- Absorption makes the pin of a pending block's buffer its only one. -/
theorem Inv.pins_eq_one {s : Sys n β} (inv : Inv s) {k : Nat} (member : k ∈ pending s) {b : Fin n}
    (mapped : s.logBuf k = some b) : s.cache.pins b = 1 := by
  have nodup : ((pending s).filter fun k => s.logBuf k = some b).Nodup :=
    ((List.drop_sublist _ _).nodup inv.nodup).filter _
  have onlyK : ∀ x ∈ (pending s).filter (fun k => s.logBuf k = some b), x = k := by
    intro x kept
    obtain ⟨pendingX, mappedX⟩ := List.mem_filter.mp kept
    have carriedX := (inv.pinned.mapped_carries pendingX (by simpa using mappedX)).1
    have carriedK := (inv.pinned.mapped_carries member mapped).1
    simp only [Bio.carries, Bool.and_eq_true, beq_iff_eq] at carriedX carriedK
    exact carriedX.2.symm.trans carriedK.2
  have kept : k ∈ (pending s).filter (fun k => s.logBuf k = some b) :=
    List.mem_filter.mpr ⟨member, by simpa using mapped⟩
  have atMostOne := List.nodup_replicate.mp
    (List.eq_replicate_iff.mpr ⟨rfl, onlyK⟩ ▸ nodup)
  rw [inv.pinned.pins b]
  have atLeastOne := List.length_pos_of_mem kept
  omega

theorem Reachable.inv {image : List Nat → β → β} {zero : β} {disk : Nat → β} {start size : Nat}
    {s : Sys n β} (reachable : Reachable image n zero disk start size s) : Inv s :=
  Machine.Reachable.invariant (inv_init n zero disk start size)
    (fun _ _ _ inv stepped => inv_step inv stepped) reachable

/-- **Logged blocks stay in the cache.** In every state of every interleaving
of file-system calls and other cache traffic with commits:
(a) the header holds no block twice;
(b) every logged block whose pin `install_trans` has not yet removed is carried
by the valid buffer `log_write` pinned for it, which has exactly one pin, which
`bget` of the block finds, and which no `bget` takes away from the block or
changes;
(c) each buffer has one pin per such log entry;
(d) the pass of `write_log` over an entry copies into the log exactly the data
the pinned buffer holds;
(e) with no logged block left, as after a commit, every buffer's `refcnt` is its
number of holders. -/
theorem logged_blocks_pinned {image : List Nat → β → β} {zero : β} {disk : Nat → β}
    {start size : Nat} {s : Sys n β} (reachable : Reachable image n zero disk start size s) :
    s.log.lh.Nodup ∧
    (∀ k ∈ pending s, ∃ b, s.logBuf k = some b ∧ Bio.carries s.cache.cache rootDev k b = true ∧
      (s.cache.cache.buf b).valid = true ∧ s.cache.pins b = 1 ∧
      (∀ cache r, Bio.bget s.cache.cache rootDev k = .ok (cache, r) → r = b) ∧
      (∀ dev blockno cache r, Bio.bget s.cache.cache dev blockno = .ok (cache, r) →
        (cache.buf b).dev = rootDev ∧ (cache.buf b).blockno = k ∧
        (cache.buf b).data = (s.cache.cache.buf b).data)) ∧
    (∀ b, s.cache.pins b = ((pending s).filter fun k => s.logBuf k = some b).length) ∧
    (∀ tail (inRange : tail < s.log.lh.length), s.pc = .writeLog tail → ∀ s',
      step image s .commit = some s' →
      ∃ b, s.logBuf s.log.lh[tail] = some b ∧
        s'.disk (s.log.start + tail + 1) = (s.cache.cache.buf b).data) ∧
    (s.log.lh = [] → ∀ b, (s.cache.cache.buf b).refcnt = s.cache.held b) := by
  have inv := reachable.inv
  obtain ⟨order, wf⟩ := inv.pinned.cache
  refine ⟨inv.nodup, fun k member => ?_, inv.pinned.pins,
    fun tail inRange writing s' stepped => ?_, fun empty b => ?_⟩
  · obtain ⟨b, mapped, carried, valid⟩ := inv.pinned.carrier k member
    have referenced := inv.pinned.referenced member mapped
    refine ⟨b, mapped, carried, valid, inv.pins_eq_one member mapped,
      fun cache r got => inv.pinned.bget_pinned member mapped got,
      fun dev blockno cache r got => ?_⟩
    obtain ⟨sameDev, sameBlock, -, sameData⟩ := Bio.bget_keeps_referenced got referenced
    simp only [Bio.carries, Bool.and_eq_true, beq_iff_eq] at carried
    exact ⟨sameDev.trans carried.1, sameBlock.trans carried.2, sameData⟩
  · simp only [step, commitStep, writing, dif_pos inRange] at stepped
    obtain ⟨s₁, passed, rfl⟩ := Option.map_eq_some_iff.mp stepped
    have member : s.log.lh[tail] ∈ pending s := by
      simp only [pending, writing, Pc.installed, List.drop_zero]
      exact List.getElem_mem inRange
    obtain ⟨b, mapped, -⟩ := inv.pinned.carrier _ member
    have copied := writeLogBlock_copies inv.pinned member mapped passed
    exact ⟨b, mapped, copied⟩
  · have noPins : s.cache.pins b = 0 := by
      rw [inv.pinned.pins b]
      simp [pending, empty]
    rw [wf.refcnt b, noPins, Nat.add_zero]

/-- A call reads block 50 into buffer 0, changes it, logs it and releases it;
its `end_op` starts the commit, with `write_log`'s first pass next. -/
theorem logged_blocks_pinned_one_call :
    let s := (Machine.run (step (fun lh _ => lh.length)) (init nBuf 0 (fun _ => 0) logStart nlog)
      [.beginOp, .bget 50, .read 0, .modify 0 7, .logWrite 0, .brelse 0, .endOp]).getD
        (init nBuf 0 (fun _ => 0) logStart nlog)
    Reachable (fun lh _ => lh.length) nBuf 0 (fun _ => 0) logStart nlog s ∧ (
    s.log.lh.Nodup ∧
      (∀ k ∈ pending s, ∃ b, s.logBuf k = some b ∧ Bio.carries s.cache.cache rootDev k b = true ∧
        (s.cache.cache.buf b).valid = true ∧ s.cache.pins b = 1 ∧
        (∀ cache r, Bio.bget s.cache.cache rootDev k = .ok (cache, r) → r = b) ∧
        (∀ dev blockno cache r, Bio.bget s.cache.cache dev blockno = .ok (cache, r) →
          (cache.buf b).dev = rootDev ∧ (cache.buf b).blockno = k ∧
          (cache.buf b).data = (s.cache.cache.buf b).data)) ∧
      (∀ b, s.cache.pins b = ((pending s).filter fun k => s.logBuf k = some b).length) ∧
      (∀ tail (inRange : tail < s.log.lh.length), s.pc = .writeLog tail → ∀ s',
        step (fun lh _ => lh.length) s .commit = some s' →
        ∃ b, s.logBuf s.log.lh[tail] = some b ∧
          s'.disk (s.log.start + tail + 1) = (s.cache.cache.buf b).data) ∧
      (s.log.lh = [] → ∀ b, (s.cache.cache.buf b).refcnt = s.cache.held b)) := by
  intro s
  have ran : Machine.run (step (fun lh _ => lh.length)) (init nBuf 0 (fun _ => 0) logStart nlog)
      [.beginOp, .bget 50, .read 0, .modify 0 7, .logWrite 0, .brelse 0, .endOp] = some s := rfl
  have reachable : Reachable (fun lh _ => lh.length) nBuf 0 (fun _ => 0) logStart nlog s :=
    Machine.reachable_of_run Relation.ReflTransGen.refl ran
  exact ⟨reachable, logged_blocks_pinned reachable⟩

end Xv6.Log.Pinning
