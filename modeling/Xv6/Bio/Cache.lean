import Xv6.Param
import Xv6.Lib.DList
import Xv6.Lib.Machine

/-!
Contract: the buffer cache of `kernel/bio.c`.

`bcache` holds `NBUF` buffers on a circular doubly linked list through
`bcache.head`, most recently released first. `bget` walks it forward for a
buffer that carries the block and backward for the least recently used buffer
with no reference; `brelse` moves a buffer whose last reference goes to the
front; `bpin` and `bunpin` add and drop a reference for the log.

The buffers are `Fin n` and a pointer is an `Option (Fin n)`, `none` being
`bcache.head`. Every routine runs under `bcache.lock`, so each is one event;
`bread` is `bget` and then, by the process that now holds the buffer, its
read of the disk (the event `read`). History variables count each buffer's
holders (calls of `bget` not yet released) and pins.

Owns: `Buf`, `BCache`, the routines, `Sys`/`Call`/`step`, the representation
invariant `Wf` and the results drawn from it. Does not own: the list
operations themselves (`DList`).
-/

namespace Xv6.Bio

open DList

/-- `struct buf` without its sleep-lock, its `disk` flag (the driver's) and its
list pointers (kept in `BCache.links`). -/
structure Buf (β : Type) where
  valid : Bool
  dev : Nat
  blockno : Nat
  refcnt : Nat
  data : β
deriving DecidableEq, Repr

/-- `bcache`: the buffers, and the `next`/`prev` pointers of the buffers and of
`bcache.head`. -/
structure BCache (n : Nat) (β : Type) where
  buf : Fin n → Buf β
  links : Links (Fin n)

variable {n : Nat} {β : Type}

/-- `binit`: the buffers are static, hence zero; `head` points at itself and
each buffer in turn is put after `head`. The buffers' own pointers start at
`head` rather than null; `binit` overwrites them before any is read. -/
def binit (n : Nat) (zero : β) : BCache n β where
  buf := fun _ => ⟨false, 0, 0, 0, zero⟩
  links := (List.finRange n).foldl pushFront ⟨fun _ => none, fun _ => none⟩

/-- `bget`'s first test: `b->dev == dev && b->blockno == blockno`. -/
def carries (c : BCache n β) (dev blockno : Nat) (b : Fin n) : Bool :=
  (c.buf b).dev == dev && (c.buf b).blockno == blockno

/-- `bget`'s second test: `b->refcnt == 0`. -/
def unused (c : BCache n β) (b : Fin n) : Bool :=
  (c.buf b).refcnt == 0

/-- `b->refcnt` changed by `f`: `++` in `bget` and `bpin`, `--` in `brelse` and
`bunpin`. -/
def withRefcnt (c : BCache n β) (b : Fin n) (f : Nat → Nat) : BCache n β :=
  { c with buf := Function.update c.buf b { c.buf b with refcnt := f (c.buf b).refcnt } }

/-- `bget`'s recycling of `b` for the block. -/
def recycle (c : BCache n β) (b : Fin n) (dev blockno : Nat) : BCache n β :=
  let fresh := { c.buf b with dev := dev, blockno := blockno, valid := false, refcnt := 1 }
  { c with buf := Function.update c.buf b fresh }

/-- `bget`. Each loop follows the list from `head` until it is back at `head`;
`n + 1` steps are more than a list of the `n` buffers needs
(`Wf.scan_next`). -/
def bget (c : BCache n β) (dev blockno : Nat) : Except String (BCache n β × Fin n) :=
  match scan c.links.next (carries c dev blockno) (n + 1) (c.links.next none) with
  | some b => .ok (withRefcnt c b (· + 1), b)
  | none =>
      match scan c.links.prev (unused c) (n + 1) (c.links.prev none) with
      | some b => .ok (recycle c b dev blockno, b)
      | none => .error "bget: no buffers"

/-- The rest of `bread`: `if(!b->valid) { virtio_disk_rw(b, 0); b->valid = 1; }`,
where `contents` is what the disk holds for the block. -/
def readIn (c : BCache n β) (b : Fin n) (contents : β) : BCache n β :=
  if (c.buf b).valid then c
  else { c with buf := Function.update c.buf b { c.buf b with data := contents, valid := true } }

/-- `bread`, on a disk whose block `k` holds `disk k`. -/
def bread (c : BCache n β) (disk : Nat → β) (dev blockno : Nat) :
    Except String (BCache n β × Fin n) := do
  let (c, b) ← bget c dev blockno
  pure (readIn c b (disk blockno), b)

/-- `brelse`: drop the reference; the last one moves `b` to the front. -/
def brelse (c : BCache n β) (b : Fin n) : BCache n β :=
  let c := withRefcnt c b (· - 1)
  if (c.buf b).refcnt = 0 then { c with links := pushFront (unlink c.links b) b } else c

def bpin (c : BCache n β) (b : Fin n) : BCache n β := withRefcnt c b (· + 1)

def bunpin (c : BCache n β) (b : Fin n) : BCache n β := withRefcnt c b (· - 1)

/-- The holder of `b` writes its data (`memmove(bp->data, ...)` and the like in
the file system). -/
def modify (c : BCache n β) (b : Fin n) (contents : β) : BCache n β :=
  { c with buf := Function.update c.buf b { c.buf b with data := contents } }

/-! ### What each routine changes -/

section Frames

variable {c : BCache n β} {b y : Fin n}

@[simp] theorem withRefcnt_links (f : Nat → Nat) : (withRefcnt c b f).links = c.links := rfl

@[simp] theorem withRefcnt_buf (f : Nat → Nat) :
    (withRefcnt c b f).buf y
      = if y = b then { c.buf b with refcnt := f (c.buf b).refcnt } else c.buf y := by
  simp [withRefcnt, Function.update_apply]

@[simp] theorem recycle_links (dev blockno : Nat) : (recycle c b dev blockno).links = c.links := rfl

@[simp] theorem recycle_buf (dev blockno : Nat) :
    (recycle c b dev blockno).buf y
      = if y = b then { c.buf b with dev := dev, blockno := blockno, valid := false, refcnt := 1 }
        else c.buf y := by
  simp [recycle, Function.update_apply]

@[simp] theorem readIn_links (contents : β) : (readIn c b contents).links = c.links := by
  unfold readIn
  split <;> rfl

theorem readIn_buf (contents : β) :
    (readIn c b contents).buf y
      = if y = b ∧ (c.buf b).valid = false then { c.buf b with data := contents, valid := true }
        else c.buf y := by
  unfold readIn
  by_cases valid : (c.buf b).valid = true
  · simp [valid]
  · by_cases same : y = b
    · subst same
      simp [valid]
    · simp [valid, same]

@[simp] theorem modify_links (contents : β) : (modify c b contents).links = c.links := rfl

@[simp] theorem modify_buf (contents : β) :
    (modify c b contents).buf y = if y = b then { c.buf b with data := contents } else c.buf y := by
  simp [modify, Function.update_apply]

theorem brelse_buf : (brelse c b).buf = (withRefcnt c b (· - 1)).buf := by
  unfold brelse
  dsimp only
  split <;> rfl

theorem brelse_links :
    (brelse c b).links
      = if (c.buf b).refcnt - 1 = 0 then pushFront (unlink c.links b) b else c.links := by
  unfold brelse
  by_cases last : (c.buf b).refcnt - 1 = 0 <;> simp [last]

end Frames

/-- **What `bget` returns**: a buffer that carries the block, found by the
forward walk, with one more reference; or, when the forward walk finds none, a
buffer with no reference, found by the backward walk and recycled. -/
theorem bget_eq_ok {c c' : BCache n β} {dev blockno : Nat} {b : Fin n}
    (got : bget c dev blockno = .ok (c', b)) :
    (scan c.links.next (carries c dev blockno) (n + 1) (c.links.next none) = some b ∧
        c' = withRefcnt c b (· + 1)) ∨
      (scan c.links.next (carries c dev blockno) (n + 1) (c.links.next none) = none ∧
        scan c.links.prev (unused c) (n + 1) (c.links.prev none) = some b ∧
        c' = recycle c b dev blockno) := by
  unfold bget at got
  split at got
  · next found =>
      simp only [Except.ok.injEq, Prod.mk.injEq] at got
      obtain ⟨rfl, rfl⟩ := got
      exact Or.inl ⟨found, rfl⟩
  · next missed =>
      split at got
      · next recycled =>
          simp only [Except.ok.injEq, Prod.mk.injEq] at got
          obtain ⟨rfl, rfl⟩ := got
          exact Or.inr ⟨missed, recycled, rfl⟩
      · cases got

/-- `bget` returns a buffer that carries the block. -/
theorem bget_carries {c c' : BCache n β} {dev blockno : Nat} {b : Fin n}
    (got : bget c dev blockno = .ok (c', b)) :
    (c'.buf b).dev = dev ∧ (c'.buf b).blockno = blockno := by
  rcases bget_eq_ok got with ⟨found, rfl⟩ | ⟨_, _, rfl⟩
  · have carried := scan_wanted found
    simp only [carries, Bool.and_eq_true, beq_iff_eq] at carried
    simpa using carried
  · simp

/-- `bget` never takes a buffer that has a reference away from its block: every
referenced buffer keeps its block, its `valid` flag and its data. -/
theorem bget_keeps_referenced {c c' : BCache n β} {dev blockno : Nat} {b : Fin n}
    (got : bget c dev blockno = .ok (c', b)) {j : Fin n} (referenced : 0 < (c.buf j).refcnt) :
    (c'.buf j).dev = (c.buf j).dev ∧ (c'.buf j).blockno = (c.buf j).blockno ∧
      (c'.buf j).valid = (c.buf j).valid ∧ (c'.buf j).data = (c.buf j).data := by
  rcases bget_eq_ok got with ⟨_, rfl⟩ | ⟨_, recycled, rfl⟩
  · by_cases same : j = b
    · subst same
      simp
    · simp [same]
  · have free : (c.buf b).refcnt = 0 := by simpa [unused] using scan_wanted recycled
    have different : j ≠ b := fun same => by rw [same, free] at referenced; exact absurd referenced (by decide)
    simp [different]

/-! ### The cache and its callers -/

/-- The cache with the history of its callers: `held b` counts the calls of
`bget` that returned `b` and are not yet released, `pins b` the `bpin`s of `b`
not yet undone by `bunpin`. -/
structure Sys (n : Nat) (β : Type) where
  cache : BCache n β
  held : Fin n → Nat
  pins : Fin n → Nat

/-- A call into the cache. `read` (the rest of `bread`) and `modify` are made by
a process that holds the buffer. -/
inductive Call (n : Nat) (β : Type) where
  | bget (dev blockno : Nat)
  | read (b : Fin n) (contents : β)
  | modify (b : Fin n) (contents : β)
  | brelse (b : Fin n)
  | bpin (b : Fin n)
  | bunpin (b : Fin n)

/-- After `binit`, before any call. -/
def init (n : Nat) (zero : β) : Sys n β :=
  ⟨binit n zero, fun _ => 0, fun _ => 0⟩

/-- One call. A call on a buffer its caller does not hold (for `bunpin`, one
with no pin) is no call of the interface: a buffer is not used after its
`brelse`, and `brelse` itself panics on a buffer it does not hold. A `bget` that
panics stops the system. -/
def step (s : Sys n β) : Call n β → Option (Sys n β)
  | .bget dev blockno =>
      match bget s.cache dev blockno with
      | .ok (cache, b) => some ⟨cache, Function.update s.held b (s.held b + 1), s.pins⟩
      | .error _ => none
  | .read b contents =>
      if 0 < s.held b then some { s with cache := readIn s.cache b contents } else none
  | .modify b contents =>
      if 0 < s.held b then some { s with cache := modify s.cache b contents } else none
  | .brelse b =>
      if 0 < s.held b then
        some ⟨brelse s.cache b, Function.update s.held b (s.held b - 1), s.pins⟩
      else none
  | .bpin b =>
      if 0 < s.held b then
        some ⟨bpin s.cache b, s.held, Function.update s.pins b (s.pins b + 1)⟩
      else none
  | .bunpin b =>
      if 0 < s.pins b then
        some ⟨bunpin s.cache b, s.held, Function.update s.pins b (s.pins b - 1)⟩
      else none

/-- The states of every interleaving of calls after `binit`. -/
def Reachable (n : Nat) (zero : β) (s : Sys n β) : Prop :=
  Machine.Reachable step (init n zero) s

/-! ### The representation invariant -/

/-- A buffer whose block matters: referenced, or holding the block's data. -/
def Buf.Live (buf : Buf β) : Prop :=
  0 < buf.refcnt ∨ buf.valid = true

/-- Every live buffer is the first on the list that carries its block, so that
`bget`'s forward walk finds it. -/
def FirstCopy (c : BCache n β) (order : List (Fin n)) : Prop :=
  ∀ b, (c.buf b).Live → order.find? (carries c (c.buf b).dev (c.buf b).blockno) = some b

/-- Two caches whose buffers carry the same blocks. -/
def SameBlocks (c c' : BCache n β) : Prop :=
  ∀ y, (c'.buf y).dev = (c.buf y).dev ∧ (c'.buf y).blockno = (c.buf y).blockno

/-- The invariant, relative to the order of the buffers on the list. -/
structure Wf (s : Sys n β) (order : List (Fin n)) : Prop where
  nodup : order.Nodup
  complete : ∀ b, b ∈ order
  links : s.cache.links = linksOf order
  firstCopy : FirstCopy s.cache order
  refcnt : ∀ b, (s.cache.buf b).refcnt = s.held b + s.pins b

def Inv (s : Sys n β) : Prop :=
  ∃ order, Wf s order

section FirstCopy

variable {c c' : BCache n β} {order : List (Fin n)} {b : Fin n}

theorem carries_eq_of_sameBlocks (same : SameBlocks c c') : carries c' = carries c := by
  funext dev blockno y
  simp [carries, (same y).1, (same y).2]

theorem sameBlocks_withRefcnt (f : Nat → Nat) : SameBlocks c (withRefcnt c b f) := by
  intro y
  by_cases same : y = b
  · subst same
    simp
  · simp [same]

theorem sameBlocks_readIn (contents : β) : SameBlocks c (readIn c b contents) := by
  intro y
  rw [readIn_buf]
  split
  · next which => rw [which.1]; simp
  · simp

theorem sameBlocks_modify (contents : β) : SameBlocks c (modify c b contents) := by
  intro y
  by_cases same : y = b
  · subst same
    simp
  · simp [same]

/-- No two live buffers carry the same block. -/
theorem FirstCopy.unique (first : FirstCopy c order) {b b' : Fin n} (live : (c.buf b).Live)
    (live' : (c.buf b').Live) (dev : (c.buf b).dev = (c.buf b').dev)
    (blockno : (c.buf b).blockno = (c.buf b').blockno) : b = b' := by
  have found := first b live
  rw [dev, blockno, first b' live'] at found
  exact (Option.some.inj found).symm

/-- Keeping every block and making no buffer live keeps `FirstCopy`. -/
theorem FirstCopy.mono (first : FirstCopy c order) (same : SameBlocks c c')
    (live : ∀ x, (c'.buf x).Live → (c.buf x).Live) : FirstCopy c' order := by
  intro x liveX
  rw [carries_eq_of_sameBlocks same, (same x).1, (same x).2]
  exact first x (live x liveX)

/-- `bget`'s hit: the buffer it found is first for its block. -/
theorem FirstCopy.hit {dev blockno : Nat} (first : FirstCopy c order)
    (found : order.find? (carries c dev blockno) = some b) :
    FirstCopy (withRefcnt c b (· + 1)) order := by
  intro x liveX
  rw [carries_eq_of_sameBlocks (sameBlocks_withRefcnt _)]
  by_cases same : x = b
  · subst same
    have carried := List.find?_some found
    simp only [carries, Bool.and_eq_true, beq_iff_eq] at carried
    simpa [carried.1, carried.2] using found
  · simp only [withRefcnt_buf, same, if_false] at liveX ⊢
    exact first x liveX

/-- `bget`'s recycling: no buffer carried the block, so the recycled one is the
only one that does, and no other block loses its first buffer. -/
theorem FirstCopy.recycle {dev blockno : Nat} (first : FirstCopy c order)
    (complete : ∀ b, b ∈ order) (missed : order.find? (carries c dev blockno) = none) (r : Fin n) :
    FirstCopy (recycle c r dev blockno) order := by
  have absent : ∀ y, carries c dev blockno y = false := fun y => by
    simpa using List.find?_eq_none.mp missed y (complete y)
  intro x liveX
  by_cases same : x = r
  · subst same
    simp only [recycle_buf, if_true]
    refine find?_of_unique (complete x) (by simp [carries]) fun y _ carried => ?_
    by_contra different
    have before := absent y
    simp only [carries, recycle_buf, different, if_false, Bool.and_eq_true, beq_iff_eq] at carried
    simp [carries, carried.1, carried.2] at before
  · have liveOld : (c.buf x).Live := by simpa [same] using liveX
    rw [recycle_buf, if_neg same]
    refine find?_of_imp (fun y carried => ?_) (by simp [carries, same]) (first x liveOld)
    by_cases isR : y = r
    · subst isR
      simp only [carries, recycle_buf, if_true, Bool.and_eq_true, beq_iff_eq] at carried
      have before := absent x
      simp [carries, ← carried.1, ← carried.2] at before
    · simpa [carries, isR] using carried

/-- `brelse`'s move to the front keeps every live buffer first for its block:
the moved buffer was live, so it carried no other live buffer's block. -/
theorem FirstCopy.moveFront (first : FirstCopy c order) (liveB : (c.buf b).Live)
    (same : SameBlocks c c') (live : ∀ x, (c'.buf x).Live → (c.buf x).Live) :
    FirstCopy c' (b :: order.erase b) := by
  intro x liveX
  have liveOld := live x liveX
  rw [carries_eq_of_sameBlocks same, (same x).1, (same x).2, List.find?_cons]
  by_cases isB : x = b
  · subst isB
    simp [carries]
  · have other : carries c (c.buf x).dev (c.buf x).blockno b = false := by
      cases carried : carries c (c.buf x).dev (c.buf x).blockno b with
      | false => rfl
      | true =>
          simp only [carries, Bool.and_eq_true, beq_iff_eq] at carried
          exact absurd (first.unique liveB liveOld carried.1 carried.2) (Ne.symm isB)
    rw [other, find?_erase_of_false other]
    exact first x liveOld

end FirstCopy

/-! ### Every call keeps the invariant -/

section Preservation

variable {s : Sys n β} {order : List (Fin n)} {b : Fin n}

theorem length_lt_of_nodup {order : List (Fin n)} (nodup : order.Nodup) :
    order.length < n + 1 := by
  have bound := nodup.length_le_card
  rw [Fintype.card_fin] at bound
  omega

/-- Over a well-formed list, `bget`'s forward loop is `find?` over the order. -/
theorem Wf.scan_next (wf : Wf s order) (wanted : Fin n → Bool) :
    scan s.cache.links.next wanted (n + 1) (s.cache.links.next none) = order.find? wanted := by
  rw [wf.links]
  exact DList.scan_next wf.nodup wanted (length_lt_of_nodup wf.nodup)

/-- Over a well-formed list, `bget`'s backward loop is `find?` over the reversed
order. -/
theorem Wf.scan_prev (wf : Wf s order) (wanted : Fin n → Bool) :
    scan s.cache.links.prev wanted (n + 1) (s.cache.links.prev none)
      = order.reverse.find? wanted := by
  rw [wf.links]
  exact DList.scan_prev wf.nodup wanted (length_lt_of_nodup wf.nodup)

/-- A held or pinned buffer is referenced. -/
theorem Wf.referenced (wf : Wf s order) (used : 0 < s.held b ∨ 0 < s.pins b) :
    0 < (s.cache.buf b).refcnt := by
  rw [wf.refcnt b]
  omega

theorem live_withRefcnt_sub {c : BCache n β} {x : Fin n}
    (live : ((withRefcnt c b (· - 1)).buf x).Live) : (c.buf x).Live := by
  by_cases same : x = b
  · subst same
    simp only [Buf.Live, withRefcnt_buf, if_true] at live
    exact live.imp_left (fun positive => by omega)
  · simpa [same] using live

theorem live_withRefcnt_add {c : BCache n β} {x : Fin n} (liveB : (c.buf b).Live)
    (live : ((withRefcnt c b (· + 1)).buf x).Live) : (c.buf x).Live := by
  by_cases same : x = b
  · subst same
    exact liveB
  · simpa [same] using live

theorem inv_bget {dev blockno : Nat} {c' : BCache n β} (wf : Wf s order)
    (got : bget s.cache dev blockno = .ok (c', b)) :
    Wf ⟨c', Function.update s.held b (s.held b + 1), s.pins⟩ order := by
  rcases bget_eq_ok got with ⟨found, rfl⟩ | ⟨missed, recycled, rfl⟩
  · rw [wf.scan_next] at found
    refine ⟨wf.nodup, wf.complete, wf.links, wf.firstCopy.hit found, fun x => ?_⟩
    by_cases same : x = b
    · subst same
      simp [wf.refcnt x]
      omega
    · simp [same, wf.refcnt x]
  · rw [wf.scan_next] at missed
    rw [wf.scan_prev] at recycled
    have free : (s.cache.buf b).refcnt = 0 := by simpa [unused] using List.find?_some recycled
    have unheld := wf.refcnt b
    refine ⟨wf.nodup, wf.complete, wf.links, wf.firstCopy.recycle wf.complete missed b,
      fun x => ?_⟩
    by_cases same : x = b
    · subst same
      simp
      omega
    · simp [same, wf.refcnt x]

theorem inv_read (wf : Wf s order) (holding : 0 < s.held b) (contents : β) :
    Wf { s with cache := readIn s.cache b contents } order := by
  have liveB : (s.cache.buf b).Live := Or.inl (wf.referenced (Or.inl holding))
  refine ⟨wf.nodup, wf.complete, (readIn_links contents).trans wf.links,
    wf.firstCopy.mono (sameBlocks_readIn contents) (fun x live => ?_), fun x => ?_⟩
  · rw [readIn_buf] at live
    split at live
    · next which => exact which.1 ▸ liveB
    · exact live
  · show ((readIn s.cache b contents).buf x).refcnt = s.held x + s.pins x
    rw [readIn_buf]
    split
    · next which => exact which.1 ▸ wf.refcnt b
    · exact wf.refcnt x

theorem inv_modify (wf : Wf s order) (contents : β) :
    Wf { s with cache := modify s.cache b contents } order := by
  refine ⟨wf.nodup, wf.complete, wf.links,
    wf.firstCopy.mono (sameBlocks_modify contents) (fun x live => ?_), fun x => ?_⟩
  · by_cases same : x = b
    · subst same
      simpa [Buf.Live] using live
    · simpa [same] using live
  · by_cases same : x = b
    · subst same
      simpa using wf.refcnt x
    · simpa [same] using wf.refcnt x

theorem inv_bpin (wf : Wf s order) (holding : 0 < s.held b) :
    Wf ⟨bpin s.cache b, s.held, Function.update s.pins b (s.pins b + 1)⟩ order := by
  have liveB : (s.cache.buf b).Live := Or.inl (wf.referenced (Or.inl holding))
  refine ⟨wf.nodup, wf.complete, wf.links,
    wf.firstCopy.mono (sameBlocks_withRefcnt _) (fun x => live_withRefcnt_add liveB), fun x => ?_⟩
  by_cases same : x = b
  · subst same
    simp [bpin, wf.refcnt x]
    omega
  · simp [bpin, same, wf.refcnt x]

theorem inv_bunpin (wf : Wf s order) (pinned : 0 < s.pins b) :
    Wf ⟨bunpin s.cache b, s.held, Function.update s.pins b (s.pins b - 1)⟩ order := by
  refine ⟨wf.nodup, wf.complete, wf.links,
    wf.firstCopy.mono (show SameBlocks s.cache (bunpin s.cache b) from sameBlocks_withRefcnt _)
      (fun x => live_withRefcnt_sub), fun x => ?_⟩
  by_cases same : x = b
  · subst same
    simp [bunpin, wf.refcnt x]
    omega
  · simp [bunpin, same, wf.refcnt x]

/-- `brelse` of a held buffer: when the last reference goes, the buffer moves to
the front of the order. -/
theorem inv_brelse (wf : Wf s order) (holding : 0 < s.held b) :
    Inv (⟨brelse s.cache b, Function.update s.held b (s.held b - 1), s.pins⟩ : Sys n β) := by
  have referenced := wf.referenced (Or.inl holding)
  have same : SameBlocks s.cache (brelse s.cache b) := fun y => by
    rw [brelse_buf]
    exact sameBlocks_withRefcnt _ y
  have live : ∀ x, ((brelse s.cache b).buf x).Live → (s.cache.buf x).Live := fun x => by
    rw [brelse_buf]
    exact live_withRefcnt_sub
  have refcnt : ∀ x, ((brelse s.cache b).buf x).refcnt
      = Function.update s.held b (s.held b - 1) x + s.pins x := fun x => by
    rw [brelse_buf]
    by_cases isB : x = b
    · subst isB
      simp [wf.refcnt x]
      omega
    · simp [isB, wf.refcnt x]
  by_cases last : (s.cache.buf b).refcnt - 1 = 0
  · refine ⟨b :: order.erase b, List.nodup_cons.mpr ⟨wf.nodup.not_mem_erase, wf.nodup.erase b⟩,
      fun x => ?_, ?_, wf.firstCopy.moveFront (Or.inl referenced) same live, refcnt⟩
    · by_cases isB : x = b
      · exact isB ▸ List.mem_cons_self
      · exact List.mem_cons_of_mem b ((List.mem_erase_of_ne isB).mpr (wf.complete x))
    · show (brelse s.cache b).links = _
      rw [brelse_links, if_pos last, wf.links]
      exact pushFront_unlink wf.nodup (wf.complete b)
  · refine ⟨order, wf.nodup, wf.complete, ?_, wf.firstCopy.mono same live, refcnt⟩
    show (brelse s.cache b).links = _
    rw [brelse_links, if_neg last, wf.links]

theorem inv_step {s s' : Sys n β} (inv : Inv s) {call : Call n β}
    (stepped : step s call = some s') : Inv s' := by
  obtain ⟨order, wf⟩ := inv
  cases call with
  | bget dev blockno =>
      simp only [step] at stepped
      split at stepped
      · next c b got =>
          cases stepped
          exact ⟨order, inv_bget wf got⟩
      · cases stepped
  | read b contents =>
      simp only [step] at stepped
      split at stepped
      · next holding =>
          cases stepped
          exact ⟨order, inv_read wf holding contents⟩
      · cases stepped
  | modify b contents =>
      simp only [step] at stepped
      split at stepped
      · cases stepped
        exact ⟨order, inv_modify wf contents⟩
      · cases stepped
  | brelse b =>
      simp only [step] at stepped
      split at stepped
      · next holding =>
          cases stepped
          exact inv_brelse wf holding
      · cases stepped
  | bpin b =>
      simp only [step] at stepped
      split at stepped
      · next holding =>
          cases stepped
          exact ⟨order, inv_bpin wf holding⟩
      · cases stepped
  | bunpin b =>
      simp only [step] at stepped
      split at stepped
      · next pinned =>
          cases stepped
          exact ⟨order, inv_bunpin wf pinned⟩
      · cases stepped

end Preservation

theorem inv_init (n : Nat) (zero : β) : Inv (init n zero) := by
  refine ⟨(List.finRange n).reverse, List.nodup_reverse.mpr (List.nodup_finRange n), by simp,
    ?_, ?_, fun _ => rfl⟩
  · show (List.finRange n).foldl pushFront ⟨fun _ => none, fun _ => none⟩
      = linksOf (List.finRange n).reverse
    rw [← linksOf_nil, foldl_pushFront (List.finRange n) [] (by simpa using List.nodup_finRange n),
      List.append_nil]
  · intro b live
    simp [init, binit, Buf.Live] at live

theorem Reachable.inv {zero : β} {s : Sys n β} (reachable : Reachable n zero s) : Inv s :=
  Machine.Reachable.invariant (inv_init n zero) (fun _ _ _ inv stepped => inv_step inv stepped)
    reachable

/-- **The buffer cache's representation invariant.** In every state of every
interleaving of calls after `binit`:
(a) the `next` and `prev` pointers are those of one circular list through
`bcache.head` that holds each buffer once;
(b) no two buffers that are referenced or valid carry the same block;
(c) `bget` leaves the block, the `valid` flag and the data of every referenced
buffer alone;
(d) each buffer's `refcnt` is its holders plus its pins, so the `brelse` of a
holder or the `bunpin` of a pin never finds it at zero. -/
theorem bcache_invariant {zero : β} {s : Sys n β} (reachable : Reachable n zero s) :
    (∃ order : List (Fin n), order.Nodup ∧ (∀ b, b ∈ order) ∧ s.cache.links = linksOf order) ∧
    (∀ b b', (s.cache.buf b).Live → (s.cache.buf b').Live →
      (s.cache.buf b).dev = (s.cache.buf b').dev →
      (s.cache.buf b).blockno = (s.cache.buf b').blockno → b = b') ∧
    (∀ dev blockno c' r j, bget s.cache dev blockno = .ok (c', r) → 0 < (s.cache.buf j).refcnt →
      (c'.buf j).dev = (s.cache.buf j).dev ∧ (c'.buf j).blockno = (s.cache.buf j).blockno ∧
      (c'.buf j).valid = (s.cache.buf j).valid ∧ (c'.buf j).data = (s.cache.buf j).data) ∧
    (∀ b, (s.cache.buf b).refcnt = s.held b + s.pins b) ∧
    (∀ b, 0 < s.held b ∨ 0 < s.pins b → 0 < (s.cache.buf b).refcnt) := by
  obtain ⟨order, wf⟩ := reachable.inv
  exact ⟨⟨order, wf.nodup, wf.complete, wf.links⟩, fun _ _ => wf.firstCopy.unique,
    fun _ _ _ _ _ got => bget_keeps_referenced got, wf.refcnt, fun _ => wf.referenced⟩

/-- Two processes read block 5 of device 1: the first recycles buffer 0, the
second finds it; the log pins it, and both release it. -/
theorem bcache_invariant_two_holders :
    let s := (Machine.run step (init nBuf 0)
      [.bget 1 5, .read 0 7, .bget 1 5, .bpin 0, .brelse 0, .brelse 0]).getD (init nBuf 0)
    Reachable nBuf 0 s ∧
      ((∃ order : List (Fin nBuf), order.Nodup ∧ (∀ b, b ∈ order) ∧ s.cache.links = linksOf order) ∧
      (∀ b b', (s.cache.buf b).Live → (s.cache.buf b').Live →
        (s.cache.buf b).dev = (s.cache.buf b').dev →
        (s.cache.buf b).blockno = (s.cache.buf b').blockno → b = b') ∧
      (∀ dev blockno c' r j, bget s.cache dev blockno = .ok (c', r) → 0 < (s.cache.buf j).refcnt →
        (c'.buf j).dev = (s.cache.buf j).dev ∧ (c'.buf j).blockno = (s.cache.buf j).blockno ∧
        (c'.buf j).valid = (s.cache.buf j).valid ∧ (c'.buf j).data = (s.cache.buf j).data) ∧
      (∀ b, (s.cache.buf b).refcnt = s.held b + s.pins b) ∧
      (∀ b, 0 < s.held b ∨ 0 < s.pins b → 0 < (s.cache.buf b).refcnt)) := by
  intro s
  have ran : Machine.run step (init nBuf 0)
      [.bget 1 5, .read 0 7, .bget 1 5, .bpin 0, .brelse 0, .brelse 0] = some s := rfl
  have reachable : Reachable nBuf 0 s := Machine.reachable_of_run Relation.ReflTransGen.refl ran
  exact ⟨reachable, bcache_invariant reachable⟩

end Xv6.Bio
