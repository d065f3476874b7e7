import Xv6.Vm.ProcSpec

/-!
Contract: what `growproc` and `uvmalloc` do at the top of the user address space.

Neither compares the size it aims at with `TRAPFRAME`. Once a process's size
rounds up to `TRAPFRAME`, a request past it makes `uvmalloc` take a page and map it
at `TRAPFRAME`, where `walk` finds the trapframe's entry, so `mappages` panics
(`growproc_remap`). Only `kalloc` running out stops the loop before it gets there.

The table `topTable` is the address space such a process has once every `kalloc` of
its earlier `sbrk` calls succeeded: every user page mapped, up to `TRAPFRAME`.

Owns: `walk_present`, `mappages_remap`, `uvmalloc_remap`, `growproc_remap`,
`topTable` and `space_topTable`.
-/

namespace Xv6.Vm

/-- `walk` on a slot whose path is present finds it and changes nothing, whether or
not it may allocate. -/
theorem walk_present (pt : PageTable) {va : Nat} (alloc : Bool) (k : Kmem) (below : va < maxVA)
    (present : pt.Present (Slot.ofVa va)) :
    (walk pt va alloc).run k = .ok ((pt, some (Slot.ofVa va)), k) := by
  obtain ⟨dir, mid⟩ := present
  obtain ⟨d, hasDir⟩ := Option.isSome_iff_exists.1 dir
  obtain ⟨m, hasMid⟩ := Option.isSome_iff_exists.1 mid
  simp only [Slot.ofVa] at hasDir hasMid
  simp [walk, walkDir, walkMid, hasDir, hasMid, Nat.not_le.2 below]
  rfl

/-- `mappages` of a page over a valid entry panics. -/
theorem mappages_remap (pt : PageTable) {va : Nat} (pa : Nat) (perm : Perm) (k : Kmem) (below : va < maxVA)
    (aligned : va % pgSize = 0) (valid : (pt.entry (Slot.ofVa va)).v = true) :
    (mappages pt va pgSize pa perm).run k = .error "mappages: remap" := by
  have present := PageTable.present_of_valid valid
  have leaf : (pt.leaf (Slot.ofVa va)).v = true := by
    simpa [PageTable.entry, present] using valid
  have whole : pgSize % pgSize = 0 := Nat.mod_self pgSize
  have nonzero : pgSize ≠ 0 := by decide
  have one : pgSize / pgSize = 1 := Nat.div_self (by decide)
  simp [mappages, aligned, whole, nonzero, one, mappagesLoop, walk_present pt true k below present, leaf]

variable (kend : Nat)

/-- `uvmalloc` from a size that rounds up to `TRAPFRAME` to one past it, with a page
free: its first new page is mapped over the trapframe's entry. -/
theorem uvmalloc_remap (pt : PageTable) {oldsz newsz : Nat} (xperm : Perm) {k : Kmem}
    (grows : oldsz ≤ newsz) (top : pgRoundUp oldsz = trapframeVa) (past : trapframeVa < newsz)
    (trapframe : (pt.entry trapframeSlot).v = true) (free : k.freelist ≠ []) :
    (uvmalloc kend pt oldsz newsz xperm).run k = .error "mappages: remap" := by
  obtain ⟨freelist, ram⟩ := k
  obtain ⟨pa, rest, rfl⟩ := List.exists_cons_of_ne_nil free
  -- one page is left to map before `newsz`, the one at `TRAPFRAME`
  obtain ⟨fuel, pages⟩ : ∃ fuel, (newsz - trapframeVa + pgSize - 1) / pgSize = fuel + 1 :=
    ⟨(newsz - trapframeVa + pgSize - 1) / pgSize - 1, by simp only [pgSize]; omega⟩
  have remap := mappages_remap pt pa { xperm with r := true, u := true } ⟨rest, fill (fill ram pa pgSize 5) pa pgSize 0⟩
    (by decide) (by decide) trapframe
  simp only [uvmalloc, Nat.not_lt.2 grows, if_false, top, pages, uvmallocLoop, Nat.not_le.2 past]
  simp [remap]

/-- A process whose size rounds up to `TRAPFRAME` and asks for more: `growproc`
panics, with a page free. -/
theorem growproc_remap (pt : PageTable) {sz tf trampoline : Nat} {n : Int32} {k : Kmem}
    (space : Space pt.entry sz tf trampoline) (top : pgRoundUp sz = trapframeVa)
    (past : (trapframeVa : Int) < sz + n.toInt) (free : k.freelist ≠ []) :
    (growproc kend pt sz n).run k = .error "mappages: remap" := by
  have bound := space.bound
  have small := Int32.toInt_lt n
  have pos : 0 < n.toInt := by omega
  have trapframe : (pt.entry trapframeSlot).v = true := by
    rw [space.trapframe]
    rfl
  -- the `uint64` sum does not wrap
  have target : trapframeVa < (((sz : Int) + n.toInt) % 2 ^ 64).toNat := by
    simp only [trapframeVa, trampolineVa, maxVA, pgSize] at bound past ⊢
    omega
  have grows : sz ≤ (((sz : Int) + n.toInt) % 2 ^ 64).toNat := by
    simp only [trapframeVa, trampolineVa, maxVA, pgSize] at bound past ⊢
    omega
  simp only [growproc, pos, if_true, StateT.run_bind, uvmalloc_remap kend pt _ grows top target trapframe free]
  rfl

/-- Every user page mapped for the user at its own address, over the trapframe and
the trampoline, with every level-1 and level-0 page present. -/
def topTable (tf trampoline : Nat) : PageTable :=
  ⟨0, fun _ => some 0, fun _ _ => some 0, fun s =>
    if s = trapframeSlot then Pte.leaf tf { r := true, w := true }
    else if s = trampolineSlot then Pte.leaf trampoline { r := true, x := true }
    else if s.IsUser then Pte.leaf s.va { r := true, w := true, u := true }
    else Pte.zero⟩

theorem topTable_entry (tf trampoline : Nat) (s : Slot) :
    (topTable tf trampoline).entry s = (topTable tf trampoline).leaf s := by
  simp [PageTable.entry, PageTable.Present, topTable]

/-- `topTable` is an address space of size `TRAPFRAME`, with no guard page. -/
theorem space_topTable (tf trampoline : Nat) :
    Space (topTable tf trampoline).entry trapframeVa tf trampoline := by
  have pages : pgRoundUp trapframeVa / pgSize = trapframeVa / pgSize := by
    rw [pgRoundUp_of_aligned trapframeVa_mod (by decide)]
  have user : ∀ s : Slot, s.IsUser → (topTable tf trampoline).entry s = Pte.leaf s.va { r := true, w := true, u := true } :=
    fun s isUser => by
      rw [topTable_entry]
      simp [topTable, Slot.ne_trapframeSlot isUser, Slot.ne_trampolineSlot isUser, isUser]
  refine ⟨le_rfl, fun s below => ?_, fun s t below _ guard _ => ?_, ?_, ?_, fun s above tfs trs => ?_⟩
  · rw [pages] at below
    simp [user s below, Pte.leaf]
  · rw [pages] at below
    simp [user s below, Pte.leaf] at guard
  · rw [topTable_entry]
    simp [topTable]
  · rw [topTable_entry]
    simp [topTable, trampolineSlot_ne_trapframeSlot]
  · -- from `TRAPFRAME`'s page on, only the trapframe and the trampoline are mapped
    rw [pages] at above
    have notUser : ¬s.IsUser := Nat.not_lt.2 above
    rw [topTable_entry]
    simp [topTable, tfs, trs, notUser]

theorem growproc_past_trapframe (kend tf trampoline pa : Nat) (ram : Nat → UInt8) :
    Space (topTable tf trampoline).entry trapframeVa tf trampoline ∧
      (growproc kend (topTable tf trampoline) trapframeVa 1).run ⟨[pa], ram⟩ = .error "mappages: remap" :=
  ⟨space_topTable tf trampoline,
    growproc_remap kend _ (space_topTable tf trampoline)
      (pgRoundUp_of_aligned trapframeVa_mod (by decide)) (by decide) (List.cons_ne_nil pa [])⟩

end Xv6.Vm
