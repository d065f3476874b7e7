import Xv6.Vm.AddressSpace
import Xv6.Vm.Proc

/-!
Contract: what the memory code of `kernel/proc.c` and `kernel/pipe.c`, and the
allocations at boot, do to the pages: one triple per function, over the
address spaces of `Xv6.Vm.AddressSpace`.

A slot of the process table holds its trapframe page and what its table holds
(`Proc.holds`); a slot is kept well (`Proc.Ok`) when, UNUSED, it holds nothing
and has size 0, and otherwise has a table whose entries are an address space of
its size, with its trapframe page. Each triple relates the free list a call ends
with to the one it started from: the pages taken went into the slot it returns
or into the pipe, those freed came out of it.

`procPagetable_spec` and `allocproc_spec` also count pages: a new table takes five
pages at most, and gets them when five are free, so that `userinit` at boot,
with nine pages free, maps `initcode` (`uvmfirst` does not check).

Owns: `Proc.holds`, `Proc.Ok`, `physPages`, and the triples of `procPagetable`,
`procFreepagetable`, `freeproc`, `allocproc`, `userinit`, `growproc`, `fork`,
`pipeclose`, `sysPipe`, `freerange`, `kinit` and `kernelPages`.
-/

namespace Xv6.Vm

open Hoare Pool
open Process (ProcState)

/-! ### What a slot holds -/

/-- The pages a slot holds: its trapframe page and what its table holds. -/
def Proc.holds (p : Proc) : Multiset Nat :=
  opt p.trapframe + (p.pagetable.map PageTable.held).getD 0

/-- A slot as the kernel keeps it between calls: an UNUSED slot holds nothing
and has size 0; any other has a table whose entries are an address space of its
size, and its trapframe page. -/
structure Proc.Ok (trampoline : Nat) (p : Proc) : Prop where
  unused : p.state = .unused → p.pagetable = none ∧ p.trapframe = none ∧ p.sz = 0
  live : p.state ≠ .unused → ∃ pt tf, p.pagetable = some pt ∧ p.trapframe = some tf ∧
    Space pt.entry p.sz tf trampoline

@[simp] theorem Proc.holds_unused : Proc.unused.holds = 0 := by
  simp [Proc.holds, Proc.unused]

theorem Proc.ok_unused (trampoline : Nat) : Proc.unused.Ok trampoline :=
  ⟨fun _ => ⟨rfl, rfl, rfl⟩, fun live => absurd rfl live⟩

/-- A live slot whose table's entries are an address space is kept well. -/
theorem Proc.ok_of_space {trampoline : Nat} {p : Proc} {pt : PageTable} {tf : Nat}
    (live : p.state ≠ .unused) (table : p.pagetable = some pt) (frame : p.trapframe = some tf)
    (space : Space pt.entry p.sz tf trampoline) : p.Ok trampoline :=
  ⟨fun unused => absurd unused live, fun _ => ⟨pt, tf, table, frame, space⟩⟩

/-- An UNUSED slot that is kept well holds nothing. -/
theorem Proc.Ok.holds_eq_zero {trampoline : Nat} {p : Proc} (ok : p.Ok trampoline)
    (unused : p.state = .unused) : p.holds = 0 := by
  obtain ⟨noTable, noFrame, -⟩ := ok.unused unused
  simp [Proc.holds, noTable, noFrame]

/-- A live slot holds its trapframe page and its table's pages. -/
theorem Proc.holds_live {p : Proc} {pt : PageTable} {tf : Nat} (table : p.pagetable = some pt)
    (frame : p.trapframe = some tf) : p.holds = {tf} + pt.held := by
  simp [Proc.holds, table, frame]

/-- Two lists hold as many pages as the same multiset says. -/
theorem length_eq_of_coe {l l' : List Nat} (same : (↑l : Multiset Nat) = ↑l') : l.length = l'.length := by
  simpa using congrArg Multiset.card same

/-! ### A new table -/

section Tables

variable {kend trampoline : Nat}

@[simp] theorem uvmcreate_run_nil (ram : Nat → UInt8) : uvmcreate.run ⟨[], ram⟩ = .ok (none, ⟨[], ram⟩) :=
  rfl

@[simp] theorem uvmcreate_run_cons (root : Nat) (rest : List Nat) (ram : Nat → UInt8) :
    uvmcreate.run ⟨root :: rest, ram⟩ =
      .ok (some (PageTable.empty root), ⟨rest, fill (fill ram root pgSize 5) root pgSize 0⟩) :=
  rfl

@[simp] theorem PageTable.entry_empty (root : Nat) : (PageTable.empty root).entry = fun _ => Pte.zero := by
  funext s
  unfold PageTable.entry
  split <;> rfl

@[simp] theorem PageTable.pages_empty (root : Nat) : (PageTable.empty root).pages = {root} := by
  simp [PageTable.pages, PageTable.dirPages, PageTable.empty]

/-- Entries whose valid ones are at no user slot hold no frame. -/
theorem framesOf_eq_zero_of_user {e : Slot → Pte} (empty : ∀ s, s.IsUser → (e s).v = false) :
    framesOf e = 0 := by
  refine Finset.sum_eq_zero fun s _ => ?_
  by_cases user : s.IsUser
  · exact frameOf_of_not_valid (empty s user)
  · simp [frameOf, user]

/-- The one slot of a one-page range. -/
theorem Slot.eq_ofVa {s : Slot} {va : Nat} (below : va < maxVA) (low : va / pgSize ≤ s.vpn)
    (high : s.vpn < va / pgSize + 1) : s = Slot.ofVa va :=
  Slot.vpn_injective (by rw [Slot.vpn_ofVa below]; omega)

/-- A valid entry after a range is cleared was there before, outside the range. -/
theorem clearRange_of_valid {e : Slot → Pte} {lo hi : Nat} {s : Slot}
    (valid : (clearRange e lo hi s).v = true) : clearRange e lo hi s = e s ∧ ¬(lo ≤ s.vpn ∧ s.vpn < hi) := by
  unfold clearRange at valid ⊢
  split
  · rename_i inside
    rw [if_pos inside] at valid
    cases valid
  · rename_i outside
    exact ⟨rfl, outside⟩

/-- The entries of a new process table: the trampoline and the trapframe page. -/
theorem space_fresh (tf : Nat) :
    Space (Function.update (Function.update (fun _ => Pte.zero) trampolineSlot
      (Pte.leaf trampoline { r := true, x := true })) trapframeSlot (Pte.leaf tf { r := true, w := true }))
      0 tf trampoline := by
  have none : ∀ s : Slot, ¬s.vpn < pgRoundUp 0 / pgSize := by
    rw [pgRoundUp_zero, Nat.zero_div]
    exact fun s => Nat.not_lt_zero _
  refine ⟨Nat.zero_le _, fun s below => absurd below (none s), fun s _ below => absurd below (none s),
    Function.update_self .., ?_, fun s _ tfs trs => ?_⟩
  · rw [Function.update_of_ne trampolineSlot_ne_trapframeSlot, Function.update_self]
  · rw [Function.update_of_ne tfs, Function.update_of_ne trs]

/-- `uvmfree` of a table that maps nothing frees its page-table pages. -/
theorem uvmfree_empty (pt : PageTable) (k : Kmem) (empty : ∀ s, (pt.entry s).v = false) :
    Triple (· = k) (uvmfree kend pt 0) (fun _ k' => (↑k'.freelist : Multiset Nat) = ↑k.freelist + pt.pages)
      Benign := by
  refine (uvmfree_spec pt 0 k (by decide) (fun s => iff_of_false ?_ ?_) fun s valid => ?_).post
    fun _ k' freed => ?_
  · rw [empty s]
    decide
  · rw [pgRoundUp_zero, Nat.zero_div]
    exact Nat.not_lt_zero _
  · rw [empty s] at valid
    cases valid
  · rw [freed, PageTable.held, PageTable.frames, framesOf_eq_zero empty, add_zero]

/-- `proc_pagetable`: a table with the trampoline and the trapframe page `tf` and
no user page, made of pages from the free list (five at most, and it gets them
when five are free); or none, with the free list as it was. -/
theorem procPagetable_spec (tf : Nat) (k : Kmem) :
    Triple (· = k) (procPagetable kend trampoline tf)
      (fun r k' => k.freelist.length ≤ k'.freelist.length + 5 ∧
        (r = none ∧ (↑k'.freelist : Multiset Nat) = ↑k.freelist ∧ k.freelist.length < 5 ∨
          ∃ pt, r = some pt ∧ ↑k'.freelist + pt.held = ↑k.freelist ∧ Space pt.entry 0 tf trampoline))
      Benign := by
  intro s same
  rw [same]
  obtain ⟨freelist, ram⟩ := k
  cases freelist with
  | nil => simp [procPagetable]
  | cons root rest =>
    simp only [procPagetable, StateT.run_bind, uvmcreate_run_cons, ok_bind]
    refine (mappages_page (PageTable.empty root) trampolineVa trampoline _ _ (by decide) _ rfl).bind ?_
    rintro ⟨r, pt1⟩ k1 ⟨-, pages1, taken1, result1⟩
    dsimp only at pages1 taken1 result1 ⊢
    rw [PageTable.pages_empty] at pages1
    rcases result1 with ⟨rfl, -, -, entry1⟩ | ⟨rfl, entry1, short1⟩
    · -- the trampoline is mapped; now the trapframe
      rw [if_neg (by decide), StateT.run_bind]
      refine (mappages_page pt1 trapframeVa tf _ k1 (by decide) k1 rfl).bind ?_
      rintro ⟨r, pt2⟩ k2 ⟨-, pages2, taken2, result2⟩
      dsimp only at pages2 taken2 result2 ⊢
      rw [PageTable.entry_empty] at entry1
      rcases result2 with ⟨rfl, -, -, entry2⟩ | ⟨rfl, entry2, short2⟩
      · have space : Space pt2.entry 0 tf trampoline := by
          rw [entry2, entry1]
          exact space_fresh tf
        rw [if_neg (by decide), StateT.run_pure, holds_pure]
        refine ⟨by simp only [List.length_cons]; omega, .inr ⟨pt2, rfl, ?_, space⟩⟩
        rw [PageTable.held, PageTable.frames, space.frames_zero, add_zero, pages2, pages1, coe_cons]
      · -- no room for the trapframe's path: the trampoline is unmapped, the table freed
        rw [if_pos (by decide), StateT.run_bind]
        refine (uvmunmap_spec pt2 trampolineVa 1 false k2 (by decide) (fun s low high => ?_) k2 rfl).bind ?_
        · rw [Slot.eq_ofVa (by decide) low high, entry2, entry1, Function.update_self]
          exact ⟨rfl, Pte.flags_ne_empty rfl, iff_of_false trampolineSlot_not_isUser (by decide)⟩
        rintro pt3 k3 ⟨-, pages3, entry3, frames3⟩
        have empty : ∀ s, (pt3.entry s).v = false := by
          intro s
          by_contra valid
          obtain ⟨kept, outside⟩ := clearRange_of_valid (Bool.eq_true_of_not_eq_false (entry3 ▸ valid))
          have other : s ≠ Slot.ofVa trampolineVa := fun eq => by
            rw [eq, Slot.vpn_ofVa (by decide)] at outside
            omega
          rw [entry3, kept, entry2, entry1, Function.update_of_ne other] at valid
          exact valid rfl
        have noFrames : pt2.frames = 0 := by
          rw [PageTable.frames, entry2, entry1]
          exact framesOf_eq_zero_of_user fun s user => by
            rw [Function.update_of_ne (show s ≠ Slot.ofVa trampolineVa from Slot.ne_trampolineSlot user)]
            rfl
        rw [StateT.run_bind]
        refine (uvmfree_empty pt3 k3 empty k3 rfl).bind fun _ k4 freed => ?_
        rw [StateT.run_pure, holds_pure]
        have back : (↑k4.freelist : Multiset Nat) = ↑(root :: rest) := by
          rw [freed, ← add_zero (pt3.pages), ← framesOf_eq_zero empty, ← PageTable.frames,
            ← PageTable.held, PageTable.held_eq pages3 frames3, PageTable.held, noFrames, add_zero,
            pages2, pages1, coe_cons]
        refine ⟨by rw [length_eq_of_coe back]; omega, .inl ⟨rfl, back, ?_⟩⟩
        simp only [List.length_cons]
        omega
    · -- no room for the trampoline's path: the table is freed
      rw [PageTable.entry_empty] at entry1
      rw [if_pos (by decide), StateT.run_bind]
      refine (uvmfree_empty pt1 k1 (fun s => by rw [entry1]; rfl) k1 rfl).bind fun _ k2 freed => ?_
      rw [StateT.run_pure, holds_pure]
      have back : (↑k2.freelist : Multiset Nat) = ↑(root :: rest) := by
        rw [freed, pages1, coe_cons]
      refine ⟨by rw [length_eq_of_coe back]; omega, .inl ⟨rfl, back, ?_⟩⟩
      simp only [List.length_cons]
      omega

/-- `proc_freepagetable` of an address space: the trampoline and the trapframe
unmapped without freeing them, then every page the table holds freed. -/
theorem procFreepagetable_spec (pt : PageTable) (sz tf : Nat) (k : Kmem)
    (space : Space pt.entry sz tf trampoline) :
    Triple (· = k) (procFreepagetable kend pt sz)
      (fun _ k' => (↑k'.freelist : Multiset Nat) = ↑k.freelist + pt.held) Benign := by
  intro s same
  rw [same]
  simp only [procFreepagetable, StateT.run_bind]
  refine (uvmunmap_spec pt trampolineVa 1 false k (by decide) (fun s low high => ?_) k rfl).bind
    fun pt1 k1 ⟨_, pages1, entry1, frames1⟩ => ?_
  · rw [Slot.eq_ofVa (by decide) low high, show Slot.ofVa trampolineVa = trampolineSlot from rfl,
      space.trampoline]
    exact ⟨rfl, Pte.flags_ne_empty rfl, iff_of_false trampolineSlot_not_isUser (by decide)⟩
  refine (uvmunmap_spec pt1 trapframeVa 1 false k1 (by decide) (fun s low high => ?_) k1 rfl).bind
    fun pt2 k2 ⟨_, pages2, entry2, frames2⟩ => ?_
  · rw [Slot.eq_ofVa (by decide) low high, entry1, clearRange_of_lt (by decide),
      show Slot.ofVa trapframeVa = trapframeSlot from rfl, space.trapframe]
    exact ⟨rfl, Pte.flags_ne_empty rfl, iff_of_false trapframeSlot_not_isUser (by decide)⟩
  -- what is still valid is a user page, as it was
  have kept : ∀ s, (pt2.entry s).v = true →
      pt2.entry s = pt.entry s ∧ s ≠ trapframeSlot ∧ s ≠ trampolineSlot := by
    intro s valid
    rw [entry2] at valid ⊢
    obtain ⟨same2, outside2⟩ := clearRange_of_valid valid
    rw [same2, entry1] at valid ⊢
    obtain ⟨same1, outside1⟩ := clearRange_of_valid valid
    refine ⟨same1, fun eq => outside2 ?_, fun eq => outside1 ?_⟩
    · subst eq
      decide
    · subst eq
      decide
  have low : ∀ s : Slot, s.vpn < pgRoundUp sz / pgSize → pt2.entry s = pt.entry s := by
    intro s below
    have high := Nat.lt_of_lt_of_le below (pages_le_trapframe space.bound)
    rw [entry2, clearRange_of_lt high, entry1, clearRange_of_lt (high.trans (by decide))]
  refine (uvmfree_spec pt2 sz k2 (pgRoundUp_le_trapframe space.bound) (fun s => ⟨fun valid => ?_,
    fun below => ?_⟩) (fun s valid => ?_) k2 rfl).mono fun _ k3 freed => ?_
  · obtain ⟨same, tfs, trs⟩ := kept s valid
    by_contra high
    rw [same, space.unmapped s (Nat.le_of_not_lt high) tfs trs] at valid
    cases valid
  · rw [low s below]
    exact (space.user s below).1
  · have same := (kept s valid).1
    rw [same] at valid ⊢
    exact Pte.flags_ne_empty (space.readable valid)
  · rw [freed, PageTable.held_eq pages2 frames2, PageTable.held_eq pages1 frames1]

/-- `freeproc`: the trapframe page and every page of an address space freed, the
slot UNUSED. -/
theorem freeproc_spec (p : Proc) (k : Kmem)
    (space : ∀ pt, p.pagetable = some pt → ∃ tf, Space pt.entry p.sz tf trampoline) :
    Triple (· = k) (freeproc kend p)
      (fun q k' => q = Proc.unused ∧ (↑k'.freelist : Multiset Nat) = ↑k.freelist + p.holds) Benign := by
  intro s same
  rw [same]
  obtain ⟨state, sz, pagetable, trapframe, regs, name⟩ := p
  -- the trapframe page, then the table
  cases trapframe with
  | none =>
    cases pagetable with
    | none => simp [freeproc, Proc.holds, Proc.unused]
    | some pt =>
      obtain ⟨tf, tableSpace⟩ := space pt rfl
      simp only [freeproc, StateT.run_bind, StateT.run_pure]
      refine (procFreepagetable_spec pt sz tf k tableSpace k rfl).bind fun _ k' freed => ?_
      rw [holds_pure]
      exact ⟨rfl, by simp [Proc.holds, freed]⟩
  | some tf =>
    simp only [freeproc, StateT.run_bind]
    refine holds_kfree_bind ?_
    cases pagetable with
    | none =>
      rw [StateT.run_pure, holds_pure]
      exact ⟨rfl, by simp [Proc.holds, coe_cons]⟩
    | some pt =>
      obtain ⟨tf', tableSpace⟩ := space pt rfl
      refine (procFreepagetable_spec pt sz tf' _ tableSpace _ rfl).bind fun _ k' freed => ?_
      dsimp only
      rw [holds_pure_apply]
      refine ⟨rfl, ?_⟩
      rw [freed, Proc.holds_live rfl rfl, coe_cons, add_assoc]

/-- `allocproc`'s allocations: the first UNUSED slot, with a trapframe page and
a fresh table (six pages at most, and it gets them when six are free); or none,
with the free list as it was. -/
theorem allocproc_spec (procs : Fin nProc → Proc) (k : Kmem)
    (free : ∀ i, (procs i).state = .unused → (procs i).pagetable = none ∧ (procs i).trapframe = none) :
    Triple (· = k) (allocproc kend trampoline procs)
      (fun r k' => k.freelist.length ≤ k'.freelist.length + 6 ∧
        (r = none ∧ (↑k'.freelist : Multiset Nat) = ↑k.freelist ∧
            ((∃ i, (procs i).state = .unused) → k.freelist.length < 6) ∨
          ∃ i tf pt, r = some (i, tf, pt) ∧ (procs i).state = .unused ∧ Space pt.entry 0 tf trampoline ∧
            ↑k'.freelist + ({tf} + pt.held) = ↑k.freelist)) Benign := by
  intro s same
  rw [same]
  cases found : (List.finRange nProc).find? fun i => decide ((procs i).state = .unused) with
  | none =>
    simp only [allocproc, found]
    rw [StateT.run_pure, holds_pure]
    refine ⟨by omega, .inl ⟨rfl, rfl, fun ⟨i, unused⟩ => ?_⟩⟩
    have skipped := List.find?_eq_none.mp found i (List.mem_finRange i)
    simp [unused] at skipped
  | some i =>
    have picked := List.find?_some found
    have unused : (procs i).state = .unused := of_decide_eq_true picked
    obtain ⟨noTable, noFrame⟩ := free i unused
    obtain ⟨freelist, ram⟩ := k
    cases freelist with
    | nil =>
      -- no trapframe page: the slot is freed again, holding nothing
      simp only [allocproc, found, StateT.run_bind, kalloc_run_nil, ok_bind]
      refine (@freeproc_spec kend trampoline { procs i with state := .used } ⟨[], ram⟩
        (fun pt table => by simp [noTable] at table) _ rfl).bind fun _ k' ⟨_, freed⟩ => ?_
      rw [StateT.run_pure, holds_pure]
      have back : (↑k'.freelist : Multiset Nat) = ↑([] : List Nat) := by
        simpa [Proc.holds, noTable, noFrame] using freed
      exact ⟨by simp, .inl ⟨rfl, back, fun _ => by simp⟩⟩
    | cons tf rest =>
      simp only [allocproc, found, StateT.run_bind, kalloc_run_cons, ok_bind]
      refine (procPagetable_spec tf _ _ rfl).bind ?_
      rintro r k1 ⟨taken, result⟩
      dsimp only at taken result
      rcases result with ⟨rfl, back1, short⟩ | ⟨pt, rfl, held1, space⟩
      · -- no table: the slot is freed again with its trapframe page
        dsimp only
        rw [StateT.run_bind]
        refine (@freeproc_spec kend trampoline { procs i with state := .used, trapframe := some tf }
          k1 (fun pt table => by simp [noTable] at table) k1 rfl).bind fun _ k2 ⟨_, freed⟩ => ?_
        rw [StateT.run_pure, holds_pure]
        have back : (↑k2.freelist : Multiset Nat) = ↑(tf :: rest) := by
          simp only [Proc.holds, noTable, Option.map_none, Option.getD_none, add_zero, opt_some] at freed
          rw [freed, back1, coe_cons]
        refine ⟨by rw [length_eq_of_coe back]; omega, .inl ⟨rfl, back, fun _ => ?_⟩⟩
        simp only [List.length_cons]
        omega
      · dsimp only
        rw [StateT.run_pure, holds_pure]
        refine ⟨by simp only [List.length_cons]; omega, .inr ⟨i, tf, pt, rfl, unused, space, ?_⟩⟩
        rw [coe_cons, add_left_comm, held1, add_comm]

/-- `uvmfirst` on a fresh space with three pages free: `initcode`'s page mapped
for the user at address 0, a space of one page. -/
theorem uvmfirst_spec (pt : PageTable) (tf : Nat) (k : Kmem) (space : Space pt.entry 0 tf trampoline)
    (enough : 3 ≤ k.freelist.length) (pool : Aligned (↑k.freelist + pt.held)) :
    Triple (· = k) (uvmfirst pt initcode)
      (fun pt' k' => ↑k'.freelist + pt'.held = ↑k.freelist + pt.held ∧ Space pt'.entry pgSize tf trampoline)
      Benign := by
  intro s same
  rw [same]
  obtain ⟨freelist, ram⟩ := k
  cases freelist with
  | nil => simp at enough
  | cons mem rest =>
    simp only [uvmfirst]
    rw [if_neg (by decide), StateT.run_bind, kalloc_run_cons, ok_bind]
    dsimp only
    rw [StateT.run_bind, memset_run, ok_bind, StateT.run_bind]
    refine (mappages_page pt 0 mem _ _ (by decide) _ rfl).bind ?_
    rintro ⟨r, pt'⟩ k' ⟨-, pages', -, result⟩
    dsimp only at pages' result ⊢
    rcases result with ⟨-, -, invalid, entry'⟩ | ⟨-, -, short⟩
    · rw [StateT.run_bind, memmoveFrom_run, ok_bind, StateT.run_pure, holds_pure]
      dsimp only
      have user : (Slot.ofVa 0).IsUser := by decide
      have first : (Slot.ofVa 0).vpn = pgRoundUp 0 / pgSize := by decide
      refine ⟨?_, ?_⟩
      · have frames' : pt'.frames = pt.frames + {mem} := by
          rw [PageTable.frames, entry', framesOf_map invalid, frameOf_leaf user (pool mem (by simp))]
          rfl
        calc ↑k'.freelist + pt'.held = (↑k'.freelist + pt'.pages) + pt.frames + {mem} := by
              rw [PageTable.held, frames']
              abel
          _ = ↑(mem :: rest) + pt.held := by
              rw [pages', coe_cons, PageTable.held]
              abel
      · -- the space grows by `initcode`'s page
        have growing : Growing pt.entry { r := true, w := true, x := true, u := true } (pgRoundUp 0 / pgSize)
            (pgRoundUp 0 / pgSize) :=
          ⟨fun _ low high => absurd high (Nat.not_lt.mpr low), fun _ user _ => space.empty user,
            by rw [space.trapframe]; rfl, by rw [space.trampoline]; rfl⟩
        have top : pgRoundUp 0 / pgSize + 1 = max (pgRoundUp 0 / pgSize) ((pgSize + pgSize - 1) / pgSize) := by
          decide
        have grown := growing.map first user mem
        rw [top, ← entry'] at grown
        refine (space.grow ?_ ?_ (Nat.zero_le _) grown fun s outside => ?_).1
        · rfl
        · rfl
        · have other : s ≠ Slot.ofVa 0 := fun eq => by
            rw [eq, ← top, first] at outside
            exact outside ⟨le_rfl, Nat.lt_succ_self _⟩
          rw [entry', Function.update_of_ne other]
    · simp only [List.length_cons] at enough
      omega

/-- A free list with a table is aligned when it is with the table and a
trapframe page: what `allocproc` takes, or a live slot holds. -/
theorem Aligned.of_add_frame {free held pool : Multiset Nat} {tf : Nat} (aligned : Aligned pool)
    (taken : free + ({tf} + held) = pool) : Aligned (free + held) :=
  aligned.of_le (by rw [← taken, add_left_comm]; exact Multiset.le_add_left _ _)

/-- `userinit` with nine aligned pages free: the first process, of size one page,
with `initcode`'s page mapped for the user. -/
theorem userinit_spec (k : Kmem) (enough : 9 ≤ k.freelist.length) (pool : Aligned ↑k.freelist) :
    Triple (· = k) (userinit kend trampoline fun _ => Proc.unused)
      (fun r k' => r.2.state ≠ .unused ∧ r.2.Ok trampoline ∧ ↑k'.freelist + r.2.holds = ↑k.freelist)
      Benign := by
  intro s same
  rw [same]
  simp only [userinit, StateT.run_bind]
  refine (@allocproc_spec kend trampoline _ k (fun _ _ => ⟨rfl, rfl⟩) k rfl).bind ?_
  rintro r k1 ⟨taken, result⟩
  rcases result with ⟨rfl, -, short⟩ | ⟨i, tf, pt, rfl, -, space, held1⟩
  · exact absurd (short ⟨0, rfl⟩) (by omega)
  dsimp only
  refine (uvmfirst_spec pt tf k1 space (by omega) (pool.of_add_frame held1) k1 rfl).bind
    fun pt' k2 ⟨held2, space'⟩ => ?_
  dsimp only
  rw [holds_pure_apply]
  refine ⟨by simp, Proc.ok_of_space (by simp) rfl rfl space', ?_⟩
  rw [Proc.holds_live rfl rfl, add_left_comm, held2, ← held1]
  abel

/-- `growproc` on an address space, over a pool of aligned pages: an address
space of the size it ends with; the pages it took or freed moved between the free
list and the table. -/
theorem growproc_spec (pt : PageTable) (sz tf : Nat) (n : Int32) (k : Kmem)
    (space : Space pt.entry sz tf trampoline) (pool : Aligned (↑k.freelist + pt.held)) :
    Triple (· = k) (growproc kend pt sz n)
      (fun res k' => ↑k'.freelist + res.2.2.held = ↑k.freelist + pt.held ∧
        Space res.2.2.entry res.2.1 tf trampoline) Benign := by
  intro s same
  rw [same]
  unfold growproc
  by_cases grow : 0 < n.toInt
  · rw [if_pos grow, StateT.run_bind]
    refine (uvmalloc_space pt sz _ _ k space pool k rfl).bind ?_
    rintro ⟨sz', pt'⟩ k' ⟨held', result⟩
    dsimp only at held' result ⊢
    rcases result with ⟨zero, entry'⟩ | ⟨nonzero, -, space', -⟩
    · rw [if_pos zero, StateT.run_pure, holds_pure]
      exact ⟨held', by rw [entry']; exact space⟩
    · rw [if_neg nonzero, StateT.run_pure, holds_pure]
      exact ⟨held', space'⟩
  · rw [if_neg grow]
    by_cases shrink : n.toInt < 0
    · rw [if_pos shrink, StateT.run_bind]
      refine (uvmdealloc_space pt sz _ k space k rfl).bind ?_
      rintro ⟨sz', pt'⟩ k' ⟨held', space'⟩
      rw [StateT.run_pure, holds_pure]
      exact ⟨held', space'⟩
    · rw [if_neg shrink, StateT.run_pure, holds_pure]
      exact ⟨rfl, space⟩

/-- `fork`'s memory, from a free list of aligned pages: a new slot, UNUSED before,
with a copy of the parent's address space and a trapframe page of its own,
holding pages from the free list only; or none, with the free list as it was. -/
theorem fork_spec (procs : Fin nProc → Proc) (pp : Proc) (ppt : PageTable) (ptf : Nat) (k : Kmem)
    (slots : ∀ i, (procs i).Ok trampoline) (parent : Space ppt.entry pp.sz ptf trampoline)
    (pool : Aligned ↑k.freelist) :
    Triple (· = k) (fork kend trampoline procs pp ppt)
      (fun r k' => r = none ∧ (↑k'.freelist : Multiset Nat) = ↑k.freelist ∨
        ∃ i q, r = some (i, q) ∧ (procs i).state = .unused ∧ q.state ≠ .unused ∧ q.Ok trampoline ∧
          ↑k'.freelist + q.holds = ↑k.freelist) Benign := by
  intro s same
  rw [same]
  simp only [fork, StateT.run_bind]
  refine (allocproc_spec procs k (fun i unused => ⟨((slots i).unused unused).1, ((slots i).unused unused).2.1⟩)
    k rfl).bind ?_
  rintro r k1 ⟨-, result⟩
  rcases result with ⟨rfl, back, -⟩ | ⟨i, tf, pt, rfl, unused, child, held1⟩
  · rw [StateT.run_pure, holds_pure]
    exact .inl ⟨rfl, back⟩
  dsimp only
  rw [StateT.run_bind]
  refine (uvmcopy_space ppt pt pp.sz ptf k1 parent child (pool.of_add_frame held1) k1 rfl).bind ?_
  rintro ⟨r, pt'⟩ k2 ⟨held2, result⟩
  dsimp only at held2 result ⊢
  -- either way the new table and the trapframe page came from the free list
  have moved : ↑k2.freelist + ({tf} + pt'.held) = ↑k.freelist := by
    rw [add_left_comm, held2, ← held1]
    abel
  rcases result with ⟨rfl, space'⟩ | ⟨rfl, entry'⟩
  · rw [if_neg (by decide), StateT.run_pure, holds_pure]
    refine .inr ⟨i, _, rfl, unused, by simp,
      Proc.ok_of_space (by simp) rfl rfl space', ?_⟩
    rw [Proc.holds_live rfl rfl]
    exact moved
  · -- the copy failed: the slot is freed with its table and trapframe page
    have empty : (procs i).sz = 0 := ((slots i).unused unused).2.2
    rw [if_pos (by decide), StateT.run_bind]
    refine (@freeproc_spec kend trampoline
      { procs i with state := .used, pagetable := some pt', trapframe := some tf } k2
      (fun _ table => ⟨tf, ?_⟩) k2 rfl).bind fun _ k3 ⟨_, freed⟩ => ?_
    · cases table
      dsimp only
      rw [entry', empty]
      exact child
    rw [StateT.run_pure, holds_pure]
    refine .inl ⟨rfl, ?_⟩
    rw [freed, Proc.holds_live rfl rfl]
    exact moved

end Tables

/-! ### Pipes -/

section Pipes

variable {kend : Nat}

/-- `pipeclose` of an end: the pipe's page is freed once both ends are closed,
and otherwise stays with the pipe. -/
theorem pipeclose_spec (pi : PipePage) (writable : Bool) (k : Kmem) :
    Triple (· = k) (pipeclose kend pi writable)
      (fun r k' => ↑k'.freelist + opt (r.map PipePage.page) = ↑k.freelist + {pi.page}) Benign := by
  intro s same
  rw [same]
  unfold pipeclose
  -- closing an end keeps the page
  have page : (if writable then { pi with writeopen := false } else { pi with readopen := false }).page =
      pi.page := by
    split <;> rfl
  generalize (if writable then { pi with writeopen := false } else { pi with readopen := false }) = closed
    at page ⊢
  by_cases both : (!closed.readopen && !closed.writeopen) = true
  · rw [if_pos both, StateT.run_bind]
    refine holds_kfree_bind ?_
    rw [StateT.run_pure, holds_pure, page, Option.map_none, opt_none, add_zero, coe_cons]
  · rw [if_neg both, StateT.run_pure, holds_pure, Option.map_some, opt_some, page]

/-- Closing the reading end of a new pipe keeps its page. -/
theorem pipeclose_reader (page : Nat) (k : Kmem) :
    (pipeclose kend ⟨page, true, true⟩ false).run k = .ok (some ⟨page, false, true⟩, k) :=
  rfl

/-- Closing the writing end once the reading end is closed frees the page. -/
theorem pipeclose_writer (page : Nat) :
    pipeclose kend ⟨page, false, true⟩ true = (kfree kend page >>= fun _ => pure none) :=
  rfl

/-- `sys_pipe`'s memory: a new pipe with a page from the free list, or none with
the free list as it was (the page given back when the descriptors fail). -/
theorem sysPipe_spec (filesOk fdsOk : Bool) (k : Kmem) :
    Triple (· = k) (sysPipe kend filesOk fdsOk)
      (fun r k' => ↑k'.freelist + opt (r.map PipePage.page) = ↑k.freelist) Benign := by
  intro s same
  rw [same]
  unfold sysPipe
  cases filesOk
  · simp
  obtain ⟨freelist⟩ := k
  cases freelist with
  | nil => simp
  | cons page rest =>
    cases fdsOk
    · -- the reading end closed, then the writing end: the page is freed
      simp only [Bool.not_true, Bool.false_eq_true, if_false, Bool.not_false, if_true, StateT.run_bind,
        kalloc_run_cons, ok_bind, pipeclose_reader, pipeclose_writer, bind_assoc]
      refine holds_kfree_bind ?_
      simp
    · simp [coe_cons]

end Pipes

/-! ### Boot -/

/-- The pages `kinit` puts on the free list: every whole page from `PGROUNDUP(end)`
up to `PHYSTOP`. -/
def physPages (kend : Nat) : Multiset Nat :=
  ↑((List.range ((phyStop - pgRoundUp kend) / pgSize)).map fun j => pgRoundUp kend + j * pgSize)

section Boot

variable {kend : Nat}

/-- `freerange`'s loop pushes its `n` pages from `p` on. -/
theorem freerange_spec (n : Nat) : ∀ (p : Nat) (k : Kmem), Triple (· = k) (freerange kend p n)
    (fun _ k' => (↑k'.freelist : Multiset Nat) = ↑k.freelist + ↑((List.range n).map fun j => p + j * pgSize))
    Benign := by
  induction n with
  | zero =>
    intro p k s same
    rw [same]
    simp [freerange]
  | succ n ih =>
    intro p k s same
    rw [same]
    simp only [freerange, StateT.run_bind]
    refine holds_kfree_bind ((ih (p + pgSize) _ _ rfl).mono fun _ k' pushed => ?_)
    have shift : ((fun j => p + j * pgSize) ∘ Nat.succ) = fun j => p + pgSize + j * pgSize := by
      funext j
      simp only [Function.comp, Nat.succ_mul]
      omega
    rw [pushed, List.range_succ_eq_map, List.map_cons, List.map_map, shift, coe_cons, Nat.zero_mul,
      Nat.add_zero, coe_cons]
    abel

/-- `kinit` from an empty free list frees every page of `physPages`. -/
theorem kinit_spec (ram : Nat → UInt8) : Triple (· = ⟨[], ram⟩) (kinit kend) (fun _ k' => ↑k'.freelist = physPages kend) Benign :=
  (freerange_spec _ _ _).post fun _ k' pushed => by
    rw [pushed, physPages, Multiset.coe_nil, zero_add]

end Boot

/-- The kernel's own pages at boot: `n` pages from the free list. -/
theorem kernelPages_spec (n : Nat) : ∀ k : Kmem, Triple (· = k) (kernelPages n)
    (fun r k' => ↑k'.freelist + ↑r = (↑k.freelist : Multiset Nat) ∧ r.length = n) Benign := by
  induction n with
  | zero =>
    intro k s same
    rw [same]
    simp [kernelPages]
  | succ n ih =>
    intro k s same
    rw [same]
    obtain ⟨freelist, ram⟩ := k
    cases freelist with
    | nil => simp [kernelPages, Benign, mismatchPanics]
    | cons pa rest =>
      simp only [kernelPages, StateT.run_bind, kalloc_run_cons, ok_bind]
      refine (ih _ _ rfl).bind ?_
      rintro r k' ⟨taken, length⟩
      rw [StateT.run_pure, holds_pure]
      refine ⟨?_, by rw [List.length_cons, length]⟩
      rw [coe_cons, coe_cons, ← add_assoc, taken]

end Xv6.Vm
