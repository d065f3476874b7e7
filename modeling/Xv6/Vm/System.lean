import Xv6.Vm.ExecSpec
import Xv6.Lib.Machine

/-!
Contract: the kernel's memory over every run of the calls that allocate or free
pages, from boot on, in any interleaving.

`Sound` is what holds between calls: the free list and the pages handed out (the
kernel's own, each slot's trapframe page and table, each pipe's page) are the
pages `kinit` freed, counted as a multiset; each slot is kept well, so that every
live process's table is an address space of its size (`Xv6.Vm.AddressSpace`).
Boot leaves a sound world, and every step of a sound world either panics with a
benign panic or leaves a sound world (`Settles`), each by the triple of its call.

Two results are read off `Sound`: the address-space invariant, with the four
panics that would show a table out of step with its process never raised; and
the ownership of pages, the free list a list of distinct pages of the pool,
apart from every page in use, with no page used twice.

Owns: `World.owned`, `Sound`, `Settles`, the boot and step lemmas,
`reachable_address_space` and `page_ownership`.
-/

namespace Xv6.Vm

open Hoare Pool
open Process (ProcState)

/-! ### The pool -/

theorem physPages_nodup (kend : Nat) : (physPages kend).Nodup := by
  refine Multiset.coe_nodup.mpr ((List.nodup_range).map fun a b same => ?_)
  exact Nat.eq_of_mul_eq_mul_right (by decide : 0 < pgSize) (Nat.add_left_cancel same)

/-- Every page of the pool is a whole page from `PGROUNDUP(end)` up to `PHYSTOP`. -/
theorem mem_physPages {kend pa : Nat} (mem : pa ∈ physPages kend) :
    pa % pgSize = 0 ∧ pgRoundUp kend ≤ pa ∧ pa < phyStop := by
  obtain ⟨j, below, rfl⟩ := List.mem_map.mp (Multiset.mem_coe.mp mem)
  have fits := (Nat.le_div_iff_mul_le (by decide : 0 < pgSize)).mp (List.mem_range.mp below)
  refine ⟨?_, Nat.le_add_right _ _, ?_⟩
  · rw [Nat.add_mul_mod_self_right]
    exact pgRoundUp_mod kend
  · unfold pgSize at fits ⊢
    omega

theorem aligned_physPages (kend : Nat) : Aligned (physPages kend) :=
  fun _ mem => (mem_physPages mem).1

theorem card_physPages (kend : Nat) :
    Multiset.card (physPages kend) = (phyStop - pgRoundUp kend) / pgSize := by
  simp [physPages]

/-! ### What the kernel holds -/

/-- The pages the kernel has handed out: its own, each slot's (its trapframe page
and what its table holds), each pipe's. -/
def World.owned (w : World) : Multiset Nat :=
  ↑w.kernel + ∑ i, (w.procs i).holds + ↑(w.pipes.map PipePage.page)

/-- The kernel's memory between calls: the free list and the pages handed out
are the pages `kinit` freed; each slot is kept well. -/
structure Sound (w : World) : Prop where
  conserved : ↑w.kmem.freelist + w.owned = physPages w.layout.kend
  procs : ∀ i, (w.procs i).Ok w.layout.trampoline

/-- A step's outcome: a sound world, or a benign panic. -/
def Settles (r : Except String World) : Prop :=
  (∀ w', r = .ok w' → Sound w') ∧ ∀ msg, r = .error msg → Benign msg

section Updates

variable {w : World}

/-- Memory code that ends in a sound world or a benign panic settles. -/
theorem World.apply_settles {α : Type} {m : KM α} {put : α → World → World}
    (holds : Holds (fun a k => Sound (put a { w with kmem := k })) Benign (m.run w.kmem)) :
    Settles (w.apply m put) := by
  unfold World.apply
  cases ran : m.run w.kmem with
  | error msg =>
    rw [ran] at holds
    refine ⟨fun _ failed => ?_, fun _ failed => ?_⟩
    · cases failed
    · cases failed
      rwa [holds_error] at holds
  | ok res =>
    rw [ran] at holds
    obtain ⟨a, k⟩ := res
    refine ⟨fun w' done => ?_, fun _ failed => ?_⟩
    · cases done
      rwa [holds_ok] at holds
    · cases failed

/-- A call that moves pages between the free list and one slot keeps the world
sound. -/
theorem Sound.setProc (sound : Sound w) {k : Kmem} {i : Fin nProc} {q : Proc}
    (ok : q.Ok w.layout.trampoline)
    (moved : ↑k.freelist + q.holds = ↑w.kmem.freelist + (w.procs i).holds) :
    Sound ({ w with kmem := k }.setProc i q) := by
  have agree := sum_update_add Proc.holds w.procs i q
  -- the slot's pages moved to or from the free list
  have slots : ↑k.freelist + ∑ j, (Function.update w.procs i q j).holds =
      ↑w.kmem.freelist + ∑ j, (w.procs j).holds := by
    apply add_right_cancel (b := (w.procs i).holds)
    calc ↑k.freelist + ∑ j, (Function.update w.procs i q j).holds + (w.procs i).holds
        = ∑ j, (w.procs j).holds + (↑k.freelist + q.holds) := by
          rw [add_assoc, agree]
          abel
      _ = ↑w.kmem.freelist + ∑ j, (w.procs j).holds + (w.procs i).holds := by
          rw [moved]
          abel
  refine ⟨?_, fun j => ?_⟩
  · calc ↑k.freelist + ({ w with kmem := k }.setProc i q).owned
        = (↑k.freelist + ∑ j, (Function.update w.procs i q j).holds) +
            (↑w.kernel + ↑(w.pipes.map PipePage.page)) := by
          simp only [World.owned, World.setProc]
          abel
      _ = ↑w.kmem.freelist + w.owned := by
          rw [slots, World.owned]
          abel
      _ = physPages w.layout.kend := sound.conserved
  · by_cases same : j = i
    · subst same
      simpa [World.setProc] using ok
    · simpa [World.setProc, Function.update_of_ne same] using sound.procs j

/-- A call that moves pages between the free list and the pipes keeps the world
sound. -/
theorem Sound.setPipes (sound : Sound w) {k : Kmem} {pipes : List PipePage}
    (moved : (↑k.freelist : Multiset Nat) + ↑(pipes.map PipePage.page) =
      ↑w.kmem.freelist + ↑(w.pipes.map PipePage.page)) :
    Sound { w with kmem := k, pipes := pipes } := by
  refine ⟨?_, sound.procs⟩
  calc ↑k.freelist + ({ w with kmem := k, pipes := pipes } : World).owned
      = (↑k.freelist + ↑(pipes.map PipePage.page)) + (↑w.kernel + ∑ i, (w.procs i).holds) := by
        simp only [World.owned]
        abel
    _ = ↑w.kmem.freelist + w.owned := by
        rw [moved, World.owned]
        abel
    _ = physPages w.layout.kend := sound.conserved

/-- A call that hands out nothing keeps the world sound. -/
theorem Sound.setKmem (sound : Sound w) {k : Kmem} (same : (↑k.freelist : Multiset Nat) = ↑w.kmem.freelist) :
    Sound { w with kmem := k } :=
  @Sound.setPipes w sound k w.pipes (by rw [same])

/-- The free list with what one slot holds is part of the pool, so its pages are
aligned. -/
theorem Sound.aligned (sound : Sound w) (p : Fin nProc) :
    Aligned (↑w.kmem.freelist + (w.procs p).holds) := by
  have pool : Aligned (↑w.kmem.freelist + w.owned) := by
    rw [sound.conserved]
    exact aligned_physPages _
  have slot : (w.procs p).holds ≤ w.owned := by
    unfold World.owned
    generalize (↑w.kernel : Multiset Nat) = kernel
    generalize (↑(w.pipes.map PipePage.page) : Multiset Nat) = pipes
    exact (Finset.single_le_sum (fun _ _ => Multiset.zero_le _) (Finset.mem_univ p)).trans
      (le_add_right (le_add_self))
  generalize (↑w.kmem.freelist : Multiset Nat) = free at pool ⊢
  exact pool.of_le (add_le_add_right slot free)

/-- A process that can make a call has an address space of its size. -/
theorem Sound.running (sound : Sound w) {p : Fin nProc} {pt : PageTable} {tf : Nat}
    (running : w.running p = some (pt, tf)) :
    (w.procs p).state ≠ .unused ∧ (w.procs p).pagetable = some pt ∧ (w.procs p).trapframe = some tf ∧
      Space pt.entry (w.procs p).sz tf w.layout.trampoline := by
  unfold World.running at running
  split at running
  · cases running
  rename_i live
  split at running
  · rename_i table frame
    cases running
    obtain ⟨pt', tf', table', frame', space⟩ := (sound.procs p).live fun unused => live (.inl unused)
    rw [table] at table'
    rw [frame] at frame'
    cases table'
    cases frame'
    exact ⟨fun unused => live (.inl unused), table, frame, space⟩
  · cases running

end Updates

/-! ### Each event settles -/

section Steps

variable {w : World} {r : Except String World}

/-- A live process given a new table of a new size (and maybe new registers and
name), its old table's pages and the free list traded for the new one's, keeps
the world sound. -/
theorem Sound.retable (sound : Sound w) {p : Fin nProc} {pt pt' : PageTable} {tf sz : Nat} {k : Kmem}
    {regs : Regs} {name : List UInt8}
    (live : (w.procs p).state ≠ .unused) (table : (w.procs p).pagetable = some pt)
    (frame : (w.procs p).trapframe = some tf) (space : Space pt'.entry sz tf w.layout.trampoline)
    (held : ↑k.freelist + pt'.held = ↑w.kmem.freelist + pt.held) :
    Sound ({ w with kmem := k }.setProc p { w.procs p with sz, pagetable := some pt', regs, name }) := by
  have now : ({ w.procs p with sz, pagetable := some pt', regs, name } : Proc).holds = {tf} + pt'.held :=
    Proc.holds_live rfl frame
  refine sound.setProc (Proc.ok_of_space live rfl frame space) ?_
  rw [now, Proc.holds_live table frame, add_left_comm, held, add_left_comm]

/-- `sbrk`: the running process's table grows or shrinks in place. -/
theorem Sound.step_sbrk (sound : Sound w) {p : Fin nProc} {n : Int32}
    (stepped : step w (.sbrk p n) = some r) : Settles r := by
  simp only [step, Option.map_eq_some_iff] at stepped
  obtain ⟨⟨pt, tf⟩, running, rfl⟩ := stepped
  obtain ⟨live, table, frame, space⟩ := sound.running running
  have pool := (sound.aligned p).of_add_frame (by rw [Proc.holds_live table frame])
  refine World.apply_settles ((growproc_spec pt _ tf n w.kmem space pool w.kmem rfl).mono ?_)
  rintro res k ⟨held, space'⟩
  exact sound.retable live table frame space' held

/-- `fork`: the child's pages come off the free list into an UNUSED slot. -/
theorem Sound.step_fork (sound : Sound w) {p : Fin nProc} (stepped : step w (.fork p) = some r) :
    Settles r := by
  simp only [step, Option.map_eq_some_iff] at stepped
  obtain ⟨⟨pt, tf⟩, running, rfl⟩ := stepped
  obtain ⟨-, -, -, space⟩ := sound.running running
  refine World.apply_settles
    ((fork_spec w.procs _ pt tf w.kmem sound.procs space (sound.aligned p).left w.kmem rfl).mono ?_)
  rintro child k (⟨rfl, same⟩ | ⟨i, q, rfl, unused, -, ok, taken⟩)
  · exact sound.setKmem same
  · refine sound.setProc ok ?_
    rw [(sound.procs i).holds_eq_zero unused, add_zero, taken]

/-- `exec`: the process keeps its table, or has a new one of the new size. -/
theorem Sound.step_exec (sound : Sound w) {p : Fin nProc} {upath uargv : Nat} {file : ExecFile}
    (stepped : step w (.exec p upath uargv file) = some r) : Settles r := by
  simp only [step, Option.map_eq_some_iff] at stepped
  obtain ⟨⟨pt, tf⟩, running, rfl⟩ := stepped
  obtain ⟨live, table, frame, space⟩ := sound.running running
  refine World.apply_settles
    ((sysExec_spec (w.procs p) pt upath uargv file w.kmem space (sound.aligned p).left w.kmem rfl).mono ?_)
  rintro ⟨_, q⟩ k execed
  rcases execed with ⟨same, back⟩ | ⟨pt', sz, regs, name, same, space', held⟩
  · dsimp only at same
    subst same
    exact sound.setProc (sound.procs p) (by rw [back])
  · dsimp only at same
    subst same
    exact sound.retable live table frame space' held

/-- `exit`: a process other than `initproc` becomes a ZOMBIE with all it holds;
`initproc` panics. -/
theorem Sound.step_exit (sound : Sound w) {p : Fin nProc} (stepped : step w (.exit p) = some r) :
    Settles r := by
  simp only [step, Option.map_eq_some_iff] at stepped
  obtain ⟨⟨pt, tf⟩, running, rfl⟩ := stepped
  obtain ⟨-, table, frame, space⟩ := sound.running running
  split
  · exact ⟨fun _ failed => (by cases failed), fun _ failed => by cases failed; decide⟩
  · refine ⟨fun w' done => ?_, fun _ failed => by cases failed⟩
    cases done
    exact @Sound.setProc w sound w.kmem p _ (Proc.ok_of_space (by simp) table frame space) rfl

/-- The parent reaps a ZOMBIE child: its pages go back to the free list. -/
theorem Sound.step_reap (sound : Sound w) {c : Fin nProc} (stepped : step w (.reap c) = some r) :
    Settles r := by
  simp only [step] at stepped
  split at stepped
  · rename_i zombie
    obtain rfl := Option.some.inj stepped
    have space : ∀ pt, (w.procs c).pagetable = some pt →
        ∃ tf, Space pt.entry (w.procs c).sz tf w.layout.trampoline := by
      intro pt table
      obtain ⟨pt', tf, table', -, space⟩ := (sound.procs c).live (by rw [zombie]; decide)
      rw [table] at table'
      cases table'
      exact ⟨tf, space⟩
    refine World.apply_settles ((freeproc_spec (w.procs c) w.kmem space w.kmem rfl).mono ?_)
    rintro q k ⟨rfl, freed⟩
    exact sound.setProc (Proc.ok_unused _) (by rw [freed, Proc.holds_unused, add_zero])
  · cases stepped

/-- `pipe`: a new pipe's page comes off the free list. -/
theorem Sound.step_pipe (sound : Sound w) {filesOk fdsOk : Bool}
    (stepped : step w (.pipe filesOk fdsOk) = some r) : Settles r := by
  simp only [step, Option.some.injEq] at stepped
  subst stepped
  refine World.apply_settles ((sysPipe_spec filesOk fdsOk w.kmem w.kmem rfl).mono ?_)
  rintro (_ | pi) k made
  · exact sound.setKmem (by simpa using made)
  · refine @Sound.setPipes w sound k (w.pipes ++ [pi]) ?_
    simp only [Option.map_some, opt_some] at made
    calc (↑k.freelist : Multiset Nat) + ↑((w.pipes ++ [pi]).map PipePage.page)
        = (↑k.freelist + {pi.page}) + ↑(w.pipes.map PipePage.page) := by
          rw [List.map_append, ← Multiset.coe_add]
          simp only [List.map_cons, List.map_nil, Multiset.coe_singleton]
          abel
      _ = ↑w.kmem.freelist + ↑(w.pipes.map PipePage.page) := by rw [made]

/-- Closing an open end of a pipe: the pipe stays, or goes with its page. -/
theorem Sound.step_pipeClose (sound : Sound w) {i : Nat} {writable : Bool}
    (stepped : step w (.pipeClose i writable) = some r) : Settles r := by
  simp only [step] at stepped
  split at stepped
  · rename_i pi found
    by_cases isOpen : (if writable then pi.writeopen else pi.readopen) = true
    · rw [if_pos isOpen] at stepped
      obtain rfl := Option.some.inj stepped
      obtain ⟨below, rfl⟩ := List.getElem?_eq_some_iff.mp found
      refine World.apply_settles ((pipeclose_spec _ writable w.kmem w.kmem rfl).mono ?_)
      rintro (_ | pi') k closed
      · -- both ends closed: the page is freed and the pipe leaves the list
        refine @Sound.setPipes w sound k (w.pipes.eraseIdx i) ?_
        rw [Option.map_none, opt_none, add_zero] at closed
        rw [closed, add_assoc, add_comm {_}, coe_map_eraseIdx PipePage.page below]
      · -- one end still open: the pipe keeps its page
        refine @Sound.setPipes w sound k (w.pipes.set i pi') ?_
        rw [Option.map_some, opt_some] at closed
        apply add_right_cancel (b := {pi'.page})
        calc (↑k.freelist : Multiset Nat) + ↑((w.pipes.set i pi').map PipePage.page) + {pi'.page}
            = ↑k.freelist + {pi'.page} + ↑((w.pipes.set i pi').map PipePage.page) := by abel
          _ = (↑w.kmem.freelist : Multiset Nat) + (↑((w.pipes.set i pi').map PipePage.page) + {w.pipes[i].page}) := by
              rw [closed]
              abel
          _ = (↑w.kmem.freelist : Multiset Nat) + ↑(w.pipes.map PipePage.page) + {pi'.page} := by
              rw [coe_map_set PipePage.page below, add_assoc]
    · rw [if_neg isOpen] at stepped
      cases stepped
  · cases stepped

end Steps

/-- **Every event settles.** From a sound world, an event leads to a sound world
or to a benign panic. -/
theorem Sound.settles {w : World} (sound : Sound w) {e : Event} {r : Except String World}
    (stepped : step w e = some r) : Settles r := by
  cases e with
  | sbrk p n => exact sound.step_sbrk stepped
  | fork p => exact sound.step_fork stepped
  | exec p upath uargv file => exact sound.step_exec stepped
  | exit p => exact sound.step_exit stepped
  | reap c => exact sound.step_reap stepped
  | pipe filesOk fdsOk => exact sound.step_pipe stepped
  | pipeClose i writable => exact sound.step_pipeClose stepped

theorem Sound.of_next {w w' : World} (sound : Sound w) {e : Event} (moved : next w e = some w') :
    Sound w' := by
  unfold next at moved
  split at moved
  · rename_i w'' stepped
    cases moved
    exact (sound.settles stepped).1 _ rfl
  · cases moved

/-! ### Boot -/

/-- Boot's allocations from an empty free list: the pool `kinit` frees is the
free list, the kernel's pages and the first process's. -/
theorem bootAlloc_spec (layout : Layout) (ram : Nat → UInt8) :
    Triple (· = ⟨[], ram⟩) (bootAlloc layout)
      (fun r k' => r.2.2.state ≠ .unused ∧ r.2.2.Ok layout.trampoline ∧
        ↑k'.freelist + (↑r.1 + r.2.2.holds) = physPages layout.kend) Benign := by
  intro s same
  rw [same]
  simp only [bootAlloc, StateT.run_bind]
  refine (@kinit_spec layout.kend ram ⟨[], ram⟩ rfl).bind fun _ k1 freed => ?_
  refine (kernelPages_spec layout.kpages k1 k1 rfl).bind fun kernel k2 ⟨taken, count⟩ => ?_
  -- the kernel's pages leave at least nine for the first process
  have enough : 9 ≤ k2.freelist.length := by
    have sizes := congrArg Multiset.card (taken.trans freed)
    rw [Multiset.card_add, card_physPages, Multiset.coe_card, Multiset.coe_card, count] at sizes
    have roomy := layout.roomy
    omega
  have pool : Aligned ↑k2.freelist := by
    have pool := aligned_physPages layout.kend
    rw [← freed, ← taken] at pool
    exact pool.left
  refine (userinit_spec k2 enough pool k2 rfl).bind fun ⟨i, p⟩ k3 ⟨live, ok, made⟩ => ?_
  rw [StateT.run_pure, holds_pure]
  refine ⟨live, ok, ?_⟩
  calc ↑k3.freelist + (↑kernel + p.holds) = ↑k3.freelist + p.holds + ↑kernel := by abel
    _ = physPages layout.kend := by rw [made, taken, freed]

/-- Only the first process's slot holds anything at boot. -/
theorem sum_holds_boot (i : Fin nProc) (p : Proc) :
    ∑ j, (Function.update (fun _ => Proc.unused) i p j).holds = p.holds := by
  rw [Finset.sum_eq_single i (fun j _ other => by simp [Function.update_of_ne other]) (by simp)]
  rw [Function.update_self]

/-- **Boot is sound.** -/
theorem boot_sound {layout : Layout} {w : World} (booted : boot layout = .ok w) : Sound w := by
  unfold boot at booted
  have holds := bootAlloc_spec layout (fun _ => 0) ⟨[], fun _ => 0⟩ rfl
  cases ran : (bootAlloc layout).run ⟨[], fun _ => 0⟩ with
  | error msg =>
    rw [ran] at booted
    cases booted
  | ok res =>
    obtain ⟨⟨kernel, i, p⟩, k⟩ := res
    rw [ran] at booted holds
    rw [holds_ok] at holds
    obtain ⟨-, ok, conserved⟩ := holds
    cases booted
    refine ⟨?_, fun j => ?_⟩
    · simp only [World.owned, sum_holds_boot, List.map_nil, Multiset.coe_nil, add_zero]
      exact conserved
    · by_cases same : j = i
      · subst same
        simpa using ok
      · simpa [Function.update_of_ne same] using Proc.ok_unused layout.trampoline

/-- **Every reachable world is sound.** -/
theorem Reachable.sound {w : World} (reachable : Reachable w) : Sound w := by
  obtain ⟨layout, w0, booted, run⟩ := reachable
  exact Machine.Reachable.invariant (boot_sound booted)
    (fun _ _ _ sound moved => sound.of_next moved) run

/-! ### What a reachable world satisfies -/

/-- A machine with forty pages above the kernel, two of them the kernel's own. -/
def fortyPages : Layout := ⟨phyStop - 40 * pgSize, kernBase, 2, by decide⟩

/-- After boot, `sbrk` in the first process, a `fork`, a shrinking `sbrk` in the
child, a `pipe`, the child's `exit` and its reaping. -/
def forkEvents : List Event :=
  [.sbrk 0 4096, .fork 0, .sbrk 1 (-4096), .pipe true true, .exit 1, .reap 1]

/-- `forkEvents` all happen after the boot of `fortyPages`. -/
theorem fortyPages_forkEvents : ∃ w0 w, boot fortyPages = .ok w0 ∧ Machine.run next w0 forkEvents = some w := by
  have ran : ((boot fortyPages).toOption.bind fun w0 => Machine.run next w0 forkEvents).isSome = true := by
    decide +kernel
  cases booted : boot fortyPages with
  | error msg =>
    rw [booted] at ran
    simp [Except.toOption] at ran
  | ok w0 =>
    rw [booted] at ran
    obtain ⟨w, ran⟩ := Option.isSome_iff_exists.mp ran
    exact ⟨w0, w, rfl, ran⟩

/-- **Address spaces.** In every reachable world each process that is not UNUSED
has a table whose entries are an address space of its size, with its trapframe
page and the trampoline; and no event panics with one of the four panics a table
out of step with its process would raise. -/
theorem reachable_address_space {w : World} (reachable : Reachable w) :
    (∀ i, (w.procs i).state ≠ .unused → ∃ pt tf, (w.procs i).pagetable = some pt ∧
        (w.procs i).trapframe = some tf ∧ Space pt.entry (w.procs i).sz tf w.layout.trampoline) ∧
      ∀ e msg, step w e = some (.error msg) → msg ∉ mismatchPanics := by
  have sound := reachable.sound
  refine ⟨fun i live => (sound.procs i).live live, fun e msg stepped => ?_⟩
  exact (sound.settles stepped).2 msg rfl

/-- The world `forkEvents` leads to. -/
theorem address_space_after_fork :
    ∃ w0 w, boot fortyPages = .ok w0 ∧
      Machine.run next w0 forkEvents = some w ∧ Reachable w ∧
      (∀ i, (w.procs i).state ≠ .unused → ∃ pt tf, (w.procs i).pagetable = some pt ∧
        (w.procs i).trapframe = some tf ∧ Space pt.entry (w.procs i).sz tf w.layout.trampoline) ∧
      ∀ e msg, step w e = some (.error msg) → msg ∉ mismatchPanics := by
  obtain ⟨w0, w, booted, ran⟩ := fortyPages_forkEvents
  have reachable : Reachable w := ⟨fortyPages, w0, booted, Machine.reachable_of_run .refl ran⟩
  exact ⟨w0, w, booted, ran, reachable, reachable_address_space reachable⟩

/-- **Ownership of pages.** In every reachable world the free list and the pages
in use are the pages `kinit` freed, each once: the free list holds distinct whole
pages of `[PGROUNDUP(end), PHYSTOP)`, none of them in use, and no page is used
twice. -/
theorem page_ownership {w : World} (reachable : Reachable w) :
    ↑w.kmem.freelist + w.owned = physPages w.layout.kend ∧ w.kmem.freelist.Nodup ∧
      (∀ pa ∈ w.kmem.freelist, pa % pgSize = 0 ∧ pgRoundUp w.layout.kend ≤ pa ∧ pa < phyStop) ∧
      (∀ pa ∈ w.kmem.freelist, pa ∉ w.owned) ∧ w.owned.Nodup := by
  have conserved := reachable.sound.conserved
  have nodup := physPages_nodup w.layout.kend
  refine ⟨conserved, nodup_free conserved nodup, fun pa free => ?_, fun pa free => ?_,
    nodup_owned conserved nodup⟩
  · exact mem_physPages (mem_pool conserved free)
  · exact not_mem_owned conserved nodup free

/-- The world `forkEvents` leads to. -/
theorem page_ownership_after_fork :
    ∃ w0 w, boot fortyPages = .ok w0 ∧
      Machine.run next w0 forkEvents = some w ∧ Reachable w ∧
      ↑w.kmem.freelist + w.owned = physPages w.layout.kend ∧ w.kmem.freelist.Nodup ∧
      (∀ pa ∈ w.kmem.freelist, pa % pgSize = 0 ∧ pgRoundUp w.layout.kend ≤ pa ∧ pa < phyStop) ∧
      (∀ pa ∈ w.kmem.freelist, pa ∉ w.owned) ∧ w.owned.Nodup := by
  obtain ⟨w0, w, booted, ran⟩ := fortyPages_forkEvents
  have reachable : Reachable w := ⟨fortyPages, w0, booted, Machine.reachable_of_run .refl ran⟩
  exact ⟨w0, w, booted, ran, reachable, page_ownership reachable⟩

end Xv6.Vm
