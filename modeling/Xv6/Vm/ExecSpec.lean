import Xv6.Vm.ProcSpec

/-!
Contract: what `exec` and `sys_exec` (`kernel/exec.c`, `kernel/sysfile.c`) do to
the pages.

`exec` builds a new image in a table of its own: the segments, mapped for the
user from address 0 up (`loadSegments_spec`), then the stack above a guard page
whose `PTE_U` it clears. Until it commits, a failure frees the new table and
leaves the process as it was (`execBad_spec`); once it commits, the old table is
freed and the process has the new one. `sys_exec` takes a page for each argument
string and frees them all on every path.

Owns: `Execed` and the triples of `loadseg`, `loadSegments`, `pushArgs`,
`execBad`, `exec`, `fetchArgs` and `sysExec`.
-/

namespace Xv6.Vm

open Hoare Pool

/-- Rounding a size up to its page keeps its address space. -/
theorem Space.roundUp {e : Slot → Pte} {sz tf trampoline : Nat} (space : Space e sz tf trampoline) :
    Space e (pgRoundUp sz) tf trampoline := by
  have small := pgRoundUp_le_trapframe space.bound
  have same : pgRoundUp (pgRoundUp sz) = pgRoundUp sz :=
    pgRoundUp_of_aligned (pgRoundUp_mod sz) (small.trans (by decide))
  refine ⟨small, ?_, ?_, space.trapframe, space.trampoline, ?_⟩
  · rw [same]
    exact space.user
  · rw [same]
    exact space.guard
  · rw [same]
    exact space.unmapped

/-! ### Reading the image -/

/-- `loadseg`'s loop reads the table and writes user memory: it keeps the free
list. -/
theorem loadsegLoop_spec (pt : PageTable) (va : Nat) (data : List UInt8) (offset sz fuel : Nat) :
    ∀ (i : Nat) (k : Kmem), Triple (· = k) (loadsegLoop pt va data offset sz i fuel)
      (fun _ k' => k'.freelist = k.freelist) Benign := by
  induction fuel with
  | zero =>
    intro i k s same
    rw [same, loadsegLoop]
    simp [Benign, mismatchPanics]
  | succ fuel ih =>
    intro i k s same
    rw [same]
    unfold loadsegLoop
    by_cases done : sz ≤ i
    · rw [if_pos done, StateT.run_pure, holds_pure]
    rw [if_neg done, StateT.run_bind]
    refine (walkaddr_spec pt _ k k rfl).bind fun pa k' kept => ?_
    rw [kept]
    by_cases missing : pa = 0
    · rw [if_pos missing]
      simp [Benign, mismatchPanics]
    rw [if_neg missing]
    dsimp only
    rw [StateT.run_bind, memmoveFrom_run, ok_bind]
    -- a last page shorter than the others, or a whole one; then a short read stops
    split
    all_goals
      split
      · rw [StateT.run_pure, holds_pure]
      · exact (ih _ _ _ rfl).mono fun _ _ kept' => kept'

theorem loadseg_spec (pt : PageTable) (va : Nat) (data : List UInt8) (offset sz : Nat) (k : Kmem) :
    Triple (· = k) (loadseg pt va data offset sz) (fun _ k' => k'.freelist = k.freelist) Benign :=
  loadsegLoop_spec pt va data _ _ _ 0 k

/-- `exec`'s pushes of the argument strings read the table and write user
memory: they keep the free list. -/
theorem pushArgs_spec (pt : PageTable) (stackbase : Nat) (argv : List (List UInt8)) :
    ∀ (argc sp : Nat) (k : Kmem), Triple (· = k) (pushArgs pt stackbase argc sp argv)
      (fun _ k' => k'.freelist = k.freelist) Benign := by
  induction argv with
  | nil =>
    intro argc sp k s same
    rw [same, pushArgs, StateT.run_pure, holds_pure]
  | cons arg rest ih =>
    intro argc sp k s same
    rw [same]
    unfold pushArgs
    by_cases full : maxArg ≤ argc
    · rw [if_pos full, StateT.run_pure, holds_pure]
    rw [if_neg full]
    dsimp only
    split
    · rw [StateT.run_pure, holds_pure]
    rw [StateT.run_bind]
    refine (copyout_spec pt _ _ k k rfl).bind fun r k' kept => ?_
    split
    · rw [StateT.run_pure, holds_pure]
      exact kept
    rw [StateT.run_bind]
    refine (ih _ _ k' k' rfl).bind fun res k'' kept' => ?_
    split <;> rw [StateT.run_pure, holds_pure] <;> rw [kept', kept]

/-- An image all for the user, rounded up to its page. -/
theorem UserAll.roundUp {e : Slot → Pte} {sz : Nat} (all : UserAll e sz) (small : sz ≤ trapframeVa) :
    UserAll e (pgRoundUp sz) := by
  have same : pgRoundUp (pgRoundUp sz) = pgRoundUp sz :=
    pgRoundUp_of_aligned (pgRoundUp_mod sz) ((pgRoundUp_le_trapframe small).trans (by decide))
  unfold UserAll
  rw [same]
  exact all

/-! ### Building the image -/

section Exec

variable {kend trampoline tf : Nat}

/-- `exec`'s loop over the program headers, on an image all for the user, over a
pool of aligned pages: an image all for the user of the size it got to; the pages
it took are in the table. -/
theorem loadSegments_spec (data : List UInt8) (phs : List (Option ProgHdr)) :
    ∀ (pt : PageTable) (sz : Nat) (k : Kmem), Space pt.entry sz tf trampoline → UserAll pt.entry sz →
      Aligned (↑k.freelist + pt.held) → Triple (· = k) (loadSegments kend data pt sz phs)
        (fun res k' => ↑k'.freelist + res.2.2.held = ↑k.freelist + pt.held ∧
          Space res.2.2.entry res.2.1 tf trampoline ∧ UserAll res.2.2.entry res.2.1) Benign := by
  induction phs with
  | nil =>
    intro pt sz k space all _ s same
    rw [same, loadSegments, StateT.run_pure, holds_pure]
    exact ⟨rfl, space, all⟩
  | cons ph rest ih =>
    intro pt sz k space all pool s same
    rw [same]
    cases ph with
    | none =>
      rw [loadSegments, StateT.run_pure, holds_pure]
      exact ⟨rfl, space, all⟩
    | some ph =>
      simp only [loadSegments]
      by_cases skip : (!ph.load) = true
      · -- a header that is not loaded is skipped
        rw [if_pos skip]
        exact ih pt sz k space all pool k rfl
      rw [if_neg skip]
      split_ifs with badSize badRange badAlign
      -- a header that fails a check stops the loop where it is
      · rw [StateT.run_pure, holds_pure]
        exact ⟨rfl, space, all⟩
      · rw [StateT.run_pure, holds_pure]
        exact ⟨rfl, space, all⟩
      · rw [StateT.run_pure, holds_pure]
        exact ⟨rfl, space, all⟩
      rw [StateT.run_bind]
      refine (uvmalloc_space pt sz _ _ k space pool k rfl).bind ?_
      rintro ⟨sz1, pt1⟩ k1 ⟨held1, result⟩
      dsimp only at held1 result ⊢
      rcases result with ⟨zero, entry1⟩ | ⟨nonzero, -, space1, grown⟩
      · rw [if_pos zero, StateT.run_pure, holds_pure]
        refine ⟨held1, ?_, ?_⟩
        · rw [entry1]
          exact space
        · rw [entry1]
          exact all
      rw [if_neg nonzero, StateT.run_bind]
      refine (loadseg_spec pt1 _ _ _ _ k1 k1 rfl).bind fun r k2 kept => ?_
      split
      · rw [StateT.run_pure, holds_pure]
        exact ⟨by rw [kept, held1], space1, grown all⟩
      · refine (ih pt1 sz1 k2 space1 (grown all) (by rw [kept, held1]; exact pool) k2 rfl).mono
          fun res k3 ⟨held3, space3, all3⟩ => ?_
        exact ⟨by rw [held3, kept, held1], space3, all3⟩

/-- `exec`'s `bad:` path: the new table freed, the process as it was. -/
theorem execBad_spec (p : Proc) (pt : PageTable) (sz : Nat) (k : Kmem)
    (space : Space pt.entry sz tf trampoline) :
    Triple (· = k) (execBad kend p pt sz)
      (fun res k' => res.2 = p ∧ (↑k'.freelist : Multiset Nat) = ↑k.freelist + pt.held) Benign := by
  intro s same
  rw [same]
  simp only [execBad, StateT.run_bind]
  refine (procFreepagetable_spec pt sz tf k space k rfl).bind fun _ k' freed => ?_
  rw [StateT.run_pure, holds_pure]
  exact ⟨rfl, freed⟩

/-- What `exec` leaves, from a process with table `pt0` and the free list of `k`:
the process and the free list as they were; or the process with a new table, an
address space of its new size, made of pages of the free list and of those the
old table held, and new registers and name. -/
def Execed (tf trampoline : Nat) (p : Proc) (pt0 : PageTable) (k : Kmem) (res : Int × Proc) (k' : Kmem) :
    Prop :=
  res.2 = p ∧ (↑k'.freelist : Multiset Nat) = ↑k.freelist ∨
    ∃ pt sz regs name, res.2 = { p with pagetable := some pt, sz := sz, regs := regs, name := name } ∧
      Space pt.entry sz tf trampoline ∧ ↑k'.freelist + pt.held = ↑k.freelist + pt0.held

/-- `exec` of a process whose table `pt0` is an address space of its size, with
the trapframe page `tf`, from a free list of aligned pages. -/
theorem exec_spec (p : Proc) (pt0 : PageTable) (path : List UInt8) (file : ExecFile) (argv : List (List UInt8))
    (k : Kmem) (space : Space pt0.entry p.sz tf trampoline) (pool : Aligned ↑k.freelist) :
    Triple (· = k) (exec kend trampoline p pt0 tf path file argv) (Execed tf trampoline p pt0 k) Benign := by
  intro s same
  rw [same]
  unfold exec
  -- a file not found or not an ELF file: nothing happens
  cases found : file.found
  · rw [if_pos (by decide), StateT.run_pure, holds_pure]
    exact .inl ⟨rfl, rfl⟩
  cases elfOk : file.elfOk
  · rw [if_neg (by decide), if_pos (by decide), StateT.run_pure, holds_pure]
    exact .inl ⟨rfl, rfl⟩
  rw [if_neg (by decide), if_neg (by decide), StateT.run_bind]
  refine (procPagetable_spec tf k k rfl).bind ?_
  rintro r k1 ⟨-, result⟩
  rcases result with ⟨rfl, back, -⟩ | ⟨pt, rfl, held1, fresh⟩
  · rw [StateT.run_pure, holds_pure]
    exact .inl ⟨rfl, back⟩
  -- from here on a failure frees the new table, which holds what the build took
  have bad : ∀ (pt' : PageTable) (sz' : Nat) (kc : Kmem), Space pt'.entry sz' tf trampoline →
      ↑kc.freelist + pt'.held = ↑k.freelist →
      Holds (Execed tf trampoline p pt0 k) Benign ((execBad kend p pt' sz').run kc) :=
    fun pt' sz' kc space' built => (execBad_spec p pt' sz' kc space' kc rfl).mono
      fun res k' ⟨same', freed⟩ => .inl ⟨same', by rw [freed, built]⟩
  dsimp only
  rw [StateT.run_bind]
  refine (loadSegments_spec file.data file.phs pt 0 k1 fresh
    (fun s below => absurd below (by rw [pgRoundUp_zero]; exact Nat.not_lt_zero _))
    (by rw [held1]; exact pool) k1 rfl).bind ?_
  rintro ⟨ok, sz, pt2⟩ k2 ⟨held2, space2, all2⟩
  dsimp only at held2 space2 all2 ⊢
  have built2 : ↑k2.freelist + pt2.held = ↑k.freelist := held2.trans held1
  cases ok
  · rw [if_pos (by decide)]
    exact bad pt2 sz k2 space2 built2
  rw [if_neg (by decide), StateT.run_bind]
  -- the stack: a guard page, then `USERSTACK` pages, above the segments
  refine (uvmalloc_space pt2 (pgRoundUp sz) _ _ k2 space2.roundUp (by rw [built2]; exact pool) k2 rfl).bind ?_
  rintro ⟨sz1, pt3⟩ k3 ⟨held3, result⟩
  dsimp only at held3 result ⊢
  rcases result with ⟨zero, entry3⟩ | ⟨nonzero, which, space3, grown⟩
  · rw [if_pos zero]
    exact bad pt3 _ k3 (by rw [entry3]; exact space2.roundUp) (held3.trans built2)
  rw [if_neg nonzero, StateT.run_bind]
  have top : sz1 = pgRoundUp sz + (userStack + 1) * pgSize := by
    rcases which with grew | ⟨shrink, -⟩
    · exact grew
    · omega
  have guard : sz1 - (userStack + 1) * pgSize = pgRoundUp sz := by
    rw [top, Nat.add_sub_cancel]
  have rounded : pgRoundUp sz1 = sz1 := by
    refine pgRoundUp_of_aligned ?_ (space3.bound.trans (by decide))
    rw [top, Nat.add_mul_mod_self_right]
    exact pgRoundUp_mod sz
  refine (uvmclear_space pt3 sz1 _ k3 space3 (grown (all2.roundUp space2.bound))
    (by rw [guard]; exact pgRoundUp_mod sz) (by rw [guard, rounded, top]; unfold userStack pgSize; omega)
    k3 rfl).bind fun pt4 k4 ⟨kept4, held4, space4⟩ => ?_
  have built4 : ↑k3.freelist + pt4.held = ↑k.freelist := by
    rw [held4]
    exact held3.trans built2
  rw [kept4, StateT.run_bind]
  -- the stack's bytes are written into pages the new table holds
  refine (pushArgs_spec pt4 _ argv 0 sz1 k3 k3 rfl).bind fun pushed k5 kept5 => ?_
  have built5 : ↑k5.freelist + pt4.held = ↑k.freelist := by rw [kept5, built4]
  cases pushed with
  | none => exact bad pt4 sz1 k5 space4 built5
  | some pushed =>
    dsimp only
    split
    · exact bad pt4 sz1 k5 space4 built5
    rw [StateT.run_bind]
    refine (copyout_spec pt4 _ _ k5 k5 rfl).bind fun r k6 kept6 => ?_
    have built6 : ↑k6.freelist + pt4.held = ↑k.freelist := by rw [kept6, built5]
    split
    · exact bad pt4 sz1 k6 space4 built6
    -- commit: the old table is freed
    rw [StateT.run_bind]
    refine (procFreepagetable_spec pt0 p.sz tf k6 space k6 rfl).bind fun _ k7 freed => ?_
    rw [StateT.run_pure, holds_pure]
    refine .inr ⟨pt4, sz1, _, _, rfl, space4, ?_⟩
    rw [freed, add_right_comm, built6]

/-! ### `sys_exec` -/

/-- `fetchaddr` reads the table and memory: it changes nothing. -/
theorem fetchaddr_spec (pt : PageTable) (sz addr : Nat) (k : Kmem) :
    Triple (· = k) (fetchaddr pt sz addr) (fun _ k' => k' = k) Benign := by
  intro s same
  rw [same]
  unfold fetchaddr
  split
  · rw [StateT.run_pure, holds_pure]
  rw [StateT.run_bind]
  refine (copyin_spec pt addr 8 k k rfl).bind fun ⟨r, bytes⟩ k' kept => ?_
  dsimp only
  split <;> rw [StateT.run_pure, holds_pure] <;> exact kept

/-- `sys_exec`'s loop fetching the arguments: each page it takes is among those
it returns. -/
theorem fetchArgs_spec (pt : PageTable) (sz uargv fuel : Nat) :
    ∀ (i : Nat) (k : Kmem), Triple (· = k) (fetchArgs pt sz uargv i fuel)
      (fun res k' => ↑k'.freelist + ↑res.2 = (↑k.freelist : Multiset Nat)) Benign := by
  induction fuel with
  | zero =>
    intro i k s same
    rw [same, fetchArgs, StateT.run_pure, holds_pure]
    simp
  | succ fuel ih =>
    intro i k s same
    rw [same]
    unfold fetchArgs
    by_cases full : maxArg ≤ i
    · rw [if_pos full, StateT.run_pure, holds_pure]
      simp
    rw [if_neg full, StateT.run_bind]
    refine (fetchaddr_spec pt sz _ k k rfl).bind fun uarg k1 kept1 => ?_
    rw [kept1]
    cases uarg with
    | none =>
      rw [StateT.run_pure, holds_pure]
      simp
    | some uarg =>
      dsimp only
      split
      · rw [StateT.run_pure, holds_pure]
        simp
      obtain ⟨freelist, ram⟩ := k
      cases freelist with
      | nil => simp
      | cons page tail =>
        -- the page for the string, then the string, then the rest
        rw [StateT.run_bind, kalloc_run_cons, ok_bind]
        dsimp only
        rw [StateT.run_bind]
        refine (copyinstr_spec pt uarg pgSize _ _ rfl).bind fun ⟨r, str⟩ k2 kept2 => ?_
        rw [kept2]
        dsimp only
        split
        · rw [StateT.run_pure, holds_pure]
          simp [coe_cons]
        rw [StateT.run_bind]
        refine (ih (i + 1) _ _ rfl).bind fun ⟨argv, pages⟩ k3 taken => ?_
        rw [StateT.run_pure, holds_pure]
        dsimp only at taken ⊢
        rw [coe_cons, coe_cons, ← add_assoc, taken]

/-- Freeing pages one by one puts them all on the free list. -/
theorem kfree_forM_spec (pages : List Nat) (k : Kmem) : Triple (· = k) (pages.forM (kfree kend))
    (fun _ k' => (↑k'.freelist : Multiset Nat) = ↑k.freelist + ↑pages) Benign := by
  -- the pages still to free and the free list hold what the end will
  let I (rest : List Nat) (k' : Kmem) : Prop :=
    ↑k'.freelist + ↑rest = (↑k.freelist : Multiset Nat) + ↑pages
  refine (Triple.forM I fun pa rest => ?_).weaken (fun k' same => ?_) (fun _ k' done => ?_) fun _ => id
  · intro k' before
    refine holds_kfree ?_
    simp only [I] at before ⊢
    rw [← before, coe_cons, coe_cons]
    abel
  · rw [same]
  · simpa [I] using done

/-- Pages given back after `exec` come out of what it was given. -/
theorem Execed.giveBack {p : Proc} {pt0 : PageTable} {k1 k2 k3 k : Kmem} {res : Int × Proc} {pages : List Nat}
    (execed : Execed tf trampoline p pt0 k1 res k2) (taken : ↑k1.freelist + ↑pages = (↑k.freelist : Multiset Nat))
    (freed : (↑k3.freelist : Multiset Nat) = ↑k2.freelist + ↑pages) : Execed tf trampoline p pt0 k res k3 := by
  rcases execed with ⟨same, back⟩ | ⟨pt, sz, regs, name, same, space, held⟩
  · exact .inl ⟨same, by rw [freed, back, taken]⟩
  · refine .inr ⟨pt, sz, regs, name, same, space, ?_⟩
    rw [freed, add_right_comm, held, add_right_comm, taken]

/-- `sys_exec` from a free list of aligned pages: `exec` with the argument
strings in pages of their own, each freed again on every path. -/
theorem sysExec_spec (p : Proc) (pt0 : PageTable) (upath uargv : Nat) (file : ExecFile) (k : Kmem)
    (space : Space pt0.entry p.sz tf trampoline) (pool : Aligned ↑k.freelist) :
    Triple (· = k) (sysExec kend trampoline p pt0 tf upath uargv file) (Execed tf trampoline p pt0 k) Benign := by
  intro s same
  rw [same]
  unfold sysExec
  rw [StateT.run_bind]
  refine (copyinstr_spec pt0 upath maxPath k k rfl).bind fun ⟨r, path⟩ k0 kept0 => ?_
  rw [kept0]
  dsimp only
  split
  · rw [StateT.run_pure, holds_pure]
    exact .inl ⟨rfl, rfl⟩
  rw [StateT.run_bind]
  refine (fetchArgs_spec pt0 p.sz uargv _ 0 k k rfl).bind ?_
  rintro ⟨argv, pages⟩ k1 taken
  dsimp only at taken ⊢
  -- whatever comes of the arguments, their pages are freed after it
  cases argv with
  | none =>
    rw [pure_bind, StateT.run_bind]
    refine (kfree_forM_spec pages k1 k1 rfl).bind fun _ k2 freed => ?_
    rw [StateT.run_pure, holds_pure]
    exact Execed.giveBack (.inl ⟨rfl, rfl⟩) taken freed
  | some argv =>
    rw [StateT.run_bind]
    have pool1 : Aligned ↑k1.freelist := by
      rw [← taken] at pool
      exact pool.left
    refine (exec_spec p pt0 _ file argv k1 space pool1 k1 rfl).bind fun res k2 execed => ?_
    rw [StateT.run_bind]
    refine (kfree_forM_spec pages k2 k2 rfl).bind fun _ k3 freed => ?_
    rw [StateT.run_pure, holds_pure]
    exact execed.giveBack taken freed

end Exec

end Xv6.Vm
