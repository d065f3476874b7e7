import Xv6.Vm.Spec

/-!
Contract: a process's address space as `userinit`, `growproc`, `fork` and
`exec` leave it, and the functions of `kernel/vm.c` that change it.

`Space e sz tf trampoline` says what the entries `e` of a process's table map when
its size is `sz`: every page below `PGROUNDUP(sz)` readable and, all but one at
most (the guard page `exec` clears below the stack), for the user; `TRAPFRAME` to
the trapframe page `tf` and `TRAMPOLINE` to `trampoline`, neither for the user;
nothing else. A size never passes `TRAPFRAME`, so `PGROUNDUP` does not wrap.

Each change of entries the calls make keeps a space: pages mapped from the size's
last page on (`Space.grow`), the pages past a smaller size unmapped
(`Space.shrink`), a parent's pages copied into a fresh table (`Space.copy`), the
guard page's `PTE_U` cleared (`Space.clearGuard`). The triples over `uvmalloc`,
`uvmdealloc`, `uvmcopy` and `uvmclear` put those together with the triples of
`Xv6.Vm.Spec`: a space in, a space out, and the pages the table and the free list
hold together kept.

Owns: `Space`, `UserAll`, the lemmas above, and `uvmalloc_space`,
`uvmdealloc_space`, `uvmcopy_space`, `uvmclear_space`.
-/

namespace Xv6.Vm

open Hoare Pool

/-! ### Sizes below `TRAPFRAME` -/

theorem trapframeVa_mod : trapframeVa % pgSize = 0 := by
  decide

/-- Below `TRAPFRAME`, `PGROUNDUP` counts the pages a size spans. -/
theorem pgRoundUp_div {sz : Nat} (small : sz ≤ trapframeVa) :
    pgRoundUp sz / pgSize = (sz + pgSize - 1) / pgSize := by
  rw [pgRoundUp_eq (by simp only [trapframeVa, trampolineVa, maxVA, pgSize] at small ⊢; omega)]
  exact Nat.mul_div_cancel _ (by decide)

/-- A size below `TRAPFRAME` spans only pages below it. -/
theorem pages_le_trapframe {sz : Nat} (small : sz ≤ trapframeVa) :
    pgRoundUp sz / pgSize ≤ trapframeVa / pgSize := by
  rw [pgRoundUp_div small]
  unfold trapframeVa trampolineVa maxVA pgSize at *
  omega

theorem pgRoundUp_le_trapframe {sz : Nat} (small : sz ≤ trapframeVa) : pgRoundUp sz ≤ trapframeVa := by
  rw [pgRoundUp_eq (by simp only [trapframeVa, trampolineVa, maxVA, pgSize] at small ⊢; omega)]
  unfold trapframeVa trampolineVa maxVA pgSize at *
  omega

theorem pages_mono {a b : Nat} (le : a ≤ b) (small : b ≤ trapframeVa) :
    pgRoundUp a / pgSize ≤ pgRoundUp b / pgSize := by
  rw [pgRoundUp_div (le.trans small), pgRoundUp_div small]
  exact Nat.div_le_div_right (by omega)

theorem trapframeSlot_not_isUser : ¬trapframeSlot.IsUser := by
  simp [Slot.IsUser, trapframeSlot_vpn]

theorem trampolineSlot_not_isUser : ¬trampolineSlot.IsUser := by
  simp [Slot.IsUser, trampolineSlot_vpn]

theorem trampolineSlot_ne_trapframeSlot : trampolineSlot ≠ trapframeSlot := by
  decide

theorem Slot.ne_trapframeSlot {s : Slot} (user : s.IsUser) : s ≠ trapframeSlot :=
  fun same => trapframeSlot_not_isUser (same ▸ user)

theorem Slot.ne_trampolineSlot {s : Slot} (user : s.IsUser) : s ≠ trampolineSlot :=
  fun same => trampolineSlot_not_isUser (same ▸ user)

/-- A readable entry has flags: `uvmunmap` and `freewalk` take it for a leaf. -/
theorem Pte.flags_ne_empty {pte : Pte} (readable : pte.r = true) : pte.flags ≠ {} := by
  intro empty
  have cleared : pte.r = false := congrArg Perm.r empty
  rw [readable] at cleared
  cases cleared

theorem clearRange_of_lt {e : Slot → Pte} {lo hi : Nat} {s : Slot} (below : s.vpn < lo) :
    clearRange e lo hi s = e s :=
  if_neg fun inside => Nat.not_le.mpr below inside.1

theorem clearRange_of_ge {e : Slot → Pte} {lo hi : Nat} {s : Slot} (high : hi ≤ s.vpn) :
    clearRange e lo hi s = e s :=
  if_neg fun inside => Nat.not_lt.mpr high inside.2

/-- The pages mapped while growing are user pages: they stop at `TRAPFRAME`. -/
theorem Growing.le_trapframe {e : Slot → Pte} {perm : Perm} {lo hi : Nat}
    (growing : Growing e perm lo hi) (low : lo ≤ trapframeVa / pgSize) : hi ≤ trapframeVa / pgSize := by
  by_contra high
  have inside : trapframeSlot.vpn < hi := by
    rw [trapframeSlot_vpn]
    omega
  exact trapframeSlot_not_isUser
    (growing.mapped trapframeSlot (by rw [trapframeSlot_vpn]; exact low) inside).2.2

/-- Clearing `PTE_U` moves no frame. -/
theorem framesOf_clear_u (e : Slot → Pte) (s : Slot) :
    framesOf (Function.update e s { e s with u := false }) = framesOf e := by
  have moved := framesOf_update e s { e s with u := false }
  have same : frameOf s { e s with u := false } = frameOf s (e s) := by
    simp [frameOf]
  rw [same] at moved
  exact add_right_cancel moved

/-! ### The address space -/

/-- The address space of a process of size `sz` in the entries `e` of its table:
every page below `PGROUNDUP(sz)` mapped readable and, all but one at most (the
guard page `exec` clears below the stack), for the user; the trapframe page `tf`
at `TRAPFRAME` and the trampoline at `TRAMPOLINE`, neither for the user; nothing
else. -/
structure Space (e : Slot → Pte) (sz tf trampoline : Nat) : Prop where
  bound : sz ≤ trapframeVa
  user : ∀ s, s.vpn < pgRoundUp sz / pgSize → (e s).v = true ∧ (e s).r = true
  guard : ∀ s t, s.vpn < pgRoundUp sz / pgSize → t.vpn < pgRoundUp sz / pgSize →
    (e s).u = false → (e t).u = false → s = t
  trapframe : e trapframeSlot = Pte.leaf tf { r := true, w := true }
  trampoline : e trampolineSlot = Pte.leaf trampoline { r := true, x := true }
  unmapped : ∀ s, pgRoundUp sz / pgSize ≤ s.vpn → s ≠ trapframeSlot → s ≠ trampolineSlot →
    e s = Pte.zero

/-- Every page below `PGROUNDUP(sz)` is for the user: an image as `exec` builds
it, before it clears the guard page. -/
def UserAll (e : Slot → Pte) (sz : Nat) : Prop :=
  ∀ s, s.vpn < pgRoundUp sz / pgSize → (e s).u = true

section Space

variable {e e' : Slot → Pte} {sz tf trampoline : Nat}

theorem Space.isUser (space : Space e sz tf trampoline) {s : Slot}
    (below : s.vpn < pgRoundUp sz / pgSize) : s.IsUser :=
  Nat.lt_of_lt_of_le below (pages_le_trapframe space.bound)

/-- The trapframe and the trampoline lie above every page of the size. -/
theorem Space.trapframe_above (space : Space e sz tf trampoline) :
    pgRoundUp sz / pgSize ≤ trapframeSlot.vpn := by
  rw [trapframeSlot_vpn]
  exact pages_le_trapframe space.bound

theorem Space.trampoline_above (space : Space e sz tf trampoline) :
    pgRoundUp sz / pgSize ≤ trampolineSlot.vpn := by
  rw [trampolineSlot_vpn]
  exact Nat.le_succ_of_le (pages_le_trapframe space.bound)

/-- Every valid entry is a leaf: it has `PTE_R`. -/
theorem Space.readable (space : Space e sz tf trampoline) {s : Slot} (valid : (e s).v = true) :
    (e s).r = true := by
  by_cases below : s.vpn < pgRoundUp sz / pgSize
  · exact (space.user s below).2
  by_cases isTrapframe : s = trapframeSlot
  · rw [isTrapframe, space.trapframe]
    rfl
  by_cases isTrampoline : s = trampolineSlot
  · rw [isTrampoline, space.trampoline]
    rfl
  rw [space.unmapped s (Nat.le_of_not_lt below) isTrapframe isTrampoline] at valid
  cases valid

/-- A space of size 0 maps no user page. -/
theorem Space.empty (space : Space e 0 tf trampoline) {s : Slot} (user : s.IsUser) : e s = Pte.zero :=
  space.unmapped s (by rw [pgRoundUp_zero, Nat.zero_div]; exact Nat.zero_le _)
    (Slot.ne_trapframeSlot user) (Slot.ne_trampolineSlot user)

/-- ... and holds no frame. -/
theorem Space.frames_zero (space : Space e 0 tf trampoline) : framesOf e = 0 := by
  refine Finset.sum_eq_zero fun s _ => ?_
  by_cases user : s.IsUser
  · rw [space.empty user, frameOf_zero]
  · simp [frameOf, user]

/-- **Growing.** Pages mapped for the user from the old size's last page up to a
larger size keep the address space, and leave an image all for the user so. -/
theorem Space.grow (space : Space e sz tf trampoline) {perm : Perm} (readable : perm.r = true)
    (forUser : perm.u = true) {newsz : Nat} (le : sz ≤ newsz)
    (growing : Growing e' perm (pgRoundUp sz / pgSize)
      (max (pgRoundUp sz / pgSize) ((newsz + pgSize - 1) / pgSize)))
    (kept : ∀ s, ¬(pgRoundUp sz / pgSize ≤ s.vpn ∧
      s.vpn < max (pgRoundUp sz / pgSize) ((newsz + pgSize - 1) / pgSize)) → e' s = e s) :
    Space e' newsz tf trampoline ∧ (UserAll e sz → UserAll e' newsz) := by
  have top := growing.le_trapframe (pages_le_trapframe space.bound)
  have small : newsz ≤ trapframeVa := by
    have spans := (le_max_right _ _).trans top
    unfold trapframeVa trampolineVa maxVA pgSize at spans ⊢
    omega
  have pages : max (pgRoundUp sz / pgSize) ((newsz + pgSize - 1) / pgSize) = pgRoundUp newsz / pgSize := by
    rw [pgRoundUp_div small, max_eq_right]
    rw [pgRoundUp_div space.bound]
    exact Nat.div_le_div_right (by omega)
  rw [pages] at growing kept top
  have low := pages_mono le small
  -- an entry of the new range is the user's; any other is as it was
  have old : ∀ s, (e' s).u = false → s.vpn < pgRoundUp newsz / pgSize →
      s.vpn < pgRoundUp sz / pgSize ∧ e' s = e s := by
    intro s cleared below
    by_cases before : s.vpn < pgRoundUp sz / pgSize
    · exact ⟨before, kept s fun inside => Nat.not_le.mpr before inside.1⟩
    · obtain ⟨-, flags, -⟩ := growing.mapped s (Nat.le_of_not_lt before) below
      have mapped : (e' s).u = true := (congrArg Perm.u flags).trans forUser
      rw [mapped] at cleared
      cases cleared
  refine ⟨⟨small, fun s below => ?_, fun s t bs bt us ut => ?_, ?_, ?_, fun s high tfs trs => ?_⟩,
    fun all s below => ?_⟩
  · by_cases before : s.vpn < pgRoundUp sz / pgSize
    · rw [kept s fun inside => Nat.not_le.mpr before inside.1]
      exact space.user s before
    · obtain ⟨valid, flags, -⟩ := growing.mapped s (Nat.le_of_not_lt before) below
      exact ⟨valid, (congrArg Perm.r flags).trans readable⟩
  · obtain ⟨bs', same⟩ := old s us bs
    obtain ⟨bt', same'⟩ := old t ut bt
    rw [same] at us
    rw [same'] at ut
    exact space.guard s t bs' bt' us ut
  · rw [kept _ fun inside => Nat.not_lt.mpr (by rw [trapframeSlot_vpn]; exact top) inside.2]
    exact space.trapframe
  · rw [kept _ fun inside => Nat.not_lt.mpr (by rw [trampolineSlot_vpn]; omega) inside.2]
    exact space.trampoline
  · rw [kept s fun inside => Nat.not_lt.mpr high inside.2]
    exact space.unmapped s (low.trans high) tfs trs
  · by_contra cleared
    obtain ⟨before, same⟩ := old s (Bool.eq_false_iff.mpr cleared) below
    exact cleared (same ▸ all s before)

/-- **Shrinking.** Unmapping the pages from a smaller size's last page on keeps
the address space. -/
theorem Space.shrink (space : Space e sz tf trampoline) {newsz : Nat} (le : newsz ≤ sz) :
    Space (clearRange e (pgRoundUp newsz / pgSize) (pgRoundUp sz / pgSize)) newsz tf trampoline := by
  have mono := pages_mono le space.bound
  refine ⟨le.trans space.bound, fun s below => ?_, fun s t bs bt us ut => ?_, ?_, ?_,
    fun s high tfs trs => ?_⟩
  · rw [clearRange_of_lt below]
    exact space.user s (by omega)
  · rw [clearRange_of_lt bs] at us
    rw [clearRange_of_lt bt] at ut
    exact space.guard s t (by omega) (by omega) us ut
  · rw [clearRange_of_ge space.trapframe_above]
    exact space.trapframe
  · rw [clearRange_of_ge space.trampoline_above]
    exact space.trampoline
  · by_cases past : pgRoundUp sz / pgSize ≤ s.vpn
    · rw [clearRange_of_ge past]
      exact space.unmapped s past tfs trs
    · simp [clearRange, high, Nat.lt_of_not_le past]

/-- **Copying.** A table that maps every page of a parent's space with the
parent's flags, and the rest as a fresh space of its own, has the parent's
address space with its own trapframe page. -/
theorem Space.copy {eOld : Slot → Pte} {ptf : Nat} (parent : Space eOld sz ptf trampoline)
    (child : Space e 0 tf trampoline)
    (copied : ∀ s, s.vpn < pgRoundUp sz / pgSize → (e' s).v = true ∧ (e' s).flags = (eOld s).flags)
    (kept : ∀ s, pgRoundUp sz / pgSize ≤ s.vpn → e' s = e s) : Space e' sz tf trampoline := by
  have zero : pgRoundUp 0 / pgSize ≤ pgRoundUp sz / pgSize := by
    rw [pgRoundUp_zero, Nat.zero_div]
    exact Nat.zero_le _
  refine ⟨parent.bound, fun s below => ?_, fun s t bs bt us ut => ?_, ?_, ?_,
    fun s high tfs trs => ?_⟩
  · obtain ⟨valid, flags⟩ := copied s below
    exact ⟨valid, (congrArg Perm.r flags).trans (parent.user s below).2⟩
  · have us' : (eOld s).u = false := (congrArg Perm.u (copied s bs).2).symm.trans us
    have ut' : (eOld t).u = false := (congrArg Perm.u (copied t bt).2).symm.trans ut
    exact parent.guard s t bs bt us' ut'
  · rw [kept _ parent.trapframe_above]
    exact child.trapframe
  · rw [kept _ parent.trampoline_above]
    exact child.trampoline
  · rw [kept s high]
    exact child.unmapped s (zero.trans high) tfs trs

/-- **The guard page.** Clearing `PTE_U` of one page of an image all for the
user keeps the address space. -/
theorem Space.clearGuard (space : Space e sz tf trampoline) (all : UserAll e sz) {g : Slot}
    (below : g.vpn < pgRoundUp sz / pgSize) :
    Space (Function.update e g { e g with u := false }) sz tf trampoline := by
  have user := space.isUser below
  -- only the guard page has lost `PTE_U`
  have only : ∀ s, s.vpn < pgRoundUp sz / pgSize →
      (Function.update e g { e g with u := false } s).u = false → s = g := by
    intro s bs cleared
    by_contra other
    rw [Function.update_of_ne other, all s bs] at cleared
    cases cleared
  refine ⟨space.bound, fun s bs => ?_, fun s t bs bt us ut => (only s bs us).trans (only t bt ut).symm,
    ?_, ?_, fun s high tfs trs => ?_⟩
  · by_cases same : s = g
    · subst same
      rw [Function.update_self]
      exact space.user s bs
    · rw [Function.update_of_ne same]
      exact space.user s bs
  · rw [Function.update_of_ne (Slot.ne_trapframeSlot user).symm]
    exact space.trapframe
  · rw [Function.update_of_ne (Slot.ne_trampolineSlot user).symm]
    exact space.trampoline
  · have other : s ≠ g := fun same => by rw [same] at high; omega
    rw [Function.update_of_ne other]
    exact space.unmapped s high tfs trs

end Space

/-! ### The triples over a space -/

section Triples

variable {kend tf trampoline : Nat}

/-- `uvmalloc` on a space, over a pool of aligned pages: 0 with the entries as
they were, or a space of the size it returns (the new size, or the old one when
asked to shrink), all for the user if the old one was; the pages it took are in
the table. -/
theorem uvmalloc_space (pt : PageTable) (sz newsz : Nat) (xperm : Perm) (k : Kmem)
    (space : Space pt.entry sz tf trampoline) (pool : Aligned (↑k.freelist + pt.held)) :
    Triple (· = k) (uvmalloc kend pt sz newsz xperm)
      (fun res k' => ↑k'.freelist + res.2.held = ↑k.freelist + pt.held ∧
        (res.1 = 0 ∧ res.2.entry = pt.entry ∨
          res.1 ≠ 0 ∧ (res.1 = newsz ∨ newsz < sz ∧ res.1 = sz) ∧ Space res.2.entry res.1 tf trampoline ∧
            (UserAll pt.entry sz → UserAll res.2.entry res.1))) Benign := by
  have small : sz ≤ maxVA := space.bound.trans (by decide)
  have above : ∀ s, s.IsUser → pgRoundUp sz / pgSize ≤ s.vpn → pt.entry s = Pte.zero :=
    fun s user high => space.unmapped s high (Slot.ne_trapframeSlot user) (Slot.ne_trampolineSlot user)
  have trapframe : (pt.entry trapframeSlot).v = true := by rw [space.trapframe]; rfl
  have trampoline : (pt.entry trampolineSlot).v = true := by rw [space.trampoline]; rfl
  refine (uvmalloc_spec pt sz newsz xperm k small above trapframe trampoline pool).post
    fun res k' ⟨_, held', result⟩ => ⟨held', ?_⟩
  rcases result with ⟨shrink, same, entry'⟩ | ⟨zero, entry'⟩ | ⟨le, same, growing, kept⟩
  · by_cases zero : res.1 = 0
    · exact .inl ⟨zero, entry'⟩
    · rw [entry', same]
      exact .inr ⟨by rw [← same]; exact zero, .inr ⟨shrink, rfl⟩, space, id⟩
  · exact .inl ⟨zero, entry'⟩
  · have grown := space.grow (uvmPerm_r xperm) rfl le growing kept
    rw [← same] at grown
    by_cases zero : res.1 = 0
    · -- growing to size 0 maps nothing
      refine .inl ⟨zero, funext fun s => kept s fun inside => ?_⟩
      rw [← same, zero] at inside
      unfold pgSize at inside
      omega
    · exact .inr ⟨zero, .inl same, grown⟩

/-- `uvmdealloc` on a space: a space of the size it returns, with the frames it
unmapped on the free list. -/
theorem uvmdealloc_space (pt : PageTable) (sz newsz : Nat) (k : Kmem)
    (space : Space pt.entry sz tf trampoline) :
    Triple (· = k) (uvmdealloc kend pt sz newsz)
      (fun res k' => ↑k'.freelist + res.2.held = ↑k.freelist + pt.held ∧
        Space res.2.entry res.1 tf trampoline) Benign := by
  refine (uvmdealloc_spec pt sz newsz k fun _ s _ high => ?_).post
    fun res k' ⟨_, pages', frames', result⟩ => ⟨PageTable.held_eq pages' frames', ?_⟩
  · obtain ⟨valid, readable⟩ := space.user s high
    exact ⟨valid, Pte.flags_ne_empty readable, space.isUser high⟩
  · rcases result with ⟨-, same, entry'⟩ | ⟨shrink, same, entry'⟩
    · rw [entry', same]
      exact space
    · rw [entry', same]
      exact space.shrink shrink.le

/-- `uvmcopy` of a parent's space into a fresh space, over a pool of aligned
pages: 0 with the parent's space, or -1 with the entries as they were; the pages
it took are in the new table. -/
theorem uvmcopy_space (old new : PageTable) (sz ptf : Nat) (k : Kmem)
    (parent : Space old.entry sz ptf trampoline) (child : Space new.entry 0 tf trampoline)
    (pool : Aligned (↑k.freelist + new.held)) :
    Triple (· = k) (uvmcopy kend old new sz)
      (fun res k' => ↑k'.freelist + res.2.held = ↑k.freelist + new.held ∧
        (res.1 = 0 ∧ Space res.2.entry sz tf trampoline ∨ res.1 = -1 ∧ res.2.entry = new.entry))
      Benign := by
  have pages := pgRoundUp_div parent.bound
  refine (uvmcopy_spec old new sz k (fun s below => ?_) (fun s user => child.empty user) pool).post
    fun res k' ⟨_, held', result⟩ => ⟨held', ?_⟩
  · rw [← pages] at below
    exact ⟨(parent.user s below).1, (parent.user s below).2, parent.isUser below⟩
  · rcases result with ⟨zero, copied, kept⟩ | failed
    · rw [← pages] at copied kept
      exact .inl ⟨zero, parent.copy child copied kept⟩
    · exact .inr failed

/-- `uvmclear` of the first page of an image all for the user: the address space
with that page as its guard page. -/
theorem uvmclear_space (pt : PageTable) (sz va : Nat) (k : Kmem) (space : Space pt.entry sz tf trampoline)
    (all : UserAll pt.entry sz) (aligned : va % pgSize = 0) (below : va < pgRoundUp sz) :
    Triple (· = k) (uvmclear pt va)
      (fun pt' k' => k' = k ∧ pt'.held = pt.held ∧ Space pt'.entry sz tf trampoline) Benign := by
  have bound : va < maxVA := below.trans_le ((pgRoundUp_le_trapframe space.bound).trans (by decide))
  have page : (Slot.ofVa va).vpn < pgRoundUp sz / pgSize := by
    rw [Slot.vpn_ofVa bound]
    have := pgRoundUp_mod sz
    unfold pgSize at *
    omega
  refine (uvmclear_spec pt va k (space.user _ page).1).post fun pt' k' ⟨same, _, pages', entry'⟩ => ?_
  refine ⟨same, ?_, ?_⟩
  · rw [PageTable.held, PageTable.held, pages', PageTable.frames, PageTable.frames, entry',
      framesOf_clear_u]
  · rw [entry']
    exact space.clearGuard all page

end Triples

end Xv6.Vm
