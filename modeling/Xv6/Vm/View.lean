import Xv6.Vm.PageTable
import Xv6.Lib.Pool

/-!
Contract: what a page table maps and which physical pages it holds.

`entry` is the level-0 entry of a slot as `walk` and the hardware read it: the
entry written there if the level-1 and level-0 pages on its path are present, the
zero entry otherwise. A page table holds its page-table pages (`pages`: the root,
then each level-1 page with the level-0 pages it names) and the frames its valid
user entries name (`frames`); the entries at `TRAPFRAME` and `TRAMPOLINE` name
pages other owners hold (the process's trapframe, the kernel's trampoline).

The updates `walk` and `mappages` make change these views by one page or one
entry: `addDir` and `addMid` add one page-table page and leave every entry as it
was, and `setLeaf` changes one entry.

Owns: `Slot.IsUser`, `trapframeSlot`, `trampolineSlot`, `PageTable.Present`,
`PageTable.entry`, `clearRange`, `frameOf`, `framesOf`, `PageTable.pages`,
`PageTable.frames`, `PageTable.held`, and their update lemmas.
-/

namespace Xv6.Vm

open Pool

/-- A user slot: a page below `TRAPFRAME`, one that a process's size counts. -/
def Slot.IsUser (s : Slot) : Prop :=
  s.vpn < trapframeVa / pgSize

instance : DecidablePred Slot.IsUser :=
  fun s => inferInstanceAs (Decidable (s.vpn < trapframeVa / pgSize))

/-- The slot of `TRAPFRAME`. -/
def trapframeSlot : Slot :=
  Slot.ofVa trapframeVa

/-- The slot of `TRAMPOLINE`. -/
def trampolineSlot : Slot :=
  Slot.ofVa trampolineVa

theorem trapframeSlot_vpn : trapframeSlot.vpn = trapframeVa / pgSize := by
  decide

theorem trampolineSlot_vpn : trampolineSlot.vpn = trapframeVa / pgSize + 1 := by
  decide

/-- A slot's page, whose address is below `MAXVA`, is a user page, the trapframe's
or the trampoline's. -/
theorem Slot.isUser_or {s : Slot} (below : s.va < maxVA) :
    s.IsUser ∨ s = trapframeSlot ∨ s = trampolineSlot := by
  by_cases user : s.IsUser
  · exact .inl user
  · right
    have high : trapframeVa / pgSize ≤ s.vpn := Nat.le_of_not_lt user
    have low : s.vpn < maxVA / pgSize := by
      unfold Slot.va at below
      unfold maxVA pgSize at below ⊢
      omega
    have cases : s.vpn = trapframeSlot.vpn ∨ s.vpn = trampolineSlot.vpn := by
      rw [trapframeSlot_vpn, trampolineSlot_vpn]
      simp only [trapframeVa, trampolineVa, maxVA, pgSize] at high low ⊢
      omega
    exact cases.imp (fun same => Slot.vpn_injective same) (fun same => Slot.vpn_injective same)

namespace PageTable

/-- `walk` finds the level-1 and the level-0 page on slot `s`'s path. -/
def Present (pt : PageTable) (s : Slot) : Prop :=
  (pt.dir s.i2).isSome ∧ (pt.mid s.i2 s.i1).isSome

instance (pt : PageTable) (s : Slot) : Decidable (pt.Present s) :=
  inferInstanceAs (Decidable (_ ∧ _))

/-- The entry of slot `s` as `walk` reads it. -/
def entry (pt : PageTable) (s : Slot) : Pte :=
  if pt.Present s then pt.leaf s else Pte.zero

/-- The level-1 page of index `i2`, with the level-0 pages it names. -/
def dirPages (pt : PageTable) (i2 : Fin 512) : Multiset Nat :=
  (pt.dir i2).elim 0 fun pa => {pa} + ∑ i1, opt (pt.mid i2 i1)

/-- The page-table pages: the root and every page `walk` can reach from it. -/
def pages (pt : PageTable) : Multiset Nat :=
  {pt.root} + ∑ i2, pt.dirPages i2

end PageTable

/-- The frame an entry at slot `s` holds for its process: the page of a valid
user entry. -/
def frameOf (s : Slot) (pte : Pte) : Multiset Nat :=
  if s.IsUser ∧ pte.v = true then {pte.pa} else 0

/-- The frames a map of entries holds. -/
def framesOf (e : Slot → Pte) : Multiset Nat :=
  ∑ s, frameOf s (e s)

/-- Every page of a pool starts at a page boundary: `kfree` panics on any other
address, so every page the free list hands out is one. -/
def Aligned (pool : Multiset Nat) : Prop :=
  ∀ pa ∈ pool, pa % pgSize = 0

theorem Aligned.of_le {pool pool' : Multiset Nat} (aligned : Aligned pool') (le : pool ≤ pool') :
    Aligned pool :=
  fun pa mem => aligned pa (Multiset.mem_of_le le mem)

theorem Aligned.left {pool rest : Multiset Nat} (aligned : Aligned (pool + rest)) : Aligned pool :=
  aligned.of_le (Multiset.le_add_right pool rest)

/-- The entries with the slots of pages `lo` to `hi - 1` zeroed: what unmapping
those pages leaves. -/
def clearRange (e : Slot → Pte) (lo hi : Nat) (s : Slot) : Pte :=
  if lo ≤ s.vpn ∧ s.vpn < hi then Pte.zero else e s

namespace PageTable

/-- The frames of the user pages the table maps. -/
def frames (pt : PageTable) : Multiset Nat :=
  framesOf pt.entry

/-- Every page the table holds. -/
def held (pt : PageTable) : Multiset Nat :=
  pt.pages + pt.frames

/-! ### How the updates move the views -/

section Updates

variable {pt : PageTable}

@[simp] theorem present_setLeaf {s t : Slot} {pte : Pte} :
    (pt.setLeaf s pte).Present t ↔ pt.Present t :=
  Iff.rfl

@[simp] theorem pages_setLeaf (s : Slot) (pte : Pte) : (pt.setLeaf s pte).pages = pt.pages :=
  rfl

@[simp] theorem root_setLeaf (s : Slot) (pte : Pte) : (pt.setLeaf s pte).root = pt.root :=
  rfl

@[simp] theorem leaf_setLeaf (s : Slot) (pte : Pte) :
    (pt.setLeaf s pte).leaf = Function.update pt.leaf s pte :=
  rfl

theorem entry_setLeaf {s : Slot} (present : pt.Present s) (pte : Pte) :
    (pt.setLeaf s pte).entry = Function.update pt.entry s pte := by
  funext t
  by_cases same : t = s
  · subst same
    simp [entry, present]
  · simp [entry, Function.update_of_ne same]

theorem leaf_eq_entry {s : Slot} (present : pt.Present s) : pt.leaf s = pt.entry s := by
  simp [entry, present]

@[simp] theorem root_addDir (i2 : Fin 512) (pa : Nat) : (pt.addDir i2 pa).root = pt.root :=
  rfl

@[simp] theorem root_addMid (i2 i1 : Fin 512) (pa : Nat) : (pt.addMid i2 i1 pa).root = pt.root :=
  rfl

/-- A new level-1 page changes no entry: it names no level-0 page yet. -/
theorem entry_addDir {i2 : Fin 512} (absent : pt.dir i2 = none) (pa : Nat) :
    (pt.addDir i2 pa).entry = pt.entry := by
  funext s
  by_cases same : s.i2 = i2
  · have before : ¬pt.Present s := by simp [Present, same, absent]
    have after : ¬(pt.addDir i2 pa).Present s := by simp [Present, addDir, same]
    simp [entry, before, after]
  · have present : (pt.addDir i2 pa).Present s ↔ pt.Present s := by
      simp [Present, addDir, Function.update_of_ne same]
    unfold entry
    by_cases found : pt.Present s
    · rw [if_pos (present.mpr found), if_pos found]
      rfl
    · rw [if_neg (mt present.mp found), if_neg found]

/-- A new level-0 page changes no entry: all of its entries are zero. -/
theorem entry_addMid {i2 i1 : Fin 512} (absent : pt.mid i2 i1 = none) (pa : Nat) :
    (pt.addMid i2 i1 pa).entry = pt.entry := by
  funext s
  by_cases same : s.i2 = i2 ∧ s.i1 = i1
  · obtain ⟨rfl, rfl⟩ := same
    have before : ¬pt.Present s := by simp [Present, absent]
    simp [entry, before, addMid]
  · have mid : (pt.addMid i2 i1 pa).mid s.i2 s.i1 = pt.mid s.i2 s.i1 := by
      by_cases first : s.i2 = i2
      · subst first
        have second : s.i1 ≠ i1 := fun eq => same ⟨rfl, eq⟩
        simp [addMid, Function.update_of_ne second]
      · simp [addMid, Function.update_of_ne first]
    have present : (pt.addMid i2 i1 pa).Present s ↔ pt.Present s := by
      simp only [Present, mid]
      rfl
    have leaf : (pt.addMid i2 i1 pa).leaf s = pt.leaf s := by
      simp [addMid, same]
    unfold entry
    by_cases found : pt.Present s
    · rw [if_pos (present.mpr found), if_pos found, leaf]
    · rw [if_neg (mt present.mp found), if_neg found]

theorem pages_addDir {i2 : Fin 512} (absent : pt.dir i2 = none) (pa : Nat) :
    (pt.addDir i2 pa).pages = pt.pages + {pa} := by
  have agree : ∀ j, j ≠ i2 → (pt.addDir i2 pa).dirPages j = pt.dirPages j := by
    intro j other
    simp [dirPages, addDir, Function.update_of_ne other]
  have moved := sum_add_of_agree i2 agree
  have fresh : (pt.addDir i2 pa).dirPages i2 = {pa} := by simp [dirPages, addDir]
  have old : pt.dirPages i2 = 0 := by simp [dirPages, absent]
  rw [fresh, old, add_zero] at moved
  simp only [pages, root_addDir, moved, add_assoc]

theorem pages_addMid {i2 i1 : Fin 512} (present : (pt.dir i2).isSome) (absent : pt.mid i2 i1 = none)
    (pa : Nat) : (pt.addMid i2 i1 pa).pages = pt.pages + {pa} := by
  obtain ⟨page, dir⟩ := Option.isSome_iff_exists.mp present
  -- under `i2` one more level-0 page, the other level-1 pages as they were
  have inner := sum_add_of_agree (f := fun j => opt (pt.mid i2 j))
    (g := fun j => opt ((pt.addMid i2 i1 pa).mid i2 j)) i1
    fun j other => by simp [addMid, Function.update_of_ne other]
  simp only [addMid, Function.update_self, absent, opt_none, add_zero, opt_some] at inner
  have here : (pt.addMid i2 i1 pa).dirPages i2 = pt.dirPages i2 + {pa} := by
    simp only [dirPages, addMid, dir, Option.elim_some, Function.update_self] at inner ⊢
    rw [inner, add_assoc]
  have agree : ∀ j, j ≠ i2 → (pt.addMid i2 i1 pa).dirPages j = pt.dirPages j := by
    intro j other
    simp [dirPages, addMid, Function.update_of_ne other]
  have moved : ∑ j, (pt.addMid i2 i1 pa).dirPages j + pt.dirPages i2 =
      (∑ j, pt.dirPages j + {pa}) + pt.dirPages i2 := by
    rw [sum_add_of_agree i2 agree, here]
    abel
  rw [pages, pages, root_addMid, add_right_cancel moved, add_assoc]

end Updates

end PageTable

/-- A change that keeps the page-table pages and moves frames to or from a free
list keeps what the two hold together. -/
theorem PageTable.held_eq {pt pt' : PageTable} {fl fl' : List Nat} (pages : pt'.pages = pt.pages)
    (frames : ↑fl' + pt'.frames = (↑fl : Multiset Nat) + pt.frames) :
    ↑fl' + pt'.held = (↑fl : Multiset Nat) + pt.held := by
  rw [PageTable.held, PageTable.held, pages, add_left_comm, frames, add_left_comm]

/-! ### Frames -/

theorem frameOf_zero (s : Slot) : frameOf s Pte.zero = 0 := by
  simp [frameOf, Pte.zero]

theorem frameOf_of_not_valid {s : Slot} {pte : Pte} (invalid : pte.v = false) : frameOf s pte = 0 := by
  simp [frameOf, invalid]

/-- A user page mapped at a page boundary holds that page. -/
theorem frameOf_leaf {s : Slot} (user : s.IsUser) {pa : Nat} (aligned : pa % pgSize = 0) (perm : Perm) :
    frameOf s (Pte.leaf pa perm) = {pa} := by
  rw [frameOf, if_pos ⟨user, rfl⟩, Pte.leaf_pa aligned]

/-- **One entry changes.** The frames move by the old and the new entry's frame. -/
theorem framesOf_update (e : Slot → Pte) (s : Slot) (pte : Pte) :
    framesOf (Function.update e s pte) + frameOf s (e s) = framesOf e + frameOf s pte := by
  have moved := sum_add_of_agree (f := fun t => frameOf t (e t))
    (g := fun t => frameOf t (Function.update e s pte t)) s
    fun t other => by simp [Function.update_of_ne other]
  simpa [framesOf] using moved

/-- Mapping a slot that was not mapped adds the new entry's frame. -/
theorem framesOf_map {e : Slot → Pte} {s : Slot} (invalid : (e s).v = false) (pte : Pte) :
    framesOf (Function.update e s pte) = framesOf e + frameOf s pte := by
  have moved := framesOf_update e s pte
  rwa [frameOf_of_not_valid invalid, add_zero] at moved

/-- Zeroing a present entry gives its frame up. -/
theorem PageTable.frames_unmap {pt : PageTable} {s : Slot} (present : pt.Present s) :
    (pt.setLeaf s Pte.zero).frames + frameOf s (pt.entry s) = pt.frames := by
  rw [PageTable.frames, PageTable.entry_setLeaf present, framesOf_update, frameOf_zero, add_zero]
  rfl

/-- Entries none of which is valid hold no frame. -/
theorem framesOf_eq_zero {e : Slot → Pte} (empty : ∀ s, (e s).v = false) : framesOf e = 0 :=
  Finset.sum_eq_zero fun s _ => frameOf_of_not_valid (empty s)

theorem clearRange_of_le {e : Slot → Pte} {lo hi : Nat} (empty : hi ≤ lo) : clearRange e lo hi = e := by
  funext s
  simp only [clearRange]
  rw [if_neg (by omega)]

/-- Zeroing the first slot of a range, then the rest, zeroes the range. -/
theorem clearRange_update {e : Slot → Pte} {s : Slot} {hi : Nat} (inside : s.vpn < hi) :
    clearRange (Function.update e s Pte.zero) (s.vpn + 1) hi = clearRange e s.vpn hi := by
  funext t
  by_cases same : t = s
  · subst same
    simp [clearRange, inside]
  · have other : t.vpn ≠ s.vpn := fun eq => same (Slot.vpn_injective eq)
    simp only [clearRange, Function.update_of_ne same]
    by_cases inside : s.vpn + 1 ≤ t.vpn ∧ t.vpn < hi
    · rw [if_pos inside, if_pos (by omega)]
    · rw [if_neg inside, if_neg (by omega)]

/-- Mapping a zero slot at the end of a range, then zeroing the range, zeroes
the range without it. -/
theorem clearRange_update_last {e : Slot → Pte} {s : Slot} (zero : e s = Pte.zero) {lo : Nat}
    (low : lo ≤ s.vpn) (pte : Pte) : clearRange (Function.update e s pte) lo (s.vpn + 1) = clearRange e lo s.vpn := by
  funext t
  by_cases same : t = s
  · subst same
    simp [clearRange, zero, low]
  · have other : t.vpn ≠ s.vpn := fun eq => same (Slot.vpn_injective eq)
    simp only [clearRange, Function.update_of_ne same]
    by_cases inside : lo ≤ t.vpn ∧ t.vpn < s.vpn + 1
    · rw [if_pos inside, if_pos (by omega)]
    · rw [if_neg inside, if_neg (by omega)]

end Xv6.Vm
