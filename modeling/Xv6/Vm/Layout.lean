import Mathlib

/-!
Contract: the Sv39 layout the memory code works with (`kernel/riscv.h`,
`kernel/memlayout.h`): pages, the top of the user address space with its
trampoline and trapframe pages, physical memory, page-table entries, and the
three page-table indices of a virtual page.

An entry is kept as its physical address and the five bits the code reads and
writes (`PTE_V`, `PTE_R`, `PTE_W`, `PTE_X`, `PTE_U`); a permission, as the four
bits `mappages` is given. Virtual addresses are 64-bit values (`Nat` below
2^64), with `PGROUNDUP` wrapping as it does in `uint64`.

Owns: `pgSize`, `maxVA`, `trampolineVa`, `trapframeVa`, `kernBase`, `phyStop`,
`pgRoundUp`, `px`, `Perm`, `Pte`, `Slot`.
-/

namespace Xv6.Vm

/-- `PGSIZE`. -/
def pgSize : Nat := 4096

/-- `MAXVA`: one beyond the highest virtual address Sv39 allows, less a bit to
avoid sign extension. -/
def maxVA : Nat := 2 ^ (9 + 9 + 9 + 12 - 1)

/-- `TRAMPOLINE`: the highest user virtual page. -/
def trampolineVa : Nat := maxVA - pgSize

/-- `TRAPFRAME`: the page below the trampoline. -/
def trapframeVa : Nat := trampolineVa - pgSize

/-- `KERNBASE`. -/
def kernBase : Nat := 0x80000000

/-- `PHYSTOP`: the end of the RAM the kernel uses. -/
def phyStop : Nat := kernBase + 128 * 1024 * 1024

/-- `PGROUNDUP(sz)` on a `uint64`. -/
def pgRoundUp (sz : Nat) : Nat :=
  (sz + pgSize - 1) % 2 ^ 64 / pgSize * pgSize

/-- `PX(level, va)`: the page-table index of `va` at `level`. -/
def px (level va : Nat) : Fin 512 :=
  ⟨va / 2 ^ (12 + 9 * level) % 512, Nat.mod_lt _ (by decide)⟩

/-- The permission bits `mappages` is given (`PTE_R`, `PTE_W`, `PTE_X`, `PTE_U`). -/
structure Perm where
  r : Bool := false
  w : Bool := false
  x : Bool := false
  u : Bool := false
  deriving DecidableEq, Repr

/-- A page-table entry: the physical address it names and its bits. -/
structure Pte where
  pa : Nat
  v : Bool := false
  r : Bool := false
  w : Bool := false
  x : Bool := false
  u : Bool := false
  deriving DecidableEq, Repr

/-- The zero entry (`*pte = 0`). -/
def Pte.zero : Pte :=
  { pa := 0 }

/-- `PA2PTE(pa) | perm | PTE_V`: `PA2PTE` shifts out the low 12 bits of `pa`,
so the entry names the page `pa` lies in. -/
def Pte.leaf (pa : Nat) (perm : Perm) : Pte :=
  { pa := pa / pgSize * pgSize, v := true, r := perm.r, w := perm.w, x := perm.x, u := perm.u }

/-- `PTE_FLAGS(pte)` as a permission: what `uvmcopy` hands `mappages`. -/
def Pte.flags (pte : Pte) : Perm :=
  { r := pte.r, w := pte.w, x := pte.x, u := pte.u }

/-- `PA2PTE(pa)` keeps a page-aligned `pa` whole. -/
theorem Pte.leaf_pa {pa : Nat} (aligned : pa % pgSize = 0) (perm : Perm) :
    (Pte.leaf pa perm).pa = pa :=
  Nat.div_mul_cancel (Nat.dvd_of_mod_eq_zero aligned)

/-- The three indices of a virtual page, level 2 first. -/
structure Slot where
  i2 : Fin 512
  i1 : Fin 512
  i0 : Fin 512
  deriving DecidableEq, Repr, Fintype

/-- The slot of virtual address `va`: `PX(2, va)`, `PX(1, va)`, `PX(0, va)`. -/
def Slot.ofVa (va : Nat) : Slot :=
  ⟨px 2 va, px 1 va, px 0 va⟩

/-- The virtual page number a slot stands for. -/
def Slot.vpn (s : Slot) : Nat :=
  (s.i2.val * 512 + s.i1.val) * 512 + s.i0.val

/-- The first address of the page a slot stands for. -/
def Slot.va (s : Slot) : Nat :=
  s.vpn * pgSize

theorem Slot.vpn_lt (s : Slot) : s.vpn < 2 ^ 27 := by
  have := s.i2.isLt
  have := s.i1.isLt
  have := s.i0.isLt
  unfold Slot.vpn
  omega

/-- Below `MAXVA`, the slot of an address is that of its page. -/
theorem Slot.vpn_ofVa {va : Nat} (below : va < maxVA) : (Slot.ofVa va).vpn = va / pgSize := by
  simp only [Slot.ofVa, Slot.vpn, px, maxVA, pgSize] at below ⊢
  omega

theorem Slot.ofVa_va (s : Slot) : Slot.ofVa s.va = s := by
  have := s.i2.isLt
  have := s.i1.isLt
  have := s.i0.isLt
  cases s
  simp only [Slot.ofVa, Slot.va, Slot.vpn, px, pgSize, Slot.mk.injEq, Fin.ext_iff]
  omega

theorem Slot.vpn_injective : Function.Injective Slot.vpn := by
  intro s t same
  rw [← Slot.ofVa_va s, ← Slot.ofVa_va t, Slot.va, Slot.va, same]

/-- Below 2^64 less a page, `PGROUNDUP` rounds up to a page. -/
theorem pgRoundUp_eq {sz : Nat} (small : sz + pgSize ≤ 2 ^ 64) :
    pgRoundUp sz = (sz + pgSize - 1) / pgSize * pgSize := by
  unfold pgRoundUp
  rw [Nat.mod_eq_of_lt (by unfold pgSize at small ⊢; omega)]

end Xv6.Vm
