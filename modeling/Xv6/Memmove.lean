import Xv6.Vm.Copy

/-!
Contract: the byte loops of `memmove` in `kernel/string.c` and in `user/ulib.c`,
and that each copies `n` bytes from `src` to `dst` however the two ranges lie:
the memory after either loop is `store mem dst (load mem src n)`, the meaning the
page-table model gives `memmove`.

Both functions are built of two loops, one upwards from the first byte and one
downwards from one past the last; they differ in when they go down. The kernel
goes down only when `s < d && s + n > d`; the user one whenever `src <= dst`,
also when the ranges do not meet, and its `n` is an `int`, so for `n < 0` no
loop runs.

Addresses are naturals: a C object does not wrap around the end of the address
space, so `src + n` and `dst + n` do not overflow and the pointer comparisons
are those of naturals.

Owns: `copyUp`, `copyDown`, `Kernel.memmove`, `Ulib.memmove`.
-/

namespace Xv6.Memmove

open Vm

/-- `while(n-- > 0) *d++ = *s++;` -/
def copyUp : (Nat → UInt8) → Nat → Nat → Nat → Nat → UInt8
  | mem, _, _, 0 => mem
  | mem, d, s, n + 1 => copyUp (Function.update mem d (mem s)) (d + 1) (s + 1) n

/-- `while(n-- > 0) *--d = *--s;`, from `d` and `s` one past the last byte. -/
def copyDown : (Nat → UInt8) → Nat → Nat → Nat → Nat → UInt8
  | mem, _, _, 0 => mem
  | mem, d, s, n + 1 => copyDown (Function.update mem (d - 1) (mem (s - 1))) (d - 1) (s - 1) n

namespace Kernel

/-- `memmove(dst, src, n)` of `kernel/string.c`. -/
def memmove (mem : Nat → UInt8) (dst src n : Nat) : Nat → UInt8 :=
  if n = 0 then mem
  else if src < dst ∧ src + n > dst then copyDown mem (dst + n) (src + n) n
  else copyUp mem dst src n

end Kernel

namespace Ulib

/-- `memmove(vdst, vsrc, n)` of `user/ulib.c`; `dst += n` moves the pointer by an
`int`. -/
def memmove (mem : Nat → UInt8) (vdst vsrc : Nat) (n : Int) : Nat → UInt8 :=
  if vsrc > vdst then copyUp mem vdst vsrc n.toNat
  else copyDown mem (vdst + n).toNat (vsrc + n).toNat n.toNat

end Ulib

/-! ### Loads and stores -/

@[simp]
theorem load_zero (mem : Nat → UInt8) (p : Nat) : load mem p 0 = [] := rfl

@[simp]
theorem length_load (mem : Nat → UInt8) (p n : Nat) : (load mem p n).length = n := by
  simp [load]

theorem load_succ_right (mem : Nat → UInt8) (p n : Nat) : load mem p (n + 1) = load mem p n ++ [mem (p + n)] := by
  simp [load, List.range_succ]

theorem getD_load {mem : Nat → UInt8} {p n i : Nat} (inside : i < n) : (load mem p n).getD i 0 = mem (p + i) := by
  simp [load, inside]

/-- A byte written outside `[p, p + n)` is not among the `n` bytes loaded from `p`. -/
theorem load_update_of_outside {mem : Nat → UInt8} {a p n : Nat} (outside : a < p ∨ p + n ≤ a) (b : UInt8) :
    load (Function.update mem a b) p n = load mem p n := by
  unfold load
  refine List.map_congr_left fun i inRange => ?_
  have apart : p + i ≠ a := by
    have := List.mem_range.mp inRange
    omega
  exact Function.update_of_ne apart b mem

/-- Storing bytes is storing all but the last over memory where the last is
written already. -/
theorem store_concat (mem : Nat → UInt8) (p : Nat) (bs : List UInt8) (b : UInt8) :
    store mem p (bs ++ [b]) = store (Function.update mem (p + bs.length) b) p bs := by
  funext a
  unfold store
  rw [List.length_append, List.length_singleton]
  by_cases before : p ≤ a ∧ a < p + bs.length
  · rw [if_pos (by omega), if_pos before, List.getD_append _ _ _ _ (by omega)]
  by_cases last : a = p + bs.length
  · subst last
    rw [if_pos (by omega), if_neg before, Function.update_self, Nat.add_sub_cancel_left,
      List.getD_append_right _ _ _ _ (Nat.le_refl _), Nat.sub_self]
    rfl
  · rw [if_neg (by omega), if_neg before, Function.update_of_ne last]

theorem store_inside (mem : Nat → UInt8) (p : Nat) (bs : List UInt8) {i : Nat} (inside : i < bs.length) :
    store mem p bs (p + i) = bs.getD i 0 := by
  simp [store, inside]

theorem store_outside (mem : Nat → UInt8) (p : Nat) (bs : List UInt8) {a : Nat}
    (outside : a < p ∨ p + bs.length ≤ a) : store mem p bs a = mem a := by
  unfold store
  rw [if_neg (by omega)]

/-! ### The two loops -/

/-- Upwards, the copy is right unless `dst` lies in the source past its first byte. -/
theorem copyUp_eq {mem : Nat → UInt8} {d s n : Nat} (safe : d ≤ s ∨ s + n ≤ d) :
    copyUp mem d s n = store mem d (load mem s n) := by
  induction n generalizing mem d s with
  | zero => rw [copyUp, load_zero, store_nil]
  | succ n ih =>
    -- the first byte is written where no later byte is read from
    rw [copyUp, ih (by omega), load_update_of_outside (by omega), PageTable.load_succ, store_cons]

/-- Downwards from one past the ends, the copy is right unless `src` lies in the
destination past its first byte. -/
theorem copyDown_eq {mem : Nat → UInt8} {d s n : Nat} (safe : s ≤ d ∨ d + n ≤ s) :
    copyDown mem (d + n) (s + n) n = store mem d (load mem s n) := by
  induction n generalizing mem with
  | zero => rw [copyDown, load_zero, store_nil]
  | succ n ih =>
    have lastD : d + (n + 1) - 1 = d + n := by omega
    have lastS : s + (n + 1) - 1 = s + n := by omega
    -- the last byte is written where no earlier byte is read from
    rw [copyDown, lastD, lastS, ih (by omega), load_update_of_outside (by omega), load_succ_right,
      store_concat, length_load]

/-! ### The two functions -/

theorem Kernel.memmove_eq (mem : Nat → UInt8) (dst src n : Nat) :
    Kernel.memmove mem dst src n = store mem dst (load mem src n) := by
  unfold Kernel.memmove
  split_ifs with empty down
  · rw [empty, load_zero, store_nil]
  · exact copyDown_eq (Or.inl (Nat.le_of_lt down.1))
  · exact copyUp_eq (by omega)

theorem Ulib.memmove_eq (mem : Nat → UInt8) (vdst vsrc : Nat) {n : Int} (nonneg : 0 ≤ n) :
    Ulib.memmove mem vdst vsrc n = store mem vdst (load mem vsrc n.toNat) := by
  unfold Ulib.memmove
  split_ifs with up
  · exact copyUp_eq (Or.inl (Nat.le_of_lt up))
  · have ends : ∀ p : Nat, ((p : Int) + n).toNat = p + n.toNat := fun p => by omega
    rw [ends, ends]
    exact copyDown_eq (Or.inl (by omega))

theorem Ulib.memmove_neg (mem : Nat → UInt8) (vdst vsrc : Nat) {n : Int} (neg : n < 0) :
    Ulib.memmove mem vdst vsrc n = mem := by
  have none : n.toNat = 0 := by omega
  unfold Ulib.memmove
  split_ifs
  · rw [none, copyUp]
  · rw [none, copyDown]

/-- The page-table model's `memmove` is the kernel's loop. -/
theorem memmove_eq_loop (dst src n : Nat) :
    Vm.memmove dst src n = modify fun k => { k with mem := Kernel.memmove k.mem dst src n } := by
  simp only [Vm.memmove, Kernel.memmove_eq]

/-- Both `memmove`s copy the source as it was before the call into `[dst, dst + n)`
and leave every other byte, whichever way the ranges overlap; the user one
writes nothing for a negative `n`. -/
theorem memmove_overlap_safe :
    (∀ (mem : Nat → UInt8) (dst src n : Nat),
      (∀ i < n, Kernel.memmove mem dst src n (dst + i) = mem (src + i)) ∧
      ∀ a, a < dst ∨ dst + n ≤ a → Kernel.memmove mem dst src n a = mem a) ∧
    (∀ (mem : Nat → UInt8) (vdst vsrc : Nat) (n : Int),
      (0 ≤ n →
        (∀ i < n.toNat, Ulib.memmove mem vdst vsrc n (vdst + i) = mem (vsrc + i)) ∧
        ∀ a, a < vdst ∨ vdst + n.toNat ≤ a → Ulib.memmove mem vdst vsrc n a = mem a) ∧
      (n < 0 → Ulib.memmove mem vdst vsrc n = mem)) := by
  refine ⟨fun mem dst src n => ⟨fun i inside => ?_, fun a outside => ?_⟩,
    fun mem vdst vsrc n => ⟨fun nonneg => ⟨fun i inside => ?_, fun a outside => ?_⟩,
      Ulib.memmove_neg mem vdst vsrc⟩⟩
  · rw [Kernel.memmove_eq, store_inside _ _ _ (by simpa using inside), getD_load inside]
  · rw [Kernel.memmove_eq, store_outside _ _ _ (by simpa using outside)]
  · rw [Ulib.memmove_eq _ _ _ nonneg, store_inside _ _ _ (by simpa using inside), getD_load inside]
  · rw [Ulib.memmove_eq _ _ _ nonneg, store_outside _ _ _ (by simpa using outside)]

end Xv6.Memmove
