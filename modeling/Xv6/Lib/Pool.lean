import Mathlib

/-!
Contract: a fixed pool of resources shared between a free list and owners.

The resources are counted as a multiset. Conservation says that the free list
and what every owner holds add up to the pool; handing out the head of the free
list, or giving a resource back to it, moves it between the two sides and keeps
the sum. A pool without repeats then makes the free list repeat nothing, keeps
what is free apart from what is owned, and lets no resource be held twice.

What a family of owners holds is a sum over a finite index; `sum_add_of_agree`
says how it moves when one owner's holding changes, and `opt` is what an
optional resource holds.

Owns: `Pool.opt`, `Pool.sum_add_of_agree` and the consequences of conservation.

Names nothing of the system it is used for.
-/

namespace Pool

variable {α : Type*}

/-- What an optional resource holds: itself, or nothing. -/
def opt : Option α → Multiset α
  | none => 0
  | some a => {a}

@[simp] theorem opt_none : opt (none : Option α) = 0 := rfl

@[simp] theorem opt_some (a : α) : opt (some a) = {a} := rfl

section Sums

variable {ι M : Type*} [Fintype ι] [DecidableEq ι] [AddCommMonoid M]

/-- **One owner changes.** Two families that agree off `i` differ, in sum, by
what `i` holds in each. -/
theorem sum_add_of_agree {f g : ι → M} (i : ι) (agree : ∀ j, j ≠ i → g j = f j) :
    ∑ j, g j + f i = ∑ j, f j + g i := by
  rw [← Finset.add_sum_erase _ g (Finset.mem_univ i), ← Finset.add_sum_erase _ f (Finset.mem_univ i),
    Finset.sum_congr rfl fun j mem => agree j (Finset.ne_of_mem_erase mem)]
  abel

/-- The same, for what `g` counts of a family changed at `i` by `Function.update`. -/
theorem sum_update_add {β : Type*} (g : β → M) (f : ι → β) (i : ι) (b : β) :
    ∑ j, g (Function.update f i b j) + g (f i) = ∑ j, g (f j) + g b := by
  have moved := sum_add_of_agree (f := fun j => g (f j)) (g := fun j => g (Function.update f i b j)) i
    fun j other => by rw [Function.update_of_ne other]
  rwa [Function.update_self] at moved

end Sums

/-- A free list with one more page at its head. -/
theorem coe_cons (a : α) (l : List α) : ((a :: l : List α) : Multiset α) = ↑l + {a} := by
  rw [← Multiset.cons_coe, ← Multiset.singleton_add, add_comm]

/-- The head of a free list, moved to the other side of a sum. -/
theorem coe_cons_add (a : α) (l : List α) (X : Multiset α) :
    ((a :: l : List α) : Multiset α) + X = ↑l + ({a} + X) := by
  rw [← Multiset.cons_coe, ← Multiset.singleton_add, add_assoc, add_left_comm]

/-- A list with its `n`-th item removed, and that item, hold what the list held. -/
theorem coe_map_eraseIdx {β : Type*} (f : β → α) {l : List β} {n : Nat} (h : n < l.length) :
    (((l.eraseIdx n).map f : List α) : Multiset α) + {f l[n]} = ↑(l.map f) := by
  rw [← coe_cons, ← List.map_cons]
  exact Multiset.coe_eq_coe.mpr ((List.getElem_cons_eraseIdx_perm h).map f)

/-- A list with its `n`-th item replaced by `b` holds `b` in its place. -/
theorem coe_map_set {β : Type*} (f : β → α) {l : List β} {n : Nat} (h : n < l.length) (b : β) :
    (((l.set n b).map f : List α) : Multiset α) + {f l[n]} = ↑(l.map f) + {f b} := by
  have replaced : (((l.set n b).map f : List α) : Multiset α) = ↑((l.eraseIdx n).map f) + {f b} := by
    rw [← coe_cons, ← List.map_cons]
    exact Multiset.coe_eq_coe.mpr ((List.set_perm_cons_eraseIdx h b).map f)
  rw [replaced, add_right_comm, coe_map_eraseIdx f h]

section Conservation

variable {free : List α} {owned pool : Multiset α}

/-- Under conservation over a pool without repeats, the free list repeats
nothing. -/
theorem nodup_free (conserved : ↑free + owned = pool) (nodup : pool.Nodup) : free.Nodup := by
  rw [← conserved] at nodup
  exact Multiset.coe_nodup.mp (Multiset.nodup_add.mp nodup).1

/-- Nothing is held twice. -/
theorem nodup_owned (conserved : ↑free + owned = pool) (nodup : pool.Nodup) : owned.Nodup := by
  rw [← conserved] at nodup
  exact (Multiset.nodup_add.mp nodup).2.1

/-- Nothing free is owned. -/
theorem not_mem_owned (conserved : ↑free + owned = pool) (nodup : pool.Nodup) {a : α}
    (isFree : a ∈ free) : a ∉ owned := by
  rw [← conserved] at nodup
  exact Multiset.disjoint_left.mp (Multiset.nodup_add.mp nodup).2.2 (Multiset.mem_coe.mpr isFree)

/-- What is free comes from the pool. -/
theorem mem_pool (conserved : ↑free + owned = pool) {a : α} (isFree : a ∈ free) : a ∈ pool := by
  rw [← conserved]
  exact Multiset.mem_add.mpr (.inl (Multiset.mem_coe.mpr isFree))

end Conservation

end Pool
