import Mathlib

/-!
Contract: a bounded FIFO kept in a ring of `cap` cells, as a ring buffer with
free-running counters keeps it: the value pushed `k`-th goes to cell `k % cap`,
and the cells from the pop count on hold, in order, what was pushed and not yet
popped.

The history is explicit: `stored` is every value pushed so far and `taken` the
number popped. `Mirrors cells stored taken` says the cells hold the pending part
of the history; pushing while fewer than `cap` are pending and popping while one
is pending keep it, and a pop returns the oldest pending value. `window` reads
the pending values off the cells, and under `Mirrors` it is the abstract queue
`stored.drop taken`.

Owns: `Ring.cell`, `Ring.Mirrors`, `Ring.window` and their push, pop and retract rules.

Names nothing of the system it is used for.
-/

namespace Ring

variable {α : Type*} {cap : Nat} [NeZero cap]

/-- The cell of the value pushed `k`-th. -/
def cell (cap : Nat) [NeZero cap] (k : Nat) : Fin cap :=
  ⟨k % cap, Nat.mod_lt _ (Nat.pos_of_neZero cap)⟩

/-- Positions fewer than `cap` apart have different cells. -/
theorem cell_ne {j k : Nat} (lt : j < k) (near : k < j + cap) : cell cap j ≠ cell cap k := by
  intro same
  have sameMod : k % cap = j % cap := (Fin.mk.inj_iff.mp same).symm
  have zero : (k - j) % cap = 0 := Nat.sub_mod_eq_zero_of_mod_eq sameMod
  rw [Nat.mod_eq_of_lt (by omega)] at zero
  omega

/-- The cells hold the pending part of the history: the value pushed `k`-th, for
every `k` from `taken` on, in cell `k`. -/
def Mirrors (cells : Fin cap → α) (stored : List α) (taken : Nat) : Prop :=
  ∀ k (lt : k < stored.length), taken ≤ k → cells (cell cap k) = stored[k]

/-- The pending values, read off the cells from position `taken`. -/
def window (cells : Fin cap → α) (taken count : Nat) : List α :=
  (List.range count).map fun j => cells (cell cap (taken + j))

section Rules

variable {cells : Fin cap → α} {stored : List α} {taken : Nat}

/-- **Push.** With room for one more pending value, writing it to its cell keeps
the others. -/
theorem Mirrors.push (mirrors : Mirrors cells stored taken)
    (room : stored.length < taken + cap) (a : α) :
    Mirrors (Function.update cells (cell cap stored.length) a) (stored ++ [a]) taken := by
  intro k lt le
  rw [List.length_append, List.length_singleton] at lt
  rcases Nat.lt_succ_iff_lt_or_eq.mp lt with older | rfl
  · -- an older pending value sits fewer than `cap` cells behind the new one
    have other : cell cap k ≠ cell cap stored.length := cell_ne older (by omega)
    rw [Function.update_of_ne other, List.getElem_append_left older]
    exact mirrors k older le
  · simp

/-- **Pop.** The oldest pending value is in its cell. -/
theorem Mirrors.head (mirrors : Mirrors cells stored taken) (pending : taken < stored.length) :
    cells (cell cap taken) = stored[taken] :=
  mirrors taken pending le_rfl

theorem Mirrors.pop (mirrors : Mirrors cells stored taken) : Mirrors cells stored (taken + 1) :=
  fun k lt le => mirrors k lt (Nat.le_of_succ_le le)

/-- **Retract.** Dropping values from the end of the history keeps the rest in their cells. -/
theorem Mirrors.of_prefix (mirrors : Mirrors cells stored taken) {shorter : List α}
    (pre : shorter <+: stored) : Mirrors cells shorter taken := by
  intro k lt le
  rw [mirrors k (lt_of_lt_of_le lt pre.length_le) le]
  exact (pre.getElem lt).symm

/-- **Abstraction.** The cells read as the queue of pending values. -/
theorem Mirrors.window_eq (mirrors : Mirrors cells stored taken) (le : taken ≤ stored.length) :
    window cells taken (stored.length - taken) = stored.drop taken := by
  apply List.ext_getElem
  · simp [window]
  · intro j inWindow inDrop
    simp only [window, List.getElem_map, List.getElem_range, List.getElem_drop]
    have lt : taken + j < stored.length := by
      rw [List.length_drop] at inDrop
      omega
    exact mirrors (taken + j) lt (Nat.le_add_right taken j)

end Rules

end Ring
