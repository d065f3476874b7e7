import Mathlib.Tactic

/-!
Contract: strings terminated in place: one value written at a list of positions
of a buffer, and the piece a reader that stops at that value reads.

A pass that ends several strings of a buffer writes the terminator `x` at the
position each item names (`writeAll`). It keeps the length, changes no position
it does not name, and leaves `x` at each one it names inside the buffer
(`getElem?_writeAll`); a window that holds none of the positions reads the
same before and after (`drop_take_writeAll`). A reader that starts at `q` and
stops at the first element failing `p` reads the piece up to `e` when every
element before `e` passes and the one at `e`, if any, fails (`takeWhile_drop`).

Owns: `writeAll` and its laws, `takeWhile_drop`.

Names nothing of the system it is used for.
-/

namespace Terminate

variable {α β : Type*} (pos : β → Nat) (x : α)

/-- `x` written at the position of each item, in order. -/
def writeAll (items : List β) (buf : List α) : List α :=
  items.foldl (fun b w => b.set (pos w) x) buf

@[simp]
theorem writeAll_nil (buf : List α) : writeAll pos x [] buf = buf := rfl

@[simp]
theorem writeAll_cons (w : β) (items : List β) (buf : List α) :
    writeAll pos x (w :: items) buf = writeAll pos x items (buf.set (pos w) x) := rfl

theorem writeAll_append (items items' : List β) (buf : List α) :
    writeAll pos x (items ++ items') buf = writeAll pos x items' (writeAll pos x items buf) :=
  List.foldl_append

@[simp]
theorem length_writeAll (items : List β) (buf : List α) : (writeAll pos x items buf).length = buf.length := by
  induction items generalizing buf with
  | nil => rfl
  | cons w items ih => simp [ih]

/-- What a position holds after the writes: `x` where an item names it, inside
the buffer, and what it held before elsewhere. -/
theorem getElem?_writeAll (items : List β) (buf : List α) (i : Nat) :
    (writeAll pos x items buf)[i]? = if ∃ w ∈ items, pos w = i then buf[i]?.map fun _ => x else buf[i]? := by
  induction items generalizing buf with
  | nil => simp
  | cons w items ih =>
    rw [writeAll_cons, ih, List.getElem?_set]
    by_cases here : pos w = i
    · -- the first write names `i`: whatever the others do, `i` holds `x`
      subst here
      by_cases inside : pos w < buf.length
      · simp [inside]
      · simp [inside]
    · simp [here]

theorem getElem?_writeAll_of_forall_ne {items : List β} {i : Nat} (apart : ∀ w ∈ items, pos w ≠ i)
    (buf : List α) : (writeAll pos x items buf)[i]? = buf[i]? := by
  rw [getElem?_writeAll, if_neg]
  rintro ⟨w, mem, same⟩
  exact apart w mem same

theorem getElem?_writeAll_of_mem {items : List β} {w : β} (mem : w ∈ items) {buf : List α}
    (inside : pos w < buf.length) : (writeAll pos x items buf)[pos w]? = some x := by
  rw [getElem?_writeAll, if_pos ⟨w, mem, rfl⟩, List.getElem?_eq_getElem inside]
  rfl

/-- A window that holds none of the positions reads the same after the writes. -/
theorem drop_take_writeAll {items : List β} {q e : Nat} (apart : ∀ w ∈ items, ¬ (q ≤ pos w ∧ pos w < e))
    (buf : List α) : ((writeAll pos x items buf).take e).drop q = (buf.take e).drop q := by
  apply List.ext_getElem?
  intro j
  simp only [List.getElem?_drop, List.getElem?_take]
  split_ifs with within
  · exact getElem?_writeAll_of_forall_ne pos x (fun w mem same => apart w mem ⟨by omega, by omega⟩) buf
  · rfl

/-- The piece a reader from `q` reads ends at `e` where the elements before `e`
pass and the one at `e`, if any, fails. -/
theorem takeWhile_drop {p : α → Bool} {l : List α} {q e : Nat} (le : q ≤ e)
    (pass : ∀ a ∈ (l.take e).drop q, p a) (stop : ∀ a ∈ l[e]?, p a = false) :
    (l.drop q).takeWhile p = (l.take e).drop q := by
  have split : l.drop q = (l.take e).drop q ++ l.drop e := by
    by_cases short : q ≤ l.length
    · conv_lhs => rw [← List.take_append_drop e l]
      exact List.drop_append_of_le_length (by simp; omega)
    · have past : l.length ≤ q := by omega
      simp [past, List.drop_eq_nil_of_le past, List.drop_eq_nil_of_le (past.trans le)]
  rw [split, List.takeWhile_append_of_pos pass]
  rcases Nat.lt_or_ge e l.length with inside | past
  · have fails : p l[e] = false := stop _ (List.getElem?_eq_getElem inside)
    rw [List.drop_eq_getElem_cons inside, List.takeWhile_cons_of_neg (by simp [fails]), List.append_nil]
  · rw [List.drop_eq_nil_of_le past, List.takeWhile_nil, List.append_nil]

end Terminate
