import Mathlib.Data.Fintype.Basic
import Mathlib.Data.Finset.Card

/-!
Contract: counting the members of a finite population by their state.

A system of finitely many parties whose local states form a function
`P → α` often keeps a counter that should equal the number of parties in one
state. `census f a` is that set; a step changes one party's state by
`Function.update`, and these lemmas say how the set and its size move.

Names nothing of the system it is used for.
-/

namespace Census

variable {P α : Type*} [Fintype P] [DecidableEq α]

/-- The parties whose state is `a`. -/
def census (f : P → α) (a : α) : Finset P :=
  Finset.univ.filter (fun party => f party = a)

@[simp] theorem mem_census {f : P → α} {a : α} {party : P} :
    party ∈ census f a ↔ f party = a := by
  simp [census]

/-- An empty census: nobody is in state `a`. -/
theorem census_eq_empty_iff {f : P → α} {a : α} :
    census f a = ∅ ↔ ∀ party, f party ≠ a := by
  simp [census, Finset.filter_eq_empty_iff]

variable [DecidableEq P]

theorem census_update_self (f : P → α) (party : P) (a : α) :
    census (Function.update f party a) a = insert party (census f a) := by
  ext other
  by_cases same : other = party
  · subst same; simp
  · simp [same]

theorem census_update_of_ne (f : P → α) (party : P) {value a : α} (different : value ≠ a) :
    census (Function.update f party value) a = (census f a).erase party := by
  ext other
  by_cases same : other = party
  · subst same; simp [different]
  · simp [same]

/-- A party entering state `a` adds one. -/
theorem card_census_update_enter (f : P → α) (party : P) {a : α} (outside : f party ≠ a) :
    (census (Function.update f party a) a).card = (census f a).card + 1 := by
  rw [census_update_self, Finset.card_insert_of_notMem (by simpa using outside)]

/-- A party leaving state `a` removes one. -/
theorem card_census_update_leave (f : P → α) (party : P) {value a : α} (inside : f party = a)
    (different : value ≠ a) :
    (census (Function.update f party value) a).card = (census f a).card - 1 := by
  rw [census_update_of_ne f party different, Finset.card_erase_of_mem (by simpa using inside)]

/-- A party moving between two other states leaves the count of `a` alone. -/
theorem census_update_of_ne_of_ne (f : P → α) (party : P) {value a : α} (outside : f party ≠ a)
    (different : value ≠ a) :
    census (Function.update f party value) a = census f a := by
  rw [census_update_of_ne f party different]
  exact Finset.erase_eq_of_notMem (by simpa using outside)

/-- **Update rule.** Any change of one party's state, counted both ways: the
count of `a` loses the party if it was there and gains it if it is now. -/
theorem card_census_update (f : P → α) (party : P) (value a : α) :
    (census (Function.update f party value) a).card + (if f party = a then 1 else 0) =
      (census f a).card + (if value = a then 1 else 0) := by
  by_cases inside : f party = a <;> by_cases entering : value = a
  · subst entering
    rw [census_update_self, Finset.insert_eq_of_mem (by simpa using inside)]
    simp [inside]
  · have present : 0 < (census f a).card := Finset.card_pos.mpr ⟨party, by simpa using inside⟩
    rw [card_census_update_leave f party inside entering]
    simp only [inside, entering, if_true, if_false]
    omega
  · subst entering
    rw [card_census_update_enter f party inside]
    simp [inside]
  · rw [census_update_of_ne_of_ne f party inside entering]
    simp [inside, entering]

/-- Parties in one state, but one party. -/
theorem card_census_erase (f : P → α) (party : P) (a : α) :
    ((census f a).erase party).card + (if f party = a then 1 else 0) = (census f a).card := by
  by_cases inside : f party = a
  · have present : party ∈ census f a := by simpa using inside
    rw [Finset.card_erase_of_mem present, if_pos inside]
    have := Finset.card_pos.mpr ⟨party, present⟩
    omega
  · rw [Finset.erase_eq_of_notMem (by simpa using inside), if_neg inside]
    rfl

/-- Leaving one party out, the count does not see that party's state. -/
theorem census_erase_update (f : P → α) (party : P) (value a : α) :
    (census (Function.update f party value) a).erase party = (census f a).erase party := by
  ext other
  by_cases same : other = party
  · subst same; simp
  · simp [same]

end Census
