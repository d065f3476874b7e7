import Mathlib.Tactic

/-!
Contract: streams of records, each followed by a separator, and where a reader
that takes the stream in pieces of any size stands in it.

`join sep records` is the records, each followed by `sep`. A stream is such a
join followed by a last piece without `sep`. Cut it anywhere: what comes before
the cut is some first records whole, then a piece without `sep` that begins the
rest (`cut_join`); that piece is no longer than the record it begins
(`length_le_of_begins`), and a stream begins with only one such piece that is
followed by `sep` or ends it (`eq_of_begins`).

Owns: `join`, `cut_join`, `length_le_of_begins`, `eq_of_begins`.

Names nothing of the system it is used for.
-/

namespace Records

variable {α : Type*} (sep : α)

/-- The records, each followed by `sep`. -/
def join (records : List (List α)) : List α := (records.map (· ++ [sep])).flatten

@[simp]
theorem join_nil : join sep [] = [] := rfl

@[simp]
theorem join_cons (r : List α) (rs : List (List α)) : join sep (r :: rs) = r ++ sep :: join sep rs := by
  simp [join]

theorem join_append (rs rs' : List (List α)) : join sep (rs ++ rs') = join sep rs ++ join sep rs' := by
  simp [join]

variable {sep}

/-- A separator-free piece that begins a record followed by `sep` lies within the record. -/
theorem length_le_of_begins {piece rest r more : List α} (free : sep ∉ piece)
    (begins : piece ++ rest = r ++ sep :: more) : piece.length ≤ r.length := by
  by_contra longer
  obtain ⟨c, rfl, -⟩ | ⟨c, rfl, split⟩ := List.append_eq_append_iff.mp begins
  · simp at longer
  · rcases c with _ | ⟨x, c⟩
    · simp at longer
    · simp only [List.cons_append, List.cons.injEq] at split
      exact free (by simp [split.1])

/-- Two separator-free pieces, each followed by nothing or by `sep`, are equal when
one stream begins with both: a path names its first component once. -/
theorem eq_of_begins {a b r s : List α} (aFree : sep ∉ a) (bFree : sep ∉ b)
    (ra : r = [] ∨ ∃ t, r = sep :: t) (sb : s = [] ∨ ∃ t, s = sep :: t) (same : a ++ r = b ++ s) :
    a = b := by
  rcases ra with rfl | ⟨t, rfl⟩ <;> rcases sb with rfl | ⟨t', rfl⟩
  · simpa using same
  · exact absurd (show sep ∈ a by rw [← List.append_nil a, same]; simp) aFree
  · exact absurd (show sep ∈ b by rw [← List.append_nil b, ← same]; simp) bFree
  · have ab := length_le_of_begins aFree same
    have ba := length_le_of_begins bFree same.symm
    exact (List.append_inj same (by omega)).1

/-- **Cut rule.** Wherever a stream of records and a last piece is cut, the part
before the cut is some first records and a piece without separator, and that
piece begins the rest of the stream. -/
theorem cut_join {records : List (List α)} {last before after : List α}
    (free : ∀ r ∈ records, sep ∉ r) (lastFree : sep ∉ last)
    (cut : before ++ after = join sep records ++ last) :
    ∃ k tail, before = join sep (records.take k) ++ tail ∧ sep ∉ tail ∧
      tail ++ after = join sep (records.drop k) ++ last := by
  induction records generalizing before with
  | nil =>
    refine ⟨0, before, rfl, fun inside => lastFree ?_, by simpa using cut⟩
    simp only [join_nil, List.nil_append] at cut
    rw [← cut]
    exact List.mem_append_left after inside
  | cons r rs ih =>
    rw [join_cons, List.append_assoc] at cut
    obtain ⟨c, split, rest⟩ | ⟨c, split, rest⟩ := List.append_eq_append_iff.mp cut
    · -- the cut falls within `r` or right before its separator
      refine ⟨0, before, rfl, fun inside => (free r (by simp)) ?_, by simpa [List.append_assoc] using cut⟩
      rw [split]
      exact List.mem_append_left c inside
    · rcases c with _ | ⟨x, c⟩
      · refine ⟨0, before, rfl, fun inside => (free r (by simp)) ?_, by simpa [List.append_assoc] using cut⟩
        simpa [split] using inside
      · -- the cut is past the separator of `r`: the rest of the records decide
        simp only [List.cons_append, List.cons.injEq] at rest
        obtain ⟨rfl, rest⟩ := rest
        obtain ⟨k, tail, rfl, tailFree, after'⟩ :=
          ih (fun r' inside => free r' (by simp [inside])) rest.symm
        refine ⟨k + 1, tail, ?_, tailFree, after'⟩
        rw [split, List.take_succ_cons, join_cons]
        simp

end Records
