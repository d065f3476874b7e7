import Mathlib.Computability.Language

/-!
Contract: where a word of a language occurs in a text, as a backtracking matcher
asks it: at the start of the text or anywhere, reaching its end or not.

`letters p` is the language of the one-letter words whose letter passes `p`; a
pattern made of single letters and starred single letters means a product of
such languages and of their Kleene stars. `StartsWith L whole text` says that a
word of `L` begins `text`, and is all of it when `whole`; `Occurs` says that one
is a factor of `text`, pinned to its start or to its end or not.

Owns: `letters`, `StartsWith`, `Occurs` and how `StartsWith` goes through `1`,
products, one letter and the star of letters.

Names nothing of the system it is used for.
-/

namespace Language

open Computability

variable {α : Type*}

/-- The one-letter words whose letter passes `p`. -/
def letters (p : α → Prop) : Language α := {w | ∃ x, p x ∧ w = [x]}

/-- A word of `L` begins `text`, and is all of it when `whole`. -/
def StartsWith (L : Language α) (whole : Bool) (text : List α) : Prop :=
  ∃ w rest, text = w ++ rest ∧ w ∈ L ∧ (whole → rest = [])

/-- A word of `L` is a factor of `text`, at its start when `first` and at its end
when `last`. -/
def Occurs (L : Language α) (first last : Bool) (text : List α) : Prop :=
  ∃ pre w post, text = pre ++ w ++ post ∧ w ∈ L ∧ (first → pre = []) ∧ (last → post = [])

variable {p : α → Prop} {L A B : Language α} {whole : Bool}

/-- A word is in the star of some letters when each of its letters is one. -/
theorem mem_kstar_letters {w : List α} : w ∈ (letters p)∗ ↔ ∀ x ∈ w, p x := by
  rw [mem_kstar]
  constructor
  · rintro ⟨S, rfl, each⟩ x mem
    obtain ⟨y, inS, inY⟩ := List.mem_flatten.mp mem
    obtain ⟨z, passes, rfl⟩ := each y inS
    rw [List.mem_singleton.mp inY]
    exact passes
  · intro all
    have split : ∀ v : List α, v = (v.map fun x => [x]).flatten := by
      intro v
      induction v with
      | nil => rfl
      | cons x v ih => exact congrArg (List.cons x) ih
    refine ⟨w.map fun x => [x], split w, fun y inMap => ?_⟩
    obtain ⟨x, inW, rfl⟩ := List.mem_map.mp inMap
    exact ⟨x, all x inW, rfl⟩

theorem startsWith_one {text : List α} : StartsWith 1 whole text ↔ (whole → text = []) := by
  constructor
  · rintro ⟨w, rest, rfl, empty, all⟩ isWhole
    rw [(mem_one w).mp empty, all isWhole]
    rfl
  · intro all
    exact ⟨[], text, rfl, (mem_one _).mpr rfl, all⟩

/-- A word of a product begins the text when a word of the first factor does and
one of the second begins the rest. -/
theorem startsWith_mul {text : List α} :
    StartsWith (A * B) whole text ↔ ∃ a rest, text = a ++ rest ∧ a ∈ A ∧ StartsWith B whole rest := by
  constructor
  · rintro ⟨w, post, rfl, inAB, all⟩
    obtain ⟨a, inA, b, inB, rfl⟩ := mem_mul.mp inAB
    exact ⟨a, b ++ post, List.append_assoc a b post, inA, b, post, rfl, inB, all⟩
  · rintro ⟨a, rest, rfl, inA, b, post, rfl, inB, all⟩
    exact ⟨a ++ b, post, (List.append_assoc a b post).symm, append_mem_mul inA inB, all⟩

theorem startsWith_letters_mul {x : α} {text : List α} :
    StartsWith (letters p * B) whole (x :: text) ↔ p x ∧ StartsWith B whole text := by
  rw [startsWith_mul]
  constructor
  · rintro ⟨a, rest, split, ⟨y, passes, rfl⟩, starts⟩
    obtain ⟨rfl, rfl⟩ := List.cons_eq_cons.mp split
    exact ⟨passes, starts⟩
  · rintro ⟨passes, starts⟩
    exact ⟨[x], text, rfl, ⟨x, passes, rfl⟩, starts⟩

theorem not_startsWith_letters_mul_nil : ¬ StartsWith (letters p * B) whole [] := by
  rw [startsWith_mul]
  rintro ⟨a, rest, split, ⟨y, _, rfl⟩, _⟩
  simp at split

/-- Under a star of letters, a word of the product begins the text when some
first letters of it pass and a word of the second factor begins the rest. -/
theorem startsWith_kstar_mul {text : List α} :
    StartsWith ((letters p)∗ * B) whole text ↔
      ∃ n ≤ text.length, (∀ x ∈ text.take n, p x) ∧ StartsWith B whole (text.drop n) := by
  rw [startsWith_mul]
  constructor
  · rintro ⟨a, rest, rfl, inStar, starts⟩
    refine ⟨a.length, by simp, ?_, ?_⟩
    · rw [List.take_left]
      exact mem_kstar_letters.mp inStar
    · rw [List.drop_left]
      exact starts
  · rintro ⟨n, _, all, starts⟩
    exact ⟨text.take n, text.drop n, (List.take_append_drop n text).symm, mem_kstar_letters.mpr all, starts⟩

theorem occurs_start {text : List α} {last : Bool} : Occurs L true last text ↔ StartsWith L last text := by
  constructor
  · rintro ⟨pre, w, post, rfl, inL, first, all⟩
    rw [first rfl]
    exact ⟨w, post, rfl, inL, all⟩
  · rintro ⟨w, post, rfl, inL, all⟩
    exact ⟨[], w, post, rfl, inL, fun _ => rfl, all⟩

theorem occurs_anywhere {text : List α} {last : Bool} :
    Occurs L false last text ↔ ∃ pre s, text = pre ++ s ∧ StartsWith L last s := by
  constructor
  · rintro ⟨pre, w, post, rfl, inL, -, all⟩
    exact ⟨pre, w ++ post, List.append_assoc pre w post, w, post, rfl, inL, all⟩
  · rintro ⟨pre, s, rfl, w, post, rfl, inL, all⟩
    exact ⟨pre, w, post, (List.append_assoc pre w post).symm, inL, by simp, all⟩

end Language
