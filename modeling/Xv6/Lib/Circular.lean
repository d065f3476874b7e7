import Mathlib

/-!
Contract: a circular singly linked list kept in key order, as an allocator keeps
its free list sorted by address.

The elements are a list `a :: l` whose first element `a` has the lowest key. A
map `next` on keys leads from each element's key to the key of the element after
it, and from the last one's back to `a`'s: `Links next key (a :: l ++ [a])`.

A scan for the place of a new key `k` walks the ring and stops at the first
element `p` that passes `InGap next k p`: `k` lies between `p` and its successor,
or `p` is the highest element and `k` lies beyond either end. In a sorted ring
that place is where `k` splits the list (`Links.split_of_gap`).

Owns: `Links`, `InGap`, and the rules for agreement (`Links.congr`), splicing
(`Links.splice`), closure (`Links.next_mem`), the successor of an element
(`Links.split_next`) and the insertion point (`Links.split_of_gap`); and
`isChain_swap_last` for chains in general.

Names nothing of the system it is used for.
-/

namespace Circular

variable {α κ : Type*}

/-- Following `next` from each element's key leads to the key of the element
after it. -/
def Links (next : κ → κ) (key : α → κ) (l : List α) : Prop :=
  l.IsChain fun x y => next (key x) = key y

/-- The scan's test for a new key `k` after the key `p`. -/
def InGap [LinearOrder κ] (next : κ → κ) (k p : κ) : Prop :=
  (p < k ∧ k < next p) ∨ (next p ≤ p ∧ (p < k ∨ k < next p))

/-- The last element of a chain may be swapped for one that every element relates
to whenever it related to the old one. -/
theorem isChain_swap_last {R : α → α → Prop} {z z' : α} (swap : ∀ x, R x z → R x z') :
    ∀ {l : List α}, (l ++ [z]).IsChain R → (l ++ [z']).IsChain R
  | [], _ => List.isChain_singleton z'
  | [x], chain => by
    simp only [List.cons_append, List.nil_append, List.isChain_pair] at chain ⊢
    exact swap x chain
  | x :: y :: l, chain => by
    simp only [List.cons_append, List.isChain_cons_cons] at chain ⊢
    exact ⟨chain.1, isChain_swap_last swap (l := y :: l) chain.2⟩

variable {next : κ → κ} {key : α → κ}

/-- **Agreement.** The links out of `l` read only `next` at the keys of `l`; the
last element may be swapped for one of the same key. -/
theorem Links.congr {next' : κ → κ} {z z' : α} (same : key z' = key z) :
    ∀ {l : List α}, Links next key (l ++ [z]) → (∀ x ∈ l, next' (key x) = next (key x)) →
      Links next' key (l ++ [z'])
  | [], _, _ => List.isChain_singleton z'
  | x :: l, links, agree => by
    rw [Links, List.cons_append, List.isChain_cons] at links ⊢
    refine ⟨fun y first => ?_, Links.congr same links.2 fun w inside => agree w (List.mem_cons_of_mem x inside)⟩
    cases l with
    | nil =>
      simp only [List.nil_append, List.head?_cons, Option.mem_def, Option.some.injEq] at links first ⊢
      rw [← first, same, agree x List.mem_cons_self]
      exact links.1 z rfl
    | cons w l =>
      simp only [List.cons_append, List.head?_cons, Option.mem_def, Option.some.injEq] at links first ⊢
      rw [← first, agree x List.mem_cons_self]
      exact links.1 w rfl

/-- **Splice.** A prefix that ran into `p` keeps its links under a `next'` that
agrees on it, and from `p`'s key `next'` leads into a new rest `r`. -/
theorem Links.splice {next' : κ → κ} {l₁ r : List α} {p p' : α} (old : Links next key (l₁ ++ [p]))
    (agree : ∀ x ∈ l₁, next' (key x) = next (key x)) (same : key p' = key p)
    (link : ∀ y ∈ r.head?, next' (key p') = key y) (rest : Links next' key r) :
    Links next' key (l₁ ++ p' :: r) :=
  List.isChain_split.2 ⟨old.congr same agree, List.isChain_cons.2 ⟨link, rest⟩⟩

/-- **Successor.** In `C ++ [a]`, an element of `C` whose `next` is not `a`'s key
is followed in `C` by the element of that key. -/
theorem Links.split_next {C : List α} {a x : α} (links : Links next key (C ++ [a])) (mem : x ∈ C)
    (ne : next (key x) ≠ key a) : ∃ l₁ y l₂, C = l₁ ++ x :: y :: l₂ ∧ next (key x) = key y := by
  obtain ⟨l₁, l₂, split⟩ := List.append_of_mem mem
  rw [split, List.append_assoc, List.cons_append] at links
  have tail := (List.isChain_split.1 links).2
  cases l₂ with
  | nil =>
    simp only [List.nil_append, List.isChain_pair] at tail
    exact absurd tail ne
  | cons y l₂ =>
    simp only [List.cons_append, List.isChain_cons_cons] at tail
    exact ⟨l₁, y, l₂, split, tail.1⟩

/-- **Closure.** Following `next` from an element of the ring reaches an element
of the ring. -/
theorem Links.next_mem {a : α} {l : List α} (links : Links next key (a :: l ++ [a])) {x : α}
    (mem : x ∈ a :: l) : ∃ y ∈ a :: l, next (key x) = key y := by
  by_cases home : next (key x) = key a
  · exact ⟨a, List.mem_cons_self, home⟩
  · obtain ⟨l₁, y, l₂, split, step⟩ := links.split_next mem home
    exact ⟨y, by rw [split]; simp, step⟩

variable [LinearOrder κ]

/-- **Insertion point.** In a ring sorted by key, the element where the scan for a
key above the lowest one stops splits the ring at that key: it is below the key,
and every element after it is above. -/
theorem Links.split_of_gap {a p : α} {l : List α} {k : κ} (links : Links next key (a :: l ++ [a]))
    (sorted : (a :: l).Pairwise fun x y => key x < key y) (mem : p ∈ a :: l) (above : key a < k)
    (gap : InGap next k (key p)) :
    ∃ l₁ l₂, a :: l = l₁ ++ p :: l₂ ∧ key p < k ∧ ∀ y ∈ l₂, k < key y := by
  obtain ⟨l₁, l₂, split⟩ := List.append_of_mem mem
  rw [split, List.append_assoc, List.cons_append] at links
  rw [split] at sorted
  have tail := (List.isChain_split.1 links).2
  have later : ∀ y ∈ l₂, key p < key y := (List.pairwise_cons.1 (List.pairwise_append.1 sorted).2.1).1
  cases l₂ with
  | nil =>
    simp only [List.nil_append, List.isChain_pair] at tail
    rw [InGap, tail] at gap
    have below : key p < k := by
      rcases gap with ⟨below, -⟩ | ⟨-, below | beyond⟩
      · exact below
      · exact below
      · exact absurd beyond (not_lt.2 above.le)
    exact ⟨l₁, [], split, below, fun _ none => absurd none List.not_mem_nil⟩
  | cons c l₂ =>
    simp only [List.cons_append, List.isChain_cons_cons] at tail
    rw [InGap, tail.1] at gap
    have ordered : key p < key c := later c List.mem_cons_self
    have between : key p < k ∧ k < key c := by
      rcases gap with between | ⟨wrapped, -⟩
      · exact between
      · exact absurd ordered (not_lt.2 wrapped)
    have rest : ∀ y ∈ l₂, key c < key y :=
      (List.pairwise_cons.1 (List.pairwise_cons.1 (List.pairwise_append.1 sorted).2.1).2).1
    refine ⟨l₁, c :: l₂, split, between.1, fun y mem => ?_⟩
    rcases List.mem_cons.1 mem with rfl | inRest
    · exact between.2
    · exact between.2.trans (rest y inRest)

end Circular
