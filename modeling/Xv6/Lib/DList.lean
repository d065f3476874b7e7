import Mathlib.Data.List.Nodup
import Mathlib.Logic.Function.Basic

/-!
Contract: circular doubly linked lists with a sentinel, as pointer arrays.

Nodes are the values of a type `ι`; a pointer is an `Option ι`, where `none`
is the sentinel (the list head). A list is well formed when its `next` and
`prev` arrays are those of some order of its nodes: `next` of the sentinel is
the first node, `next` of the last node is the sentinel, and `prev` is `next`
of the reversed order.

Owns:
- `succ?` (the node after a node in an order) and its laws under `erase` and
  `reverse`;
- `Links`, `linksOf`, and the two pointer operations every such list is built
  from: `unlink` and `pushFront`, with the theorem that moving a node to the
  front by the two of them is `b :: order.erase b`;
- `scan`, a walk along the pointers with a bound on its length, and the
  theorem that over a well-formed list it is `List.find?`.

Names nothing of the system it is used for.
-/

namespace DList

/-! ### Orders and adjacency -/

/-- `a` immediately followed by `c` somewhere in `order`. -/
def Adjacent {ι : Type*} (order : List ι) (a c : ι) : Prop :=
  ∃ pre post, order = pre ++ a :: c :: post

theorem adjacent_reverse {ι : Type*} {order : List ι} {a c : ι} :
    Adjacent order.reverse c a ↔ Adjacent order a c := by
  constructor
  · rintro ⟨pre, post, split⟩
    refine ⟨post.reverse, pre.reverse, ?_⟩
    rw [← List.reverse_reverse order, split]
    simp
  · rintro ⟨pre, post, rfl⟩
    exact ⟨post.reverse, pre.reverse, by simp⟩

variable {ι : Type*} [DecidableEq ι]

/-- The node after `a` in `order`; `none` when `a` is last (its successor is
the sentinel) or absent. -/
def succ? : List ι → ι → Option ι
  | [], _ => none
  | x :: rest, a => if x = a then rest.head? else succ? rest a

@[simp] theorem succ?_nil (a : ι) : succ? [] a = none := rfl

theorem succ?_cons_self (a : ι) (rest : List ι) : succ? (a :: rest) a = rest.head? := by
  simp [succ?]

theorem succ?_cons_of_ne {x a : ι} (rest : List ι) (different : x ≠ a) :
    succ? (x :: rest) a = succ? rest a := by
  simp [succ?, different]

theorem succ?_of_not_mem : ∀ {order : List ι} {a : ι}, a ∉ order → succ? order a = none
  | [], _, _ => rfl
  | x :: rest, _, absent => by
      rw [succ?_cons_of_ne rest (List.ne_of_not_mem_cons absent).symm]
      exact succ?_of_not_mem (List.not_mem_of_not_mem_cons absent)

theorem mem_of_succ?_eq_some : ∀ {order : List ι} {a c : ι}, succ? order a = some c → c ∈ order
  | [], _, _, found => by simp at found
  | x :: rest, a, c, found => by
      by_cases first : x = a
      · subst first
        rw [succ?_cons_self] at found
        cases rest with
        | nil => simp at found
        | cons y rest => simp_all
      · rw [succ?_cons_of_ne rest first] at found
        exact List.mem_cons_of_mem x (mem_of_succ?_eq_some found)

theorem succ?_append_cons : ∀ {pre : List ι} {x : ι} (rest : List ι), x ∉ pre →
    succ? (pre ++ x :: rest) x = rest.head?
  | [], x, rest, _ => succ?_cons_self x rest
  | y :: pre, x, rest, fresh => by
      rw [List.cons_append, succ?_cons_of_ne _ (List.ne_of_not_mem_cons fresh).symm]
      exact succ?_append_cons rest (List.not_mem_of_not_mem_cons fresh)

theorem succ?_eq_some_iff : ∀ {order : List ι} (_ : order.Nodup) {a c : ι},
    succ? order a = some c ↔ Adjacent order a c
  | [], _, a, c => by simp [Adjacent]
  | x :: rest, nodup, a, c => by
      rw [List.nodup_cons] at nodup
      by_cases first : x = a
      · subst first
        rw [succ?_cons_self]
        constructor
        · intro found
          cases rest with
          | nil => simp at found
          | cons y post =>
              simp only [List.head?_cons, Option.some.injEq] at found
              exact ⟨[], post, by simp [found]⟩
        · rintro ⟨pre, post, split⟩
          cases pre with
          | nil =>
              simp only [List.nil_append, List.cons.injEq] at split
              simp [split.2]
          | cons y pre =>
              simp only [List.cons_append, List.cons.injEq] at split
              exact absurd (split.2 ▸ List.mem_append_right pre List.mem_cons_self) nodup.1
      · rw [succ?_cons_of_ne rest first, succ?_eq_some_iff nodup.2]
        constructor
        · rintro ⟨pre, post, split⟩
          exact ⟨x :: pre, post, by simp [split]⟩
        · rintro ⟨pre, post, split⟩
          cases pre with
          | nil => simp only [List.nil_append, List.cons.injEq] at split; exact absurd split.1 first
          | cons y pre =>
              simp only [List.cons_append, List.cons.injEq] at split
              exact ⟨pre, post, split.2⟩

theorem succ?_ne_self {order : List ι} (nodup : order.Nodup) (b : ι) : succ? order b ≠ some b := by
  intro self
  obtain ⟨pre, post, split⟩ := (succ?_eq_some_iff nodup).mp self
  rw [split] at nodup
  exact (List.nodup_cons.mp nodup.of_append_right).1 List.mem_cons_self

/-- Adjacency read backwards: `c` follows `a` iff `a` follows `c` in the
reversed order. -/
theorem succ?_reverse_eq_some_iff {order : List ι} (nodup : order.Nodup) {a c : ι} :
    succ? order.reverse c = some a ↔ succ? order a = some c := by
  rw [succ?_eq_some_iff (List.nodup_reverse.mpr nodup), succ?_eq_some_iff nodup,
    adjacent_reverse]

/-- A node of the order has no successor exactly when it is last. -/
theorem succ?_eq_none_iff : ∀ {order : List ι} (_ : order.Nodup) {b : ι} (_ : b ∈ order),
    succ? order b = none ↔ order.getLast? = some b
  | [], _, _, member => by simp at member
  | x :: rest, nodup, b, member => by
      rw [List.nodup_cons] at nodup
      by_cases first : x = b
      · subst first
        rw [succ?_cons_self]
        cases rest with
        | nil => simp
        | cons y rest =>
            have last : (y :: rest).getLast? ≠ some x :=
              fun found => nodup.1 (List.mem_of_getLast? found)
            simp [List.getLast?_cons_cons, last]
      · have inRest : b ∈ rest := (List.mem_cons.mp member).resolve_left (Ne.symm first)
        have nonempty : rest ≠ [] := List.ne_nil_of_mem inRest
        rw [succ?_cons_of_ne rest first, succ?_eq_none_iff nodup.2 inRest]
        obtain ⟨y, rest', rfl⟩ := List.exists_cons_of_ne_nil nonempty
        rw [List.getLast?_cons_cons]

/-- A node of the order has no predecessor exactly when it is first. -/
theorem succ?_reverse_eq_none_iff {order : List ι} (nodup : order.Nodup) {b : ι}
    (member : b ∈ order) : succ? order.reverse b = none ↔ order.head? = some b := by
  rw [succ?_eq_none_iff (List.nodup_reverse.mpr nodup) (List.mem_reverse.mpr member),
    List.getLast?_reverse]

theorem head?_erase : ∀ (order : List ι) (b : ι),
    (order.erase b).head? = if order.head? = some b then succ? order b else order.head?
  | [], _ => rfl
  | x :: rest, b => by
      by_cases first : x = b
      · subst first; simp [succ?_cons_self]
      · rw [List.erase_cons_tail (by simpa using first)]
        simp [first]

/-- Erasing `b` joins its predecessor to its successor and changes no other
successor. -/
theorem succ?_erase : ∀ {order : List ι} (_ : order.Nodup) {a b : ι} (_ : a ≠ b),
    succ? (order.erase b) a = if succ? order a = some b then succ? order b else succ? order a
  | [], _, a, b, _ => by simp
  | x :: rest, nodup, a, b, different => by
      rw [List.nodup_cons] at nodup
      by_cases first : x = b
      · subst first
        rw [List.erase_cons_head, succ?_cons_of_ne rest different.symm]
        have notB : succ? rest a ≠ some x := fun found => nodup.1 (mem_of_succ?_eq_some found)
        simp [notB]
      · rw [List.erase_cons_tail (by simpa using first)]
        by_cases here : x = a
        · subst here
          rw [succ?_cons_self, succ?_cons_self, head?_erase, succ?_cons_of_ne rest first]
        · rw [succ?_cons_of_ne _ here, succ?_cons_of_ne _ here, succ?_cons_of_ne _ first]
          exact succ?_erase nodup.2 different

theorem erase_reverse {order : List ι} (nodup : order.Nodup) (b : ι) :
    order.reverse.erase b = (order.erase b).reverse := by
  rw [(List.nodup_reverse.mpr nodup).erase_eq_filter, nodup.erase_eq_filter, List.filter_reverse]

/-! ### Pointer arrays -/

/-- The `next` and `prev` pointers of the sentinel (`none`) and of every node. -/
structure Links (ι : Type*) where
  next : Option ι → Option ι
  prev : Option ι → Option ι

/-- The successor array of an order: the sentinel points at the first node, the
last node at the sentinel. -/
def nextOf (order : List ι) : Option ι → Option ι
  | none => order.head?
  | some a => succ? order a

/-- The pointer arrays of the circular list whose nodes, from the sentinel on,
are `order`. -/
def linksOf (order : List ι) : Links ι := ⟨nextOf order, nextOf order.reverse⟩

theorem linksOf_nil : linksOf ([] : List ι) = ⟨fun _ => none, fun _ => none⟩ := by
  have empty : nextOf ([] : List ι) = fun _ => none := by
    funext x
    cases x <;> rfl
  simp [linksOf, empty]

/-- Take `b` out: `b->next->prev = b->prev; b->prev->next = b->next`. -/
def unlink (links : Links ι) (b : ι) : Links ι :=
  let prev := Function.update links.prev (links.next (some b)) (links.prev (some b))
  let next := Function.update links.next (prev (some b)) (links.next (some b))
  ⟨next, prev⟩

/-- Put `b` after the sentinel: `b->next = head.next; b->prev = &head;
head.next->prev = b; head.next = b`. -/
def pushFront (links : Links ι) (b : ι) : Links ι :=
  let next := Function.update links.next (some b) (links.next none)
  let prev := Function.update links.prev (some b) none
  let prev := Function.update prev (next none) (some b)
  ⟨Function.update next none (some b), prev⟩

/-! ### Moving a node to the front -/

/-- Erasing `b`: the node before `b` (the sentinel if `b` was first) now points
at `b`'s successor, and every other successor is unchanged. -/
theorem nextOf_erase {order : List ι} (nodup : order.Nodup) {b : ι} (member : b ∈ order)
    {x : Option ι} (notB : x ≠ some b) :
    nextOf (order.erase b) x
      = if x = nextOf order.reverse (some b) then nextOf order (some b) else nextOf order x := by
  cases x with
  | none =>
      show (order.erase b).head?
        = if none = succ? order.reverse b then succ? order b else order.head?
      have first : order.head? = some b ↔ none = succ? order.reverse b :=
        (succ?_reverse_eq_none_iff nodup member).symm.trans eq_comm
      rw [head?_erase]
      by_cases isFirst : order.head? = some b
      · rw [if_pos isFirst, if_pos (first.mp isFirst)]
      · rw [if_neg isFirst, if_neg (mt first.mpr isFirst)]
  | some a =>
      have different : a ≠ b := fun same => notB (congrArg some same)
      show succ? (order.erase b) a
        = if some a = succ? order.reverse b then succ? order b else succ? order a
      have before : succ? order a = some b ↔ some a = succ? order.reverse b :=
        (succ?_reverse_eq_some_iff nodup).symm.trans eq_comm
      rw [succ?_erase nodup different]
      by_cases isBefore : succ? order a = some b
      · rw [if_pos isBefore, if_pos (before.mp isBefore)]
      · rw [if_neg isBefore, if_neg (mt before.mpr isBefore)]

section Unlink

variable {order : List ι} (nodup : order.Nodup) {b : ι} (member : b ∈ order)
include nodup member

/-- After `unlink`, the forward pointers are those of the order without `b`,
except `b`'s own. -/
theorem unlink_linksOf_next {x : Option ι} (notB : x ≠ some b) :
    (unlink (linksOf order) b).next x = nextOf (order.erase b) x := by
  have stays : Function.update (nextOf order.reverse) (nextOf order (some b))
      (nextOf order.reverse (some b)) (some b) = nextOf order.reverse (some b) :=
    Function.update_of_ne (fun same => succ?_ne_self nodup b same.symm) _ _
  show Function.update (nextOf order) (Function.update (nextOf order.reverse)
      (nextOf order (some b)) (nextOf order.reverse (some b)) (some b)) (nextOf order (some b)) x
    = _
  rw [stays, Function.update_apply, nextOf_erase nodup member notB]

/-- After `unlink`, the backward pointers are those of the order without `b`,
except `b`'s own. -/
theorem unlink_linksOf_prev {x : Option ι} (notB : x ≠ some b) :
    (unlink (linksOf order) b).prev x = nextOf (order.erase b).reverse x := by
  show Function.update (nextOf order.reverse) (nextOf order (some b))
      (nextOf order.reverse (some b)) x = _
  have reversed := nextOf_erase (List.nodup_reverse.mpr nodup) (List.mem_reverse.mpr member) notB
  rw [List.reverse_reverse, erase_reverse nodup] at reversed
  rw [Function.update_apply, reversed]

end Unlink

/-- `pushFront` reads no pointer of `b` itself, so it cannot tell apart two
arrays that differ only there. -/
theorem pushFront_congr {links links' : Links ι} {b : ι}
    (next : ∀ x, x ≠ some b → links.next x = links'.next x)
    (prev : ∀ x, x ≠ some b → links.prev x = links'.prev x) :
    pushFront links b = pushFront links' b := by
  have head : links.next none = links'.next none := next none (Option.some_ne_none b).symm
  have nextEq : Function.update links.next (some b) (links.next none)
      = Function.update links'.next (some b) (links'.next none) := by
    funext x
    by_cases same : x = some b
    · subst same
      simp [head]
    · simp [Function.update_of_ne same, next x same]
  have prevEq : Function.update links.prev (some b) none
      = Function.update links'.prev (some b) none := by
    funext x
    by_cases same : x = some b
    · subst same
      simp
    · simp [Function.update_of_ne same, prev x same]
  simp only [pushFront, nextEq, prevEq]

/-- A node that is not first in `b :: order` keeps its predecessor from `order`. -/
theorem succ?_reverse_cons {order : List ι} (nodup : order.Nodup) {b a : ι} (fresh : b ∉ order)
    (notFirst : order.head? ≠ some a) :
    succ? (b :: order).reverse a = succ? order.reverse a := by
  have nodup' : (b :: order).Nodup := List.nodup_cons.mpr ⟨fresh, nodup⟩
  apply Option.ext
  intro c
  rw [succ?_reverse_eq_some_iff nodup', succ?_reverse_eq_some_iff nodup]
  by_cases same : b = c
  · subst same
    rw [succ?_cons_self, succ?_of_not_mem fresh]
    simp [notFirst]
  · rw [succ?_cons_of_ne order same]

/-- Pushing a fresh node makes it the first of the order. -/
theorem pushFront_linksOf {order : List ι} (nodup : order.Nodup) {b : ι} (fresh : b ∉ order) :
    pushFront (linksOf order) b = linksOf (b :: order) := by
  have nodup' : (b :: order).Nodup := List.nodup_cons.mpr ⟨fresh, nodup⟩
  have nextEq : Function.update (Function.update (nextOf order) (some b) order.head?) none (some b)
      = nextOf (b :: order) := by
    funext x
    rcases x with _ | a
    · rfl
    · by_cases same : a = b
      · subst same
        simp [nextOf, succ?_cons_self]
      · simp [nextOf, same, succ?_cons_of_ne order (Ne.symm same)]
  have prevEq : Function.update (Function.update (nextOf order.reverse) (some b) none)
      order.head? (some b) = nextOf (b :: order).reverse := by
    funext x
    by_cases first : x = order.head?
    · subst first
      rw [Function.update_self]
      cases order with
      | nil => rfl
      | cons c rest =>
          show some b = succ? (b :: c :: rest).reverse c
          rw [eq_comm, succ?_reverse_eq_some_iff nodup', succ?_cons_self, List.head?_cons]
    · rw [Function.update_of_ne first]
      rcases x with _ | a
      · have nonempty : order ≠ [] := fun empty => first (by rw [empty]; rfl)
        obtain ⟨c, rest, rfl⟩ := List.exists_cons_of_ne_nil nonempty
        rw [Function.update_of_ne (Option.some_ne_none b).symm]
        simp [nextOf]
      · by_cases same : a = b
        · subst same
          rw [Function.update_self]
          exact ((succ?_reverse_eq_none_iff nodup' List.mem_cons_self).mpr rfl).symm
        · rw [Function.update_of_ne (fun eq => same (Option.some.inj eq))]
          exact (succ?_reverse_cons nodup fresh (Ne.symm first)).symm
  have headNext : Function.update (nextOf order) (some b) order.head? none = order.head? :=
    Function.update_of_ne (Option.some_ne_none b).symm _ _
  show (⟨Function.update (Function.update (nextOf order) (some b) order.head?) none (some b),
      Function.update (Function.update (nextOf order.reverse) (some b) none)
        (Function.update (nextOf order) (some b) order.head? none) (some b)⟩ : Links ι)
    = linksOf (b :: order)
  rw [headNext, nextEq, prevEq]
  rfl

/-- `brelse`'s relinking: unlinking `b` and pushing it at the front moves it to
the front of the order. -/
theorem pushFront_unlink {order : List ι} (nodup : order.Nodup) {b : ι} (member : b ∈ order) :
    pushFront (unlink (linksOf order) b) b = linksOf (b :: order.erase b) := by
  rw [← pushFront_linksOf (nodup.erase b) nodup.not_mem_erase]
  exact pushFront_congr (fun _ notB => unlink_linksOf_next nodup member notB)
    (fun _ notB => unlink_linksOf_prev nodup member notB)

/-- Pushing fresh nodes one after another builds the list in reverse. -/
theorem foldl_pushFront : ∀ (nodes acc : List ι), (nodes.reverse ++ acc).Nodup →
    nodes.foldl pushFront (linksOf acc) = linksOf (nodes.reverse ++ acc)
  | [], _, _ => rfl
  | b :: nodes, acc, nodup => by
      have shape : (b :: nodes).reverse ++ acc = nodes.reverse ++ b :: acc := by simp
      rw [shape] at nodup
      have tail : (b :: acc).Nodup := nodup.of_append_right
      rw [List.foldl_cons, pushFront_linksOf (List.nodup_cons.mp tail).2 (List.nodup_cons.mp tail).1,
        foldl_pushFront nodes (b :: acc) nodup, shape]

/-! ### Walking the list -/

/-- Follow `link` from `cur` to the first node that is `wanted`, stopping at the
sentinel or after `fuel` nodes. -/
def scan (link : Option ι → Option ι) (wanted : ι → Bool) : Nat → Option ι → Option ι
  | 0, _ => none
  | _ + 1, none => none
  | fuel + 1, some b => if wanted b then some b else scan link wanted fuel (link (some b))

omit [DecidableEq ι] in
/-- Whatever a walk returns is wanted. -/
theorem scan_wanted {link : Option ι → Option ι} {wanted : ι → Bool} :
    ∀ {fuel : Nat} {cur : Option ι} {b : ι}, scan link wanted fuel cur = some b → wanted b = true
  | 0, _, _, found => by simp [scan] at found
  | _ + 1, none, _, found => by simp [scan] at found
  | fuel + 1, some c, b, found => by
      by_cases hit : wanted c = true
      · rw [scan, if_pos hit] at found
        exact Option.some.inj found ▸ hit
      · rw [scan, if_neg hit] at found
        exact scan_wanted found

/-- Along a well-formed list, a walk with enough fuel from a node of the order
is `find?` on the rest of the order. -/
theorem scan_nextOf_suffix {order : List ι} (nodup : order.Nodup) (wanted : ι → Bool) :
    ∀ (rest pre : List ι) (fuel : Nat), order = pre ++ rest → rest.length < fuel →
      scan (nextOf order) wanted fuel rest.head? = rest.find? wanted
  | _, _, 0, _, room => absurd room (Nat.not_lt_zero _)
  | [], _, _ + 1, _, _ => rfl
  | x :: rest, pre, fuel + 1, split, room => by
      have fresh : x ∉ pre := fun member =>
        List.disjoint_of_nodup_append (split ▸ nodup) member List.mem_cons_self
      have next : nextOf order (some x) = rest.head? := by
        rw [split]
        exact succ?_append_cons rest fresh
      show (if wanted x then some x else scan (nextOf order) wanted fuel (nextOf order (some x)))
        = (x :: rest).find? wanted
      rw [next, List.find?_cons]
      cases wanted x with
      | true => rfl
      | false =>
          exact scan_nextOf_suffix nodup wanted rest (pre ++ [x]) fuel (by simp [split])
            (by simp at room; omega)

/-! The walks return `find?`s; these are the facts about `find?` that the walks'
callers need when the tested property or the order changes. -/

omit [DecidableEq ι] in
/-- A stronger test finds the same node, if that node passes it. -/
theorem find?_of_imp {wanted stronger : ι → Bool} {order : List ι} {b : ι}
    (imp : ∀ c, stronger c = true → wanted c = true) (passes : stronger b = true)
    (found : order.find? wanted = some b) : order.find? stronger = some b := by
  obtain ⟨_, pre, post, split, before⟩ := List.find?_eq_some_iff_append.mp found
  refine List.find?_eq_some_iff_append.mpr ⟨passes, pre, post, split, ?_⟩
  intro c member
  have missed := before c member
  cases hit : stronger c with
  | false => rfl
  | true => simp [imp c hit] at missed

omit [DecidableEq ι] in
/-- The only node of the order that passes is found. -/
theorem find?_of_unique {wanted : ι → Bool} {order : List ι} {b : ι} (member : b ∈ order)
    (passes : wanted b = true) (unique : ∀ c ∈ order, wanted c = true → c = b) :
    order.find? wanted = some b := by
  cases found : order.find? wanted with
  | none => exact absurd passes (by simpa using List.find?_eq_none.mp found b member)
  | some c =>
      rw [unique c (List.mem_of_find?_eq_some found) (List.find?_some found)]

/-- Erasing a node that fails the test does not change what is found. -/
theorem find?_erase_of_false {wanted : ι → Bool} {b : ι} (fails : wanted b = false) :
    ∀ order : List ι, (order.erase b).find? wanted = order.find? wanted
  | [] => rfl
  | x :: rest => by
      by_cases first : x = b
      · subst first
        rw [List.erase_cons_head, List.find?_cons, fails]
      · rw [List.erase_cons_tail (by simpa using first), List.find?_cons, List.find?_cons,
          find?_erase_of_false fails rest]

/-- A forward walk from the sentinel meets the nodes in order. -/
theorem scan_next {order : List ι} (nodup : order.Nodup) (wanted : ι → Bool) {fuel : Nat}
    (room : order.length < fuel) :
    scan (linksOf order).next wanted fuel ((linksOf order).next none) = order.find? wanted :=
  scan_nextOf_suffix nodup wanted order [] fuel rfl room

/-- A backward walk from the sentinel meets the nodes in reverse order. -/
theorem scan_prev {order : List ι} (nodup : order.Nodup) (wanted : ι → Bool) {fuel : Nat}
    (room : order.length < fuel) :
    scan (linksOf order).prev wanted fuel ((linksOf order).prev none)
      = order.reverse.find? wanted :=
  scan_nextOf_suffix (List.nodup_reverse.mpr nodup) wanted order.reverse [] fuel rfl
    (by simpa using room)

end DList
