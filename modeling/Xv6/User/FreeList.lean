import Xv6.User.Umalloc
import Xv6.Lib.Circular

/-!
Contract: the invariant of the free list of user/umalloc.c, and that `free`,
`morecore` and `malloc` keep it.

The heap is read as blocks: a `Blk` is a header's address and the block's size in
headers. `FreeList base start h R A` says that the free list of `h` is the ring `R`
of blocks in address order, starting at the static `base` block of size 0: each
block's `s.ptr` is the next one's address and the last one's is `base`'s, and each
block ends before the next begins, so that no two overlap or touch. The program
holds the blocks `A` that `malloc` gave out, apart from each other and from the
free ones; every block but `base` lies in the memory `sbrk` handed out, from
`start` to the process size, at an address that is a multiple of `sizeof(Header)`.

`free` puts a held block into the ring at the place its scan finds, joined with
the block above it when it ends where that one begins and with the block below it
when that one ends where it begins (`free_spec`). Sizes are `uint`s: a join keeps
its sum modulo `2 ^ 32`, which can only shrink the block, so the invariant holds
whether or not the sum wraps.

Owns: `Blk`, `baseBlk`, `FreeList`, `freeScan_spec`, the values of `insertAt`,
`free_spec`.
-/

namespace Xv6.Umalloc

open Circular

/-- A block: the address of its header and its size in headers. -/
structure Blk where
  addr : Nat
  units : Nat
deriving DecidableEq, Repr

/-- The first address past the block. -/
def Blk.fin (b : Blk) : Nat :=
  b.addr + headerSize * b.units

/-- Two blocks share no byte. -/
def Blk.Apart (b c : Blk) : Prop :=
  b.fin ≤ c.addr ∨ c.fin ≤ b.addr

instance : Std.Symm Blk.Apart :=
  ⟨fun _ _ apart => Or.symm apart⟩

/-- `b` ends before `c` begins, with a byte between them. -/
def Blk.Before (b c : Blk) : Prop :=
  b.fin < c.addr

theorem Blk.Before.trans {a b c : Blk} (first : a.Before b) (second : b.Before c) : a.Before c := by
  unfold Blk.Before Blk.fin at *
  omega

instance : Trans Blk.Before Blk.Before Blk.Before :=
  ⟨Blk.Before.trans⟩

/-- A block before another starts below it. -/
theorem Blk.Before.addr_lt {b c : Blk} (before : b.Before c) : b.addr < c.addr := by
  unfold Blk.Before Blk.fin at before
  omega

theorem Blk.Before.ne {b c : Blk} (before : b.Before c) : b ≠ c := by
  rintro rfl
  exact Nat.lt_irrefl _ before.addr_lt

/-- A block apart from two blocks that meet is apart from any block that starts where
the first starts and ends within the second. -/
theorem Blk.Apart.join {a x y w : Blk} (pos : 0 < a.units) (left : a.Apart x) (right : a.Apart y)
    (meet : x.fin = y.addr) (same : w.addr = x.addr) (within : w.fin ≤ y.fin) : a.Apart w := by
  unfold Blk.Apart Blk.fin headerSize at *
  omega

/-- A block apart from `b` is apart from every block within `b`. -/
theorem Blk.Apart.within {a b w : Blk} (apart : a.Apart b) (low : b.addr ≤ w.addr)
    (high : w.fin ≤ b.fin) : a.Apart w := by
  unfold Blk.Apart Blk.fin headerSize at *
  omega

/-- Two blocks apart, each of at least one header, have different addresses. -/
theorem Blk.Apart.addr_ne {a b : Blk} (apart : a.Apart b) (posA : 0 < a.units) (posB : 0 < b.units) :
    a.addr ≠ b.addr := by
  unfold Blk.Apart Blk.fin headerSize at *
  omega

/-- The static `base` header, of size 0. -/
def baseBlk (base : Nat) : Blk :=
  ⟨base, 0⟩

/-- The free list of `h` is the ring `R` from `base`, and the program holds the
blocks `A`. -/
structure FreeList (base start : Nat) (h : Heap) (R A : List Blk) : Prop where
  head : R.head? = some (baseBlk base)
  links : Links (fun x => (h.mem x).ptr) Blk.addr (R ++ [baseBlk base])
  sorted : R.IsChain Blk.Before
  freep : h.freep ∈ R.map Blk.addr
  size : ∀ b ∈ R ++ A, (h.mem b.addr).size = b.units
  heap : ∀ b ∈ R ++ A, b.addr ≠ base →
    start ≤ b.addr ∧ b.addr % headerSize = 0 ∧ b.addr < h.sz ∧ b.fin ≤ h.sz
  given : ∀ a ∈ A, 0 < a.units
  apart : A.Pairwise Blk.Apart
  apart_free : ∀ a ∈ A, ∀ b ∈ R, a.Apart b ∧ a.addr ≠ b.addr
  sz : start ≤ h.sz ∧ h.sz % headerSize = 0

section Invariant

variable {base start : Nat} {h : Heap} {R A : List Blk}

theorem FreeList.ring (inv : FreeList base start h R A) : ∃ l, R = baseBlk base :: l := by
  cases R with
  | nil => exact absurd inv.head (by simp)
  | cons a l =>
    have first : a = baseBlk base := by simpa using inv.head
    exact ⟨l, by rw [first]⟩

/-- Along the ring the addresses strictly increase. -/
theorem FreeList.increasing (inv : FreeList base start h R A) : R.Pairwise fun x y => x.addr < y.addr :=
  inv.sorted.pairwise.imp Blk.Before.addr_lt

theorem FreeList.eq_of_addr (inv : FreeList base start h R A) {x y : Blk} (inX : x ∈ R) (inY : y ∈ R)
    (same : x.addr = y.addr) : x = y := by
  have distinct : (R.map Blk.addr).Nodup :=
    (List.pairwise_map.2 inv.increasing).imp fun lt => Nat.ne_of_lt lt
  exact List.inj_on_of_nodup_map distinct inX inY same

/-- A held block lies above `base`, which is below the heap. -/
theorem FreeList.base_lt (inv : FreeList base start h R A) (below : base < start) {a : Blk} (given : a ∈ A) :
    base < a.addr := by
  obtain ⟨l, ring⟩ := inv.ring
  have notBase : a.addr ≠ base :=
    (inv.apart_free a given (baseBlk base) (by rw [ring]; exact List.mem_cons_self)).2
  have top := (inv.heap a (List.mem_append_right R given) notBase).1
  omega

/-- With `base` above 0, `freep` is not null once the list exists. -/
theorem FreeList.freep_pos (inv : FreeList base start h R A) (zero : 0 < base) (below : base < start) :
    0 < h.freep := by
  obtain ⟨b, inB, same⟩ := List.mem_map.1 inv.freep
  rw [← same]
  by_cases isBase : b.addr = base
  · omega
  · have := (inv.heap b (List.mem_append_left A inB) isBase).1
    omega

theorem FreeList.addr_lt_fin (inv : FreeList base start h R A) {a : Blk} (given : a ∈ A) : a.addr < a.fin := by
  have pos := inv.given a given
  unfold Blk.fin headerSize
  omega

theorem FreeList.apart_free_of_ne (inv : FreeList base start h R A) {a b : Blk} (given : a ∈ A) (other : b ∈ A)
    (ne : a ≠ b) : a.Apart b :=
  inv.apart.forall given other ne

/-- Every block lies below the process size, `base` included. -/
theorem FreeList.bounded (inv : FreeList base start h R A) (below : base < start) {y : Blk} (inY : y ∈ R ++ A) :
    y.addr < h.sz ∧ y.fin ≤ h.sz := by
  by_cases atBase : y.addr = base
  · obtain ⟨l, ring⟩ := inv.ring
    have baseIn : baseBlk base ∈ R := by rw [ring]; exact List.mem_cons_self
    have inR : y ∈ R := by
      rcases List.mem_append.1 inY with inR | inA
      · exact inR
      · exact absurd atBase (inv.apart_free y inA (baseBlk base) baseIn).2
    have isBase : y = baseBlk base := inv.eq_of_addr inR baseIn atBase
    have low := inv.sz.1
    subst isBase
    simp only [baseBlk, Blk.fin]
    omega
  · have top := inv.heap y inY atBase
    exact ⟨top.2.2.1, top.2.2.2⟩

/-- Two blocks of the ring are apart, at different addresses. -/
theorem FreeList.apart_ring (inv : FreeList base start h R A) {x y : Blk} (inX : x ∈ R) (inY : y ∈ R)
    (ne : x ≠ y) : x.Apart y ∧ x.addr ≠ y.addr := by
  have apart : R.Pairwise fun x y => x.Apart y ∧ x.addr ≠ y.addr :=
    inv.sorted.pairwise.imp fun before => by unfold Blk.Before Blk.Apart Blk.fin at *; omega
  have symm : Std.Symm fun x y : Blk => x.Apart y ∧ x.addr ≠ y.addr :=
    ⟨fun _ _ apart => ⟨Or.symm apart.1, Ne.symm apart.2⟩⟩
  exact apart.forall inX inY ne

/-- Around a block of the ring, the blocks before it end before it begins, and it ends
before those after it begin. -/
theorem FreeList.around (inv : FreeList base start h R A) {l₁ l₂ : List Blk} {P : Blk}
    (split : R = l₁ ++ P :: l₂) : (∀ y ∈ l₁, y.Before P) ∧ ∀ y ∈ l₂, P.Before y := by
  have sorted := inv.sorted.pairwise
  rw [split] at sorted
  obtain ⟨-, after, across⟩ := List.pairwise_append.1 sorted
  exact ⟨fun y inY => across y inY P List.mem_cons_self, (List.pairwise_cons.1 after).1⟩

/-- A block of the ring other than `base` has its address in the heap. -/
theorem FreeList.ne_base (inv : FreeList base start h R A) {B : Blk} (inB : B ∈ R) (pos : 0 < B.units) :
    B.addr ≠ base := by
  intro atBase
  obtain ⟨l, ring⟩ := inv.ring
  have isBase := inv.eq_of_addr inB (by rw [ring]; exact List.mem_cons_self) atBase
  rw [isBase] at pos
  exact Nat.lt_irrefl 0 pos

theorem FreeList.nodup (inv : FreeList base start h R A) : A.Nodup :=
  inv.apart.imp_of_mem fun inA _ apart same => by
    subst same
    have pos := inv.given _ inA
    unfold Blk.Apart Blk.fin headerSize at apart
    omega

/-- **Splice.** The invariant after a change around the block `P` of the ring: the
blocks before `P` keep their headers, `P` becomes `Q` at the same address, the ring
goes on with `U`, and the program holds `A'`. What is asked of `Q`, `U` and `A'` is
the invariant's own laws for them. -/
theorem FreeList.rebuild (inv : FreeList base start h R A) {l₁ l₂ : List Blk} {P : Blk}
    (split : R = l₁ ++ P :: l₂) {h' : Heap} {Q : Blk} {U A' : List Blk}
    (same : Q.addr = P.addr) (first : l₁ = [] → Q = P) (sz : h'.sz = h.sz)
    (freep : h'.freep ∈ (l₁ ++ Q :: U).map Blk.addr) (frame : ∀ y ∈ l₁, h'.mem y.addr = h.mem y.addr)
    (link : ∀ y ∈ (U ++ [baseBlk base]).head?, (h'.mem Q.addr).ptr = y.addr)
    (rest : Links (fun x => (h'.mem x).ptr) Blk.addr (U ++ [baseBlk base]))
    (sorted : (Q :: U).IsChain Blk.Before)
    (size : ∀ y ∈ Q :: U ++ A', (h'.mem y.addr).size = y.units)
    (heap : ∀ y ∈ Q :: U ++ A', y.addr ≠ base →
      start ≤ y.addr ∧ y.addr % headerSize = 0 ∧ y.addr < h.sz ∧ y.fin ≤ h.sz)
    (given : ∀ a ∈ A', 0 < a.units) (apart : A'.Pairwise Blk.Apart)
    (apartBefore : ∀ a ∈ A', ∀ y ∈ l₁, a.Apart y ∧ a.addr ≠ y.addr)
    (apartFree : ∀ a ∈ A', ∀ y ∈ Q :: U, a.Apart y ∧ a.addr ≠ y.addr) :
    FreeList base start h' (l₁ ++ Q :: U) A' := by
  have oldLinks := inv.links
  rw [split, List.append_assoc, List.cons_append] at oldLinks
  have oldSorted := inv.sorted
  rw [split] at oldSorted
  have inR : ∀ y ∈ l₁, y ∈ R := fun y inL => by rw [split]; exact List.mem_append_left _ inL
  refine ⟨?_, ?_, ?_, freep, fun y inY => ?_, fun y inY notBase => ?_, given, apart,
    fun a inA y inY => ?_, by rw [sz]; exact inv.sz⟩
  · have head := inv.head
    rw [split] at head
    cases l₁ with
    | nil => rw [first rfl]; exact head
    | cons x l₁ => exact head
  · rw [List.append_assoc, List.cons_append]
    have prefixLinks : Links (fun x => (h.mem x).ptr) Blk.addr (l₁ ++ [P]) := (List.isChain_split.1 oldLinks).1
    exact prefixLinks.splice (fun y inL => congrArg Header.ptr (frame y inL)) same link rest
  · refine List.isChain_split.2 ⟨?_, sorted⟩
    exact isChain_swap_last (fun x before => by unfold Blk.Before at *; rw [same]; exact before)
      (List.isChain_split.1 oldSorted).1
  · rw [List.append_assoc, List.mem_append] at inY
    rcases inY with inL | inY
    · rw [frame y inL]
      exact inv.size y (List.mem_append_left A (inR y inL))
    · exact size y inY
  · rw [List.append_assoc, List.mem_append] at inY
    rw [sz]
    rcases inY with inL | inY
    · exact inv.heap y (List.mem_append_left A (inR y inL)) notBase
    · exact heap y inY notBase
  · rcases List.mem_append.1 inY with inL | inY
    · exact apartBefore a inA y inL
    · exact apartFree a inA y inY

end Invariant

/-- **`sbrk`.** New memory at the old size, with a header of `nu` there: the program
holds it as a block. -/
theorem FreeList.grow (inv : FreeList base start h R A) (below : base < start) {nu : Nat} (pos : 0 < nu) :
    FreeList base start { h with mem := setSize h.mem h.sz nu, sz := h.sz + headerSize * nu } R
      (⟨h.sz, nu⟩ :: A) := by
  have bounded := fun y inY => inv.bounded below (y := y) inY
  have low := inv.sz
  refine ⟨inv.head, inv.links.congr rfl fun x _ => setSize_ptr _ _ _ _, inv.sorted, inv.freep,
    fun y inY => ?_, fun y inY notBase => ?_, fun a inA => ?_, List.pairwise_cons.2 ⟨fun a inA => ?_, inv.apart⟩,
    fun a inA y inY => ?_, ?_⟩
  · dsimp only
    simp only [List.mem_append, List.mem_cons] at inY
    rcases inY with inR | rfl | inA
    · rw [setSize_of_ne _ (Nat.ne_of_lt (bounded y (List.mem_append_left A inR)).1)]
      exact inv.size y (List.mem_append_left A inR)
    · rw [setSize_self]
    · rw [setSize_of_ne _ (Nat.ne_of_lt (bounded y (List.mem_append_right R inA)).1)]
      exact inv.size y (List.mem_append_right R inA)
  · dsimp only
    simp only [List.mem_append, List.mem_cons] at inY
    rcases inY with inR | rfl | inA
    · have old := inv.heap y (List.mem_append_left A inR) notBase
      exact ⟨old.1, old.2.1, by omega, by omega⟩
    · simp only [Blk.fin, headerSize] at *
      omega
    · have old := inv.heap y (List.mem_append_right R inA) notBase
      exact ⟨old.1, old.2.1, by omega, by omega⟩
  · rcases List.mem_cons.1 inA with rfl | inA
    · exact pos
    · exact inv.given a inA
  · exact .inr (bounded a (List.mem_append_right R inA)).2
  · rcases List.mem_cons.1 inA with rfl | inA
    · have top := bounded y (List.mem_append_left A inY)
      exact ⟨.inr top.2, Nat.ne_of_gt top.1⟩
    · exact inv.apart_free a inA y inY
  · simp only [headerSize] at *
    omega

/-! ### `free`'s scan -/

section Scan

variable {mem : Nat → Header} {bp p : Nat}

/-- `free`'s scan from a block of the ring stays in the ring, and stops at a block
that passes the test for `bp`'s place. -/
theorem freeScan_spec {a : Blk} {l : List Blk} (links : Links (fun x => (mem x).ptr) Blk.addr (a :: l ++ [a])) :
    ∀ fuel q, q ∈ (a :: l).map Blk.addr → freeScan mem bp fuel q = some p →
      p ∈ (a :: l).map Blk.addr ∧ InGap (fun x => (mem x).ptr) bp p := by
  intro fuel
  induction fuel with
  | zero =>
    intro q _ scan
    simp [freeScan] at scan
  | succ fuel inductionHypothesis =>
    intro q inRing scan
    unfold freeScan at scan
    split_ifs at scan with between wrapped
    · obtain rfl := Option.some.inj scan
      exact ⟨inRing, .inl between⟩
    · obtain rfl := Option.some.inj scan
      exact ⟨inRing, .inr wrapped⟩
    · obtain ⟨b, inB, rfl⟩ := List.mem_map.1 inRing
      obtain ⟨c, inC, next⟩ := links.next_mem inB
      exact inductionHypothesis _ (List.mem_map.2 ⟨c, inC, next.symm⟩) scan

end Scan

/-! ### `free`'s joins -/

section Joins

variable (mem : Nat → Header) {bp p : Nat}

theorem insertAt_of_ne {x : Nat} (notBp : x ≠ bp) (notP : x ≠ p) : insertAt mem bp p x = mem x := by
  unfold insertAt
  dsimp only
  split_ifs <;> simp [setPtr_of_ne _ notBp, setPtr_of_ne _ notP, setSize_of_ne _ notBp, setSize_of_ne _ notP]

/-- The header at `bp`: joined with the block `c = p->s.ptr` right above it, or linked to it. -/
theorem insertAt_bp (ne : bp ≠ p) (notC : (mem p).ptr ≠ bp) :
    insertAt mem bp p bp =
      if bp + headerSize * (mem bp).size = (mem p).ptr then
        ⟨(mem (mem p).ptr).ptr, ((mem bp).size + (mem (mem p).ptr).size) % 2 ^ 32⟩
      else { mem bp with ptr := (mem p).ptr } := by
  unfold insertAt
  dsimp only
  split_ifs <;> simp [setPtr_of_ne _ ne, setSize_of_ne _ ne, setSize_of_ne _ notC]

/-- The header at `p`: joined with the block at `bp` when it ends there, or linked to it. -/
theorem insertAt_p (ne : bp ≠ p) :
    insertAt mem bp p p =
      if p + headerSize * (mem p).size = bp then
        ⟨(insertAt mem bp p bp).ptr, ((mem p).size + (insertAt mem bp p bp).size) % 2 ^ 32⟩
      else { mem p with ptr := bp } := by
  have other : p ≠ bp := Ne.symm ne
  by_cases upper : bp + headerSize * (mem bp).size = (mem p).ptr <;>
  by_cases lower : p + headerSize * (mem p).size = bp <;>
  simp [insertAt, upper, lower, setPtr_of_ne _ other, setSize_of_ne _ other, setPtr_of_ne _ ne,
    setSize_of_ne _ ne]

end Joins

/-! ### `free` keeps the invariant -/

section Free

variable {base start : Nat} {h : Heap} {R A : List Blk}

/-- The place `free`'s scan finds for a held block splits the ring there. -/
theorem FreeList.split_at (inv : FreeList base start h R A) (below : base < start) {b : Blk} (given : b ∈ A)
    {p : Nat} (inRing : p ∈ R.map Blk.addr) (gap : InGap (fun x => (h.mem x).ptr) b.addr p) :
    ∃ l₁ P l₂, R = l₁ ++ P :: l₂ ∧ P.addr = p ∧ P.addr < b.addr ∧ ∀ y ∈ l₂, b.addr < y.addr := by
  obtain ⟨l, ring⟩ := inv.ring
  obtain ⟨P, inP, rfl⟩ := List.mem_map.1 inRing
  have links := inv.links
  have sorted := inv.increasing
  rw [ring] at links sorted inP
  obtain ⟨l₁, l₂, split, lower, upper⟩ := links.split_of_gap sorted inP (inv.base_lt below given) gap
  exact ⟨l₁, P, l₂, ring.trans split, rfl, lower, upper⟩

/-- `free`'s first join, on the ring split at the held block `b` after `P`: the block
`X` at `b.addr` is `b`, or `b` joined with the block right above it, and the ring goes
on with `T`. -/
theorem FreeList.upper (inv : FreeList base start h R A) (below : base < start) {b P : Blk}
    {l₁ l₂ : List Blk} (given : b ∈ A) (split : R = l₁ ++ P :: l₂) (lower : P.addr < b.addr)
    (upper : ∀ y ∈ l₂, b.addr < y.addr) :
    ∃ X T, X.addr = b.addr ∧ T.Sublist l₂ ∧
      (∀ y ∈ (T ++ [baseBlk base]).head?, (insertAt h.mem b.addr P.addr b.addr).ptr = y.addr) ∧
      (insertAt h.mem b.addr P.addr b.addr).size = X.units ∧
      Links (fun x => (h.mem x).ptr) Blk.addr (T ++ [baseBlk base]) ∧
      (X :: T).IsChain Blk.Before ∧ X.fin ≤ h.sz ∧
      ∀ a ∈ A, a ≠ b → a.Apart X := by
  have ne : b.addr ≠ P.addr := Nat.ne_of_gt lower
  have baseBelow := inv.base_lt below given
  have hb := inv.size b (List.mem_append_right R given)
  have top := (inv.heap b (List.mem_append_right R given) (Nat.ne_of_gt baseBelow)).2.2.2
  have tail := inv.links
  rw [split, List.append_assoc, List.cons_append] at tail
  have tail := (List.isChain_split.1 tail).2
  have sorted := inv.sorted
  rw [split] at sorted
  have sortedTail := (List.isChain_split.1 sorted).2
  cases l₂ with
  | nil =>
    -- `b` goes last: its upper neighbour is `base`, below it
    simp only [List.nil_append, List.isChain_pair] at tail
    have succ : (h.mem P.addr).ptr = base := tail
    have notC : (h.mem P.addr).ptr ≠ b.addr := by rw [succ]; exact Nat.ne_of_lt baseBelow
    have noJoin : ¬b.addr + headerSize * (h.mem b.addr).size = (h.mem P.addr).ptr := by
      rw [succ]
      omega
    refine ⟨b, [], rfl, List.Sublist.slnil, fun y first => ?_, ?_, List.isChain_singleton _,
      List.isChain_singleton _, top, fun a inA ne => inv.apart_free_of_ne inA given ne⟩
    · simp only [List.nil_append, List.head?_cons, Option.mem_def, Option.some.injEq] at first
      rw [insertAt_bp h.mem ne notC, if_neg noJoin, ← first]
      exact succ
    · rw [insertAt_bp h.mem ne notC, if_neg noJoin]
      exact hb
  | cons c l₂ =>
    simp only [List.cons_append, List.isChain_cons_cons] at tail sortedTail
    obtain ⟨succ, cLinks⟩ := tail
    obtain ⟨cNext, rest⟩ := List.isChain_cons.1 cLinks
    obtain ⟨cBefore, cSorted⟩ := List.isChain_cons.1 sortedTail.2
    have inC : c ∈ R := by rw [split]; simp
    have above : b.addr < c.addr := upper c List.mem_cons_self
    have hc := inv.size c (List.mem_append_left A inC)
    have cTop := (inv.heap c (List.mem_append_left A inC) (by omega)).2.2.2
    have apartC := (inv.apart_free b given c inC).1
    have notC : (h.mem P.addr).ptr ≠ b.addr := by rw [succ]; exact Nat.ne_of_gt above
    by_cases join : b.addr + headerSize * (h.mem b.addr).size = (h.mem P.addr).ptr
    · -- `b` ends where `c` begins: they become one block, and `c` leaves the ring
      have meet : b.fin = c.addr := by rw [hb, succ] at join; exact join
      have within := Nat.mod_le (b.units + c.units) (2 ^ 32)
      refine ⟨⟨b.addr, (b.units + c.units) % 2 ^ 32⟩, l₂, rfl, List.sublist_cons_self c l₂,
        fun y first => ?_, ?_, rest, List.isChain_cons.2 ⟨fun y first => ?_, cSorted⟩, ?_,
        fun a inA ne => ?_⟩
      · rw [insertAt_bp h.mem ne notC, if_pos join, succ]
        exact cNext y first
      · rw [insertAt_bp h.mem ne notC, if_pos join, succ, hb, hc]
      · have later := cBefore y first
        simp only [Blk.Before, Blk.fin, headerSize] at *
        omega
      · simp only [Blk.fin, headerSize] at *
        omega
      · refine (inv.apart_free_of_ne inA given ne).join (inv.given a inA) (inv.apart_free a inA c inC).1
          meet rfl ?_
        simp only [Blk.fin, headerSize] at *
        omega
    · -- no join: `b` is linked to `c`
      have linked : b.fin < c.addr := by
        rw [hb, succ] at join
        unfold Blk.Apart Blk.fin at *
        omega
      refine ⟨b, c :: l₂, rfl, List.Sublist.refl _, fun y first => ?_, ?_, cLinks,
        List.isChain_cons_cons.2 ⟨linked, sortedTail.2⟩, top,
        fun a inA ne => inv.apart_free_of_ne inA given ne⟩
      · simp only [List.cons_append, List.head?_cons, Option.mem_def, Option.some.injEq] at first
        rw [insertAt_bp h.mem ne notC, if_neg join, ← first]
        exact succ
      · rw [insertAt_bp h.mem ne notC, if_neg join]
        exact hb

/-- **`free`.** Freeing a held block keeps the invariant, with the block no longer held. -/
theorem free_spec (inv : FreeList base start h R A) (below : base < start) {b : Blk} (given : b ∈ A)
    {fuel : Nat} {h' : Heap} (ran : free h (b.addr + headerSize) fuel = some h') :
    ∃ R', FreeList base start h' R' (A.erase b) := by
  obtain ⟨l, ring⟩ := inv.ring
  simp only [free, Nat.add_sub_cancel] at ran
  cases scan : freeScan h.mem b.addr fuel h.freep with
  | none => simp [scan] at ran
  | some p =>
  simp only [scan, Option.some.injEq] at ran
  subst ran
  have links := inv.links
  have freep := inv.freep
  rw [ring] at links freep
  obtain ⟨found, gap⟩ := freeScan_spec links fuel h.freep freep scan
  rw [← ring] at found
  obtain ⟨l₁, P, l₂, split, rfl, lower, upper⟩ := inv.split_at below given found gap
  obtain ⟨X, T, atB, sub, xPtr, xSize, tLinks, xSorted, xTop, xApart⟩ :=
    inv.upper below given split lower upper
  have ne : b.addr ≠ P.addr := Nat.ne_of_gt lower
  have inP : P ∈ R := by rw [split]; simp
  have inT : ∀ y ∈ T, y ∈ R := fun y inY => by rw [split]; simp [sub.subset inY]
  have inL : ∀ y ∈ l₁, y ∈ R := fun y inY => by rw [split]; simp [inY]
  have hP := inv.size P (List.mem_append_left A inP)
  have bHeap := inv.heap b (List.mem_append_right R given) (Nat.ne_of_gt (inv.base_lt below given))
  have increasing := inv.increasing
  rw [split] at increasing
  have beforeP : ∀ y ∈ l₁, y.addr < P.addr := fun y inY =>
    (List.pairwise_append.1 increasing).2.2 y inY P List.mem_cons_self
  have held : ∀ a ∈ A.erase b, a ∈ A ∧ a ≠ b := fun a inA =>
    ((inv.nodup.mem_erase_iff).1 inA).symm
  have apartB : ∀ a ∈ A.erase b, a.Apart b ∧ a.addr ≠ b.addr := fun a inA =>
    have apart := inv.apart_free_of_ne (held a inA).1 given (held a inA).2
    ⟨apart, apart.addr_ne (inv.given a (held a inA).1) (inv.given b given)⟩
  -- `insertAt` writes only the headers at `b.addr` and `P.addr`
  have frameL : ∀ y ∈ l₁, insertAt h.mem b.addr P.addr y.addr = h.mem y.addr := fun y inY =>
    insertAt_of_ne h.mem (by have := beforeP y inY; omega) (Nat.ne_of_lt (beforeP y inY))
  have frameT : ∀ y ∈ T, insertAt h.mem b.addr P.addr y.addr = h.mem y.addr := fun y inY =>
    have above := upper y (sub.subset inY)
    insertAt_of_ne h.mem (Nat.ne_of_gt above) (by omega)
  have frameA : ∀ a ∈ A.erase b, insertAt h.mem b.addr P.addr a.addr = h.mem a.addr := fun a inA =>
    insertAt_of_ne h.mem (apartB a inA).2 (inv.apart_free a (held a inA).1 P inP).2
  have tLinks' : Links (fun x => (insertAt h.mem b.addr P.addr x).ptr) Blk.addr (T ++ [baseBlk base]) :=
    tLinks.congr rfl fun y inY => congrArg Header.ptr (frameT y inY)
  have oldHeap : ∀ y ∈ T ++ A.erase b, (insertAt h.mem b.addr P.addr y.addr).size = y.units ∧
      (y.addr ≠ base → start ≤ y.addr ∧ y.addr % headerSize = 0 ∧ y.addr < h.sz ∧ y.fin ≤ h.sz) := by
    intro y inY
    rcases List.mem_append.1 inY with inY | inY
    · rw [frameT y inY]
      exact ⟨inv.size y (List.mem_append_left A (inT y inY)), inv.heap y (List.mem_append_left A (inT y inY))⟩
    · rw [frameA y inY]
      exact ⟨inv.size y (List.mem_append_right R (held y inY).1), inv.heap y (List.mem_append_right R (held y inY).1)⟩
  have pApart : P.fin ≤ b.addr := by
    have apart := (inv.apart_free b given P inP).1
    have posB := inv.given b given
    unfold Blk.Apart Blk.fin headerSize at *
    omega
  have fresh : ∀ a ∈ A.erase b, ∀ y ∈ l₁ ++ T, a.Apart y ∧ a.addr ≠ y.addr := fun a inA y inY =>
    inv.apart_free a (held a inA).1 y (by rcases List.mem_append.1 inY with inY | inY <;> simp [inL, inT, inY])
  by_cases join : P.addr + headerSize * P.units = b.addr
  · -- `P` ends where `b` begins: `P` takes in `X`
    have pNotBase : P.addr ≠ base := by
      intro atBase
      have isBase : P = baseBlk base := inv.eq_of_addr inP (by rw [ring]; exact List.mem_cons_self) atBase
      have := inv.base_lt below given
      rw [isBase] at join
      simp only [baseBlk] at join
      omega
    have nonempty : l₁ ≠ [] := by
      rintro rfl
      rw [ring, List.nil_append] at split
      exact pNotBase (by rw [← (List.cons.inj split).1]; rfl)
    have meet : P.fin = X.addr := by rw [atB]; exact join
    have within : P.addr + headerSize * ((P.units + X.units) % 2 ^ 32) ≤ X.fin := by
      have := Nat.mod_le (P.units + X.units) (2 ^ 32)
      unfold Blk.fin headerSize at *
      omega
    have pHeader : insertAt h.mem b.addr P.addr P.addr =
        ⟨(insertAt h.mem b.addr P.addr b.addr).ptr, (P.units + X.units) % 2 ^ 32⟩ := by
      rw [insertAt_p h.mem ne, hP, if_pos join, xSize]
    refine ⟨l₁ ++ ⟨P.addr, (P.units + X.units) % 2 ^ 32⟩ :: T, inv.rebuild split rfl
      (fun empty => absurd empty nonempty) rfl (by simp) frameL ?_ tLinks' ?_ ?_ ?_
      (fun a inA => inv.given a (held a inA).1) (inv.apart.sublist List.erase_sublist)
      (fun a inA y inY => fresh a inA y (List.mem_append_left T inY)) ?_⟩
    · intro y first
      dsimp only
      rw [pHeader]
      exact xPtr y first
    · refine List.isChain_cons.2 ⟨fun y first => ?_, (List.isChain_cons.1 xSorted).2⟩
      have later := (List.isChain_cons.1 xSorted).1 y first
      simp only [Blk.Before, Blk.fin] at later within ⊢
      omega
    · intro y inY
      dsimp only
      simp only [List.mem_append, List.mem_cons] at inY
      rcases inY with (rfl | inY) | inY
      · rw [pHeader]
      · exact (oldHeap y (List.mem_append_left _ inY)).1
      · exact (oldHeap y (List.mem_append_right _ inY)).1
    · intro y inY notBase
      simp only [List.mem_append, List.mem_cons] at inY
      rcases inY with (rfl | inY) | inY
      · have pHeap := inv.heap P (List.mem_append_left A inP) pNotBase
        exact ⟨pHeap.1, pHeap.2.1, pHeap.2.2.1, within.trans xTop⟩
      · exact (oldHeap y (List.mem_append_left _ inY)).2 notBase
      · exact (oldHeap y (List.mem_append_right _ inY)).2 notBase
    · intro a inA y inY
      simp only [List.mem_cons] at inY
      rcases inY with rfl | inY
      · have old := inv.apart_free a (held a inA).1 P inP
        exact ⟨old.1.join (inv.given a (held a inA).1) (xApart a (held a inA).1 (held a inA).2) meet rfl within,
          old.2⟩
      · exact fresh a inA y (List.mem_append_right l₁ inY)
  · -- `P` is linked to `X`
    have pBefore : P.Before X := by
      unfold Blk.Before Blk.fin at *
      rw [atB]
      omega
    have pHeader : insertAt h.mem b.addr P.addr P.addr = { h.mem P.addr with ptr := b.addr } := by
      rw [insertAt_p h.mem ne, hP, if_neg join]
    refine ⟨l₁ ++ P :: X :: T, inv.rebuild split rfl (fun _ => rfl) rfl (by simp) frameL ?_ ?_
      (List.isChain_cons_cons.2 ⟨pBefore, xSorted⟩) ?_ ?_ (fun a inA => inv.given a (held a inA).1)
      (inv.apart.sublist List.erase_sublist) (fun a inA y inY => fresh a inA y (List.mem_append_left T inY)) ?_⟩
    · intro y first
      simp only [List.cons_append, List.head?_cons, Option.mem_def, Option.some.injEq] at first
      dsimp only
      rw [← first, pHeader, atB]
    · refine List.isChain_cons.2 ⟨fun y first => ?_, tLinks'⟩
      simp only
      rw [atB]
      exact xPtr y first
    · intro y inY
      dsimp only
      simp only [List.mem_append, List.mem_cons] at inY
      rcases inY with (rfl | rfl | inY) | inY
      · rw [pHeader]
        exact hP
      · rw [atB]
        exact xSize
      · exact (oldHeap y (List.mem_append_left _ inY)).1
      · exact (oldHeap y (List.mem_append_right _ inY)).1
    · intro y inY notBase
      simp only [List.mem_append, List.mem_cons] at inY
      rcases inY with (rfl | rfl | inY) | inY
      · exact inv.heap y (List.mem_append_left A inP) notBase
      · rw [atB]
        exact ⟨bHeap.1, bHeap.2.1, bHeap.2.2.1, xTop⟩
      · exact (oldHeap y (List.mem_append_left _ inY)).2 notBase
      · exact (oldHeap y (List.mem_append_right _ inY)).2 notBase
    · intro a inA y inY
      simp only [List.mem_cons] at inY
      rcases inY with rfl | rfl | inY
      · exact inv.apart_free a (held a inA).1 y inP
      · rw [atB]
        exact ⟨xApart a (held a inA).1 (held a inA).2, (apartB a inA).2⟩
      · exact fresh a inA y (List.mem_append_right l₁ inY)

end Free

end Xv6.Umalloc
