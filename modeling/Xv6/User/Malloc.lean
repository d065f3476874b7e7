import Xv6.User.FreeList
import Xv6.Lib.Machine

/-!
Contract: `morecore` and `malloc` keep the free-list invariant, and the allocator
as the program sees it: every sequence of `malloc` and `free` calls, each `free` of
a pointer `malloc` returned and not yet freed, keeps the invariant, and every
pointer the program holds is aligned and has the bytes it asked for.

A request is for fewer than `2 ^ 32` bytes (`nbytes` is a `uint`), and small enough
that `morecore`'s byte count fits in `sbrk`'s `int`. The kernel side of `sbrk` is
its size arithmetic; whether `uvmalloc` finds the pages is the `grows` of each
call. A `malloc` that would take the process past `TRAPFRAME` is not a step of the
system: with the pages found, `growproc` panics there (`growproc_remap`).

The loops run on fuel; a call that runs out of it has no next state, so the
statements are about every call that returns.

Owns: `sbrk_of_fits`, `morecore_spec`, `mallocLoop_spec`, `malloc_spec`, `World`,
`Event`, `step`, `Reachable`, and the theorem on every reachable state.
-/

namespace Xv6.Umalloc

open Circular Xv6.Vm

/-! ### `sbrk` and `morecore` -/

/-- `sbrk` of a byte count that fits in its `int`, from a size below `TRAPFRAME`: the
`uint64` sum does not wrap, so the size grows by the count when the pages are found,
and `sbrk` fails otherwise. -/
theorem sbrk_of_fits {sz nu : Nat} (grows : Bool) (pos : 0 < nu) (fits : nu * headerSize < 2 ^ 31)
    (top : sz ≤ trapframeVa) :
    sbrk sz (sbrkArg nu) grows = if grows then (sz, sz + headerSize * nu) else (2 ^ 64 - 1, sz) := by
  have count : (sbrkArg nu).toInt = nu * headerSize := (sbrkArg_toInt_iff nu).2 fits
  have below : (sz : Int) + nu * headerSize < 2 ^ 64 := by
    simp only [trapframeVa, trampolineVa, maxVA, pgSize, headerSize] at top fits ⊢
    omega
  have noWrap : (((sz : Int) + (sbrkArg nu).toInt) % 2 ^ 64).toNat = sz + headerSize * nu := by
    rw [count, Int.emod_eq_of_lt (by positivity) below]
    simp only [headerSize]
    omega
  have positive : 0 < (sbrkArg nu).toInt := by
    rw [count]
    simp only [headerSize]
    omega
  unfold sbrk
  simp only [noWrap, positive, if_true, Nat.not_lt.2 (Nat.le_add_right sz (headerSize * nu)), if_false]

/-- Asked for more, `sbrk` never leaves the size lower: a sum that wraps keeps it. -/
theorem sbrk_sz_le {sz : Nat} {n : Int32} (grows : Bool) (pos : 0 < n.toInt) : sz ≤ (sbrk sz n grows).2 := by
  unfold sbrk
  simp only [pos, if_true]
  split_ifs with wrapped <;> simp only <;> omega

theorem free_sz {h h' : Heap} {ap fuel : Nat} (ran : free h ap fuel = some h') : h'.sz = h.sz := by
  unfold free at ran
  dsimp only at ran
  split at ran
  · cases ran
  · cases ran
    rfl

section Morecore

variable {base start : Nat} {h : Heap} {R A : List Blk} {nu : Nat} {grows : Bool} {fuel r : Nat} {h' : Heap}

theorem morecore_units (nu : Nat) : (if nu < 4096 then 4096 else nu) = max nu 4096 := by
  split_ifs <;> omega

theorem morecore_sz_le (fits : max nu 4096 * headerSize < 2 ^ 31) (ran : morecore h nu grows fuel = some (r, h')) :
    h.sz ≤ h'.sz := by
  have positive : 0 < (sbrkArg (max nu 4096)).toInt := by
    rw [(sbrkArg_toInt_iff _).2 fits]
    simp only [headerSize]
    omega
  have grown : h.sz ≤ (sbrk h.sz (sbrkArg (max nu 4096)) grows).2 := sbrk_sz_le grows positive
  unfold morecore at ran
  simp only [morecore_units] at ran
  split at ran
  · cases ran
    exact grown
  · split at ran
    · cases ran
    · cases ran
      rename_i freed
      rw [free_sz freed]
      exact grown

/-- **`morecore`.** From a size below `TRAPFRAME`, with a count that fits in `sbrk`'s
`int`: either `sbrk` fails and nothing changes, or the new memory is freed into the
ring and `morecore` returns `freep`. -/
theorem morecore_spec (inv : FreeList base start h R A) (below : base < start)
    (fits : max nu 4096 * headerSize < 2 ^ 31) (top : h.sz ≤ trapframeVa)
    (ran : morecore h nu grows fuel = some (r, h')) :
    r = 0 ∧ h' = h ∨ ∃ R', FreeList base start h' R' A ∧ r = h'.freep := by
  have pos : 0 < max nu 4096 := by omega
  unfold morecore at ran
  simp only [morecore_units, sbrk_of_fits grows pos fits top] at ran
  cases grows with
  | false =>
    simp only [Bool.false_eq_true, if_false, if_true, Option.some.injEq, Prod.mk.injEq] at ran
    exact .inl ⟨ran.1.symm, ran.2.symm⟩
  | true =>
    have notFail : h.sz ≠ 2 ^ 64 - 1 := by
      simp only [trapframeVa, trampolineVa, maxVA, pgSize] at top
      omega
    simp only [if_true, notFail, if_false] at ran
    split at ran
    · cases ran
    · rename_i h2 freed
      simp only [Option.some.injEq, Prod.mk.injEq] at ran
      obtain ⟨rfl, rfl⟩ := ran
      obtain ⟨R', inv'⟩ := free_spec (inv.grow below pos) below List.mem_cons_self freed
      rw [List.erase_cons_head] at inv'
      exact .inr ⟨R', inv', rfl⟩

end Morecore

/-! ### `malloc` -/

section Loop

variable {base start : Nat} {A : List Blk} {nunits : Nat} {grows : Bool}

theorem mallocLoop_sz_le (fits : max nunits 4096 * headerSize < 2 ^ 31) :
    ∀ {fuel : Nat} {h : Heap} {prevp p r : Nat} {h' : Heap},
      mallocLoop nunits grows fuel h prevp p = some (r, h') → h.sz ≤ h'.sz
  | 0, _, _, _, _, _, ran => by simp [mallocLoop] at ran
  | fuel + 1, h, prevp, p, r, h', ran => by
    unfold mallocLoop at ran
    split_ifs at ran with enough exact isFreep
    · cases ran
      exact le_rfl
    · cases ran
      exact le_rfl
    · split at ran
      · cases ran
      · cases ran
        rename_i more
        exact morecore_sz_le fits more
      · rename_i more
        exact (morecore_sz_le fits more).trans (mallocLoop_sz_le fits ran)
    · exact mallocLoop_sz_le fits ran

/-- `malloc` takes the whole block `B` after `Q`: `B` leaves the ring and the program
holds it. -/
theorem FreeList.take (inv : FreeList base start h R A) {l₁ l₂ : List Blk} {Q B : Blk}
    (split : R = l₁ ++ Q :: B :: l₂) (pos : 0 < B.units) :
    FreeList base start { h with mem := setPtr h.mem Q.addr (h.mem B.addr).ptr, freep := Q.addr }
      (l₁ ++ Q :: l₂) (B :: A) := by
  have inB : B ∈ R := by rw [split]; simp
  have inR : ∀ y ∈ Q :: l₂ ++ B :: A, y ∈ R ++ A := fun y inY => by
    rw [split]
    simp only [List.mem_append, List.mem_cons] at inY ⊢
    tauto
  obtain ⟨beforeQ, afterQ⟩ := inv.around split
  have splitB : R = (l₁ ++ [Q]) ++ B :: l₂ := by rw [split]; simp
  obtain ⟨-, afterB⟩ := inv.around splitB
  have qAddr : ∀ y ∈ l₁ ++ l₂, y.addr ≠ Q.addr := fun y inY => by
    rcases List.mem_append.1 inY with inY | inY
    · exact (beforeQ y inY).addr_lt.ne
    · exact (afterQ y (List.mem_cons_of_mem B inY)).addr_lt.ne'
  have oldLinks := inv.links
  rw [split, List.append_assoc, List.cons_append, List.cons_append] at oldLinks
  obtain ⟨bNext, bRest⟩ := List.isChain_cons.1 (List.isChain_cons_cons.1 (List.isChain_split.1 oldLinks).2).2
  have bRest : Links (fun x => (h.mem x).ptr) Blk.addr (l₂ ++ [baseBlk base]) := bRest
  have ringB : ∀ y ∈ R, y ≠ B → B.Apart y ∧ B.addr ≠ y.addr := fun y inY ne => inv.apart_ring inB inY ne.symm
  refine inv.rebuild split rfl (fun _ => rfl) rfl (by simp) (fun y inY => ?_)
    (fun y first => ?_) ?_ (List.isChain_cons.2 ⟨fun y first => ?_, ?_⟩) (fun y inY => ?_)
    (fun y inY notBase => inv.heap y (inR y inY) notBase) (fun a inA => ?_)
    (List.pairwise_cons.2 ⟨fun a inA => Or.symm (inv.apart_free a inA B inB).1, inv.apart⟩)
    (fun a inA y inY => ?_) (fun a inA y inY => ?_)
  · exact setPtr_of_ne _ (qAddr y (List.mem_append_left l₂ inY))
  · dsimp only
    rw [setPtr_self]
    exact bNext y first
  · exact bRest.congr rfl fun y inY => congrArg Header.ptr (setPtr_of_ne _ (qAddr y (List.mem_append_right l₁ inY)))
  · cases l₂ with
    | nil => cases first
    | cons c l₂ =>
      simp only [List.head?_cons, Option.mem_def, Option.some.injEq] at first
      rw [← first]
      exact afterQ c (by simp)
  · have sorted := inv.sorted
    rw [split] at sorted
    exact ((List.isChain_split.1 sorted).2.tail).tail
  · dsimp only
    rw [setPtr_size]
    exact inv.size y (inR y inY)
  · rcases List.mem_cons.1 inA with rfl | inA
    · exact pos
    · exact inv.given a inA
  · have inRing : y ∈ R := by rw [split]; simp [inY]
    rcases List.mem_cons.1 inA with rfl | inA
    · -- `y` comes before `Q`, which comes before the block taken
      exact ringB y inRing ((beforeQ y inY).trans (afterQ _ List.mem_cons_self)).ne
    · exact inv.apart_free a inA y inRing
  · have inRing : y ∈ R := by rw [split]; simp only [List.mem_append, List.mem_cons] at inY ⊢; tauto
    rcases List.mem_cons.1 inA with rfl | inA
    · simp only [List.mem_cons] at inY
      rcases inY with rfl | inY
      · exact ringB _ inRing (afterQ _ List.mem_cons_self).ne
      · exact ringB y inRing (afterB y inY).ne.symm
    · exact inv.apart_free a inA y inRing

/-- `malloc` cuts `nunits` headers off the top of the larger block `B`: `B` keeps the
rest, and the program holds the cut. -/
theorem FreeList.carve (inv : FreeList base start h R A) {l₁ l₂ : List Blk} {B : Blk}
    (split : R = l₁ ++ B :: l₂) (pos : 0 < nunits) (bigger : nunits < B.units) {prevp : Nat}
    (inRing : prevp ∈ R.map Blk.addr) :
    FreeList base start
      { h with
        mem := setSize (setSize h.mem B.addr (B.units - nunits))
          (B.addr + headerSize * (B.units - nunits)) nunits
        freep := prevp }
      (l₁ ++ ⟨B.addr, B.units - nunits⟩ :: l₂) (⟨B.addr + headerSize * (B.units - nunits), nunits⟩ :: A) := by
  have inB : B ∈ R := by rw [split]; simp
  have inL : ∀ y ∈ l₁, y ∈ R := fun y inY => by rw [split]; simp [inY]
  have inT : ∀ y ∈ l₂, y ∈ R := fun y inY => by rw [split]; simp [inY]
  have bNotBase := inv.ne_base inB (by omega)
  have bHeap := inv.heap B (List.mem_append_left A inB) bNotBase
  obtain ⟨beforeB, afterB⟩ := inv.around split
  -- the cut starts inside `B` and ends where `B` ends
  have cut : B.addr < B.addr + headerSize * (B.units - nunits) ∧
      B.addr + headerSize * (B.units - nunits) < B.fin ∧
      B.addr + headerSize * (B.units - nunits) + headerSize * nunits = B.fin := by
    unfold Blk.fin headerSize
    omega
  have oldLinks := inv.links
  rw [split, List.append_assoc, List.cons_append] at oldLinks
  obtain ⟨bNext, bRest⟩ := List.isChain_cons.1 (List.isChain_split.1 oldLinks).2
  have bRest : Links (fun x => (h.mem x).ptr) Blk.addr (l₂ ++ [baseBlk base]) := bRest
  have sorted := inv.sorted
  rw [split] at sorted
  have low : ∀ y ∈ l₁, y.fin < B.addr := fun y inY => beforeB y inY
  have high : ∀ y ∈ l₂, B.fin < y.addr := fun y inY => afterB y inY
  have heldAddr : ∀ a ∈ A, a.addr ≠ B.addr ∧ a.addr ≠ B.addr + headerSize * (B.units - nunits) := by
    intro a inA
    have apart := (inv.apart_free a inA B inB).1
    have posA := inv.given a inA
    refine ⟨(inv.apart_free a inA B inB).2, ?_⟩
    unfold Blk.Apart Blk.fin headerSize at *
    omega
  refine inv.rebuild split rfl (fun empty => ?_) rfl ?_ (fun y inY => ?_) (fun y first => ?_)
    (bRest.congr rfl fun y _ => (setSize_ptr _ _ _ _).trans (setSize_ptr _ _ _ _))
    (List.isChain_cons.2 ⟨fun y first => ?_, (List.isChain_split.1 sorted).2.tail⟩) (fun y inY => ?_)
    (fun y inY notBase => ?_) (fun a inA => ?_) (List.pairwise_cons.2 ⟨fun a inA => ?_, inv.apart⟩)
    (fun a inA y inY => ?_) (fun a inA y inY => ?_)
  · have head := inv.head
    rw [split, empty] at head
    have isBase : B = baseBlk base := by simpa using head
    exact absurd (by rw [isBase]; rfl) bNotBase
  · have same : (l₁ ++ ⟨B.addr, B.units - nunits⟩ :: l₂).map Blk.addr = R.map Blk.addr := by rw [split]; simp
    rw [same]
    exact inRing
  · have := low y inY
    dsimp only
    rw [setSize_of_ne _ (by unfold Blk.fin at this; omega), setSize_of_ne _ (by unfold Blk.fin at this; omega)]
  · dsimp only
    rw [setSize_ptr, setSize_ptr]
    exact bNext y first
  · cases l₂ with
    | nil => cases first
    | cons c l₂ =>
      simp only [List.head?_cons, Option.mem_def, Option.some.injEq] at first
      rw [← first]
      have := high c List.mem_cons_self
      simp only [Blk.Before, Blk.fin] at *
      omega
  · dsimp only
    simp only [List.mem_append, List.mem_cons] at inY
    rcases inY with (rfl | inY) | rfl | inA
    · rw [setSize_of_ne _ (Nat.ne_of_lt cut.1), setSize_self]
    · have := high y inY
      rw [setSize_of_ne _ (by omega), setSize_of_ne _ (by unfold Blk.fin at this; omega)]
      exact inv.size y (List.mem_append_left A (inT y inY))
    · rw [setSize_self]
    · rw [setSize_of_ne _ (heldAddr y inA).2, setSize_of_ne _ (heldAddr y inA).1]
      exact inv.size y (List.mem_append_right R inA)
  · simp only [List.mem_append, List.mem_cons] at inY
    rcases inY with (rfl | inY) | rfl | inA
    · refine ⟨bHeap.1, bHeap.2.1, bHeap.2.2.1, ?_⟩
      have := bHeap.2.2.2
      simp only [Blk.fin] at *
      omega
    · exact inv.heap y (List.mem_append_left A (inT y inY)) notBase
    · have := bHeap.2.2.2
      simp only [Blk.fin, headerSize] at *
      omega
    · exact inv.heap y (List.mem_append_right R inA) notBase
  · rcases List.mem_cons.1 inA with rfl | inA
    · exact pos
    · exact inv.given a inA
  · exact Or.symm ((inv.apart_free a inA B inB).1.within (Nat.le_of_lt cut.1) (le_of_eq cut.2.2))
  · have := low y inY
    rcases List.mem_cons.1 inA with rfl | inA
    · refine ⟨.inr ?_, ?_⟩ <;> simp only [Blk.fin] at * <;> omega
    · exact inv.apart_free a inA y (inL y inY)
  · rcases List.mem_cons.1 inA with rfl | inA
    · rcases List.mem_cons.1 inY with rfl | inY
      · refine ⟨.inr ?_, Nat.ne_of_gt cut.1⟩
        simp only [Blk.fin]
        exact le_rfl
      · have := high y inY
        refine ⟨.inl ?_, ?_⟩ <;> simp only [Blk.fin] at * <;> omega
    · rcases List.mem_cons.1 inY with rfl | inY
      · refine ⟨(inv.apart_free a inA B inB).1.within le_rfl ?_, (heldAddr a inA).1⟩
        simp only [Blk.fin] at cut ⊢
        omega
      · exact inv.apart_free a inA y (inT y inY)

/-- **`malloc`'s loop.** A walk from `prevp` on the ring that returns within its fuel
and leaves the process below `TRAPFRAME` either gives up with `0`, the program's
blocks unchanged, or hands the program one more block of `nunits` headers, whose
pointer is one header past its start. -/
theorem mallocLoop_spec (below : base < start) (pos : 0 < nunits)
    (fits : max nunits 4096 * headerSize < 2 ^ 31) :
    ∀ {fuel : Nat} {h : Heap} {R : List Blk} {prevp r : Nat} {h' : Heap},
      FreeList base start h R A → prevp ∈ R.map Blk.addr →
      mallocLoop nunits grows fuel h prevp (h.mem prevp).ptr = some (r, h') → h'.sz ≤ trapframeVa →
      (r = 0 ∧ ∃ R', FreeList base start h' R' A) ∨
        ∃ R' b, FreeList base start h' R' (b :: A) ∧ r = b.addr + headerSize ∧ b.units = nunits
  | 0, _, _, _, _, _, _, _, ran, _ => by simp [mallocLoop] at ran
  | fuel + 1, h, R, prevp, r, h', inv, inRing, ran, top => by
    obtain ⟨Q, inQ, rfl⟩ := List.mem_map.1 inRing
    obtain ⟨l, ring⟩ := inv.ring
    have links := inv.links
    rw [ring] at links inQ
    obtain ⟨B, inB, next⟩ := links.next_mem inQ
    rw [← ring] at inB inQ
    rw [next] at ran
    unfold mallocLoop at ran
    rw [inv.size B (List.mem_append_left A inB)] at ran
    split_ifs at ran with enough exact isFreep
    · -- a block of exactly `nunits` leaves the ring whole
      have posB : 0 < B.units := by omega
      obtain ⟨l₁, y, l₂, split, step⟩ :=
        inv.links.split_next inQ (by simp only [next, baseBlk]; exact inv.ne_base inB posB)
      have same : y = B := inv.eq_of_addr (by rw [split]; simp) inB (step.symm.trans next)
      rw [same] at split
      simp only [Option.some.injEq, Prod.mk.injEq] at ran
      obtain ⟨rfl, rfl⟩ := ran
      exact .inr ⟨_, B, inv.take split posB, rfl, exact⟩
    · -- a larger block gives up its tail
      obtain ⟨l₁, l₂, split⟩ := List.append_of_mem inB
      simp only [setSize_self, Option.some.injEq, Prod.mk.injEq] at ran
      obtain ⟨rfl, rfl⟩ := ran
      exact .inr ⟨_, _, inv.carve split pos (by omega) inRing, rfl, rfl⟩
    · -- back at `freep`, `morecore` adds a block and the walk goes on from `freep`
      split at ran
      · cases ran
      · rename_i h₂ more
        simp only [Option.some.injEq, Prod.mk.injEq] at ran
        obtain ⟨rfl, rfl⟩ := ran
        rcases morecore_spec inv below fits ((morecore_sz_le fits more).trans top) more with
          ⟨-, rfl⟩ | ⟨R', inv', -⟩
        · exact .inl ⟨rfl, R, inv⟩
        · exact .inl ⟨rfl, R', inv'⟩
      · rename_i p h₂ notZero more
        have grown := (morecore_sz_le fits more).trans ((mallocLoop_sz_le fits ran).trans top)
        rcases morecore_spec inv below fits grown more with ⟨zero, -⟩ | ⟨R', inv', rfl⟩
        · exact absurd zero notZero
        · exact mallocLoop_spec below pos fits inv' inv'.freep ran top
    · exact mallocLoop_spec below pos fits inv (List.mem_map_of_mem inB) ran top

end Loop

/-! ### `malloc` from the program -/

/-- `nunits` for a request that is a `uint`: no wrap, at least one header, and room
for the bytes after the header. -/
theorem nunitsOf_spec {nbytes : Nat} (small : nbytes < 2 ^ 32) :
    0 < nunitsOf nbytes ∧ nbytes + headerSize ≤ headerSize * nunitsOf nbytes := by
  unfold nunitsOf headerSize
  omega

/-- A request the program can make: `nbytes` is a `uint`, and `morecore`'s byte count
for it fits in `sbrk`'s `int`. -/
def Request (nbytes : Nat) : Prop :=
  nbytes < 2 ^ 32 ∧ max (nunitsOf nbytes) 4096 * headerSize < 2 ^ 31

instance (nbytes : Nat) : Decidable (Request nbytes) :=
  inferInstanceAs (Decidable (_ ∧ _))

/-- The heap before the first `malloc`: no list, and a size from `start` on that is a
whole number of headers. -/
def Fresh (start : Nat) (h : Heap) : Prop :=
  h.freep = 0 ∧ start ≤ h.sz ∧ h.sz % headerSize = 0

section Malloc

variable {base start : Nat} {h : Heap} {A : List Blk} {nbytes : Nat} {grows : Bool} {fuel r : Nat} {h' : Heap}

/-- `malloc`'s first call: `base` alone, of size 0 and linked to itself. -/
theorem FreeList.init (fresh : Fresh start h) :
    FreeList base start { h with mem := setSize (setPtr h.mem base base) base 0, freep := base }
      [baseBlk base] [] where
  head := rfl
  links := by simp [Links, baseBlk]
  sorted := List.isChain_singleton _
  freep := by simp [baseBlk]
  size := by simp [baseBlk]
  heap := by simp [baseBlk]
  given := by simp
  apart := List.Pairwise.nil
  apart_free := by simp
  sz := fresh.2

/-- **`malloc`.** From the heap before the first call or from the free list, a call
that returns below `TRAPFRAME` either fails with `0`, the program's blocks unchanged,
or gives the program a new block of `nunitsOf nbytes` headers, one header before the
pointer it returns. -/
theorem malloc_spec (zero : 0 < base) (below : base < start) (request : Request nbytes)
    (prior : Fresh start h ∧ A = [] ∨ ∃ R, FreeList base start h R A)
    (ran : malloc base h nbytes grows fuel = some (r, h')) (top : h'.sz ≤ trapframeVa) :
    (r = 0 ∧ ∃ R', FreeList base start h' R' A) ∨
      ∃ R' b, FreeList base start h' R' (b :: A) ∧ r = b.addr + headerSize ∧ b.units = nunitsOf nbytes := by
  -- the list the loop starts from, made on the first call
  obtain ⟨R, inv⟩ : ∃ R, FreeList base start
      (if h.freep = 0 then { h with mem := setSize (setPtr h.mem base base) base 0, freep := base } else h)
      R A := by
    rcases prior with ⟨fresh, rfl⟩ | ⟨R, inv⟩
    · rw [if_pos fresh.1]
      exact ⟨_, FreeList.init fresh⟩
    · rw [if_neg (inv.freep_pos zero below).ne']
      exact ⟨R, inv⟩
  exact mallocLoop_spec below (nunitsOf_spec request.1).1 request.2 inv inv.freep ran top

end Malloc

/-! ### The program and its allocator -/

/-- What the program does: `malloc(nbytes)`, with `grows` whether the kernel finds the
pages `sbrk` asks for, or `free` of the `i`-th pointer it holds. -/
inductive Event where
  | malloc (nbytes : Nat) (grows : Bool) (fuel : Nat)
  | free (i : Nat) (fuel : Nat)
  deriving DecidableEq, Repr

/-- The heap, and the pointers the program holds with the bytes it asked for, the
newest first. -/
structure World where
  heap : Heap
  given : List (Nat × Nat)

/-- One call, if it can happen: a `malloc` of a request the program can make, which
returns within its fuel below `TRAPFRAME` (past it, `growproc` panics:
`growproc_remap`), and keeps a pointer other than 0; or a `free` of a pointer the
program holds. -/
def step (base : Nat) (w : World) : Event → Option World
  | .malloc nbytes grows fuel =>
    if Request nbytes then
      match malloc base w.heap nbytes grows fuel with
      | none => none
      | some (r, h) =>
        if trapframeVa < h.sz then none
        else some ⟨h, if r = 0 then w.given else (r, nbytes) :: w.given⟩
    else none
  | .free i fuel =>
    match w.given[i]? with
    | none => none
    | some (ap, _) => (free w.heap ap fuel).map fun h => ⟨h, w.given.eraseIdx i⟩

/-- The worlds the program's calls reach from its start: no list, nothing held, and
the size `start`. -/
def Reachable (base start : Nat) (mem : Nat → Header) (w : World) : Prop :=
  Machine.Reachable (step base) ⟨⟨mem, 0, start⟩, []⟩ w

/-- A pointer the program holds and the block it was cut from: one header past the
block's start, with the bytes asked for inside the block. -/
def Grants (b : Blk) (g : Nat × Nat) : Prop :=
  g.1 = b.addr + headerSize ∧ g.1 + g.2 ≤ b.fin

/-- The allocator between calls: before the first `malloc`, nothing held; after it,
the free list, with one held block for each pointer the program holds. -/
def Allocator (base start : Nat) (w : World) : Prop :=
  Fresh start w.heap ∧ w.given = [] ∨ ∃ R A, FreeList base start w.heap R A ∧ List.Forall₂ Grants A w.given

theorem forall₂_eraseIdx {α β : Type*} {S : α → β → Prop} {l₁ : List α} {l₂ : List β}
    (rel : List.Forall₂ S l₁ l₂) (i : Nat) : List.Forall₂ S (l₁.eraseIdx i) (l₂.eraseIdx i) := by
  rw [List.eraseIdx_eq_take_drop_succ, List.eraseIdx_eq_take_drop_succ]
  exact List.rel_append (List.forall₂_take i rel) (List.forall₂_drop (i + 1) rel)

section Calls

variable {base start : Nat} {w w' : World}

/-- The program's blocks in either state, as `malloc_spec` takes them. -/
theorem Allocator.held (inv : Allocator base start w) :
    ∃ A, (Fresh start w.heap ∧ A = [] ∨ ∃ R, FreeList base start w.heap R A) ∧
      List.Forall₂ Grants A w.given := by
  rcases inv with ⟨fresh, none⟩ | ⟨R, A, inv, grants⟩
  · exact ⟨[], .inl ⟨fresh, rfl⟩, by rw [none]; exact .nil⟩
  · exact ⟨A, .inr ⟨R, inv⟩, grants⟩

theorem Allocator.malloc_step (zero : 0 < base) (below : base < start) {nbytes : Nat} {grows : Bool}
    {fuel : Nat} (inv : Allocator base start w) (stepped : step base w (.malloc nbytes grows fuel) = some w') :
    Allocator base start w' := by
  obtain ⟨A, prior, grants⟩ := inv.held
  by_cases request : Request nbytes
  swap
  · simp [step, request] at stepped
  cases ran : malloc base w.heap nbytes grows fuel with
  | none => simp [step, request, ran] at stepped
  | some res =>
    obtain ⟨r, h'⟩ := res
    by_cases past : trapframeVa < h'.sz
    · simp [step, request, ran, past] at stepped
    simp only [step, if_pos request, ran, if_neg past, Option.some.injEq] at stepped
    subst stepped
    rcases malloc_spec zero below request prior ran (not_lt.1 past) with
      ⟨rfl, R', inv'⟩ | ⟨R', b, inv', rfl, units⟩
    · exact .inr ⟨R', A, inv', by rw [if_pos rfl]; exact grants⟩
    · have bytes := (nunitsOf_spec request.1).2
      refine .inr ⟨R', b :: A, inv', ?_⟩
      rw [if_neg (by unfold headerSize; omega)]
      refine .cons ⟨rfl, ?_⟩ grants
      unfold Blk.fin
      rw [units]
      omega

theorem Allocator.free_step (below : base < start) {i fuel : Nat} (inv : Allocator base start w)
    (stepped : step base w (.free i fuel) = some w') : Allocator base start w' := by
  cases found : w.given[i]? with
  | none => simp [step, found] at stepped
  | some g =>
    obtain ⟨ap, n⟩ := g
    simp only [step, found, Option.map_eq_some_iff] at stepped
    obtain ⟨h', ran, rfl⟩ := stepped
    rcases inv with ⟨-, empty⟩ | ⟨R, A, inv, grants⟩
    · simp [empty] at found
    -- the `i`-th pointer is the one of the `i`-th held block
    obtain ⟨inBounds, entry⟩ := List.getElem?_eq_some_iff.1 found
    have inA : i < A.length := grants.length_eq ▸ inBounds
    have grant : Grants A[i] (ap, n) := by
      have := grants.get inA inBounds
      simpa [entry] using this
    have ran : free w.heap (A[i].addr + headerSize) fuel = some h' := by
      rw [← grant.1]
      exact ran
    obtain ⟨R', inv'⟩ := free_spec inv below (List.getElem_mem inA) ran
    rw [inv.nodup.erase_getElem i inA] at inv'
    exact .inr ⟨R', A.eraseIdx i, inv', forall₂_eraseIdx grants i⟩

/-- **Step lemma.** Every call keeps the allocator's invariant. -/
theorem Allocator.step (zero : 0 < base) (below : base < start) {e : Event} (inv : Allocator base start w)
    (stepped : step base w e = some w') : Allocator base start w' := by
  cases e with
  | malloc nbytes grows fuel => exact inv.malloc_step zero below stepped
  | free i fuel => exact inv.free_step below stepped

/-- **Run lemma.** Every world the program's calls reach keeps the invariant. -/
theorem Reachable.allocator (zero : 0 < base) (below : base < start) (aligned : start % headerSize = 0)
    {mem : Nat → Header} (reachable : Reachable base start mem w) : Allocator base start w :=
  Machine.Reachable.invariant (.inl ⟨⟨rfl, le_rfl, aligned⟩, rfl⟩)
    (fun _ _ _ inv stepped => inv.step zero below stepped) reachable

end Calls

/-- Every world the program's calls reach: before the first `malloc` nothing is held;
after it, the free list is a ring through `base` and `freep`, linked by `s.ptr` with
the sizes its headers record, whose addresses rise from `base` so that the link back
to `base` is its one wrap; its blocks are disjoint, none ends where a later one
begins, and they lie in the memory `sbrk` gave, apart from every block the program
holds; and each pointer the program holds is aligned, one header into a block of its
own, with the bytes it asked for inside that block. -/
theorem malloc_free_shape {base start : Nat} (zero : 0 < base) (below : base < start)
    (aligned : start % headerSize = 0) {mem : Nat → Header} {w : World} (reachable : Reachable base start mem w) :
    w.heap.freep = 0 ∧ w.given = [] ∨
      ∃ R A : List Blk, R.head? = some (baseBlk base) ∧ w.heap.freep ∈ R.map Blk.addr ∧
        Links (fun p => (w.heap.mem p).ptr) Blk.addr (R ++ [baseBlk base]) ∧
        (∀ b ∈ R, (w.heap.mem b.addr).size = b.units) ∧
        R.Pairwise (fun x y => x.addr < y.addr) ∧ R.Pairwise Blk.Before ∧
        (∀ b ∈ R, b.addr ≠ base → start ≤ b.addr ∧ b.fin ≤ w.heap.sz) ∧
        (∀ a ∈ A, ∀ b ∈ R, a.Apart b) ∧ A.Pairwise Blk.Apart ∧
        List.Forall₂ (fun b g => g.1 % headerSize = 0 ∧ Grants b g) A w.given := by
  rcases reachable.allocator zero below aligned with ⟨fresh, none⟩ | ⟨R, A, inv, grants⟩
  · exact .inl ⟨fresh.1, none⟩
  -- a held block starts on a header, so its pointer does too
  have onHeader : ∀ b ∈ A, b.addr % headerSize = 0 := fun b inA =>
    (inv.heap b (List.mem_append_right R inA) (inv.base_lt below inA).ne').2.1
  refine .inr ⟨R, A, inv.head, inv.freep, inv.links, fun b inB => inv.size b (List.mem_append_left A inB),
    inv.increasing, inv.sorted.pairwise, fun b inB notBase => ?_, fun a inA b inB => (inv.apart_free a inA b inB).1,
    inv.apart, ((List.forall₂_and_left _ _).2 ⟨onHeader, grants⟩).imp fun b g held => ⟨?_, held.2⟩⟩
  · have within := inv.heap b (List.mem_append_left A inB) notBase
    exact ⟨within.1, within.2.2.2⟩
  · rw [held.2.1]
    unfold headerSize at *
    omega

/-- Two requests with the pages found, the first freed, and a third served from the
list while `sbrk` would fail. -/
theorem malloc_free_shape_run :
    let w := (Machine.run (step 8192) ⟨⟨fun _ => ⟨0, 0⟩, 0, 12288⟩, []⟩
      [.malloc 100 true 8, .malloc 20 true 8, .free 1 8, .malloc 5000 false 8]).getD
        ⟨⟨fun _ => ⟨0, 0⟩, 0, 12288⟩, []⟩
    w.given = [(72640, 5000), (77664, 20)] ∧
    (w.heap.freep = 0 ∧ w.given = [] ∨
      ∃ R A : List Blk, R.head? = some (baseBlk 8192) ∧ w.heap.freep ∈ R.map Blk.addr ∧
        Links (fun p => (w.heap.mem p).ptr) Blk.addr (R ++ [baseBlk 8192]) ∧
        (∀ b ∈ R, (w.heap.mem b.addr).size = b.units) ∧
        R.Pairwise (fun x y => x.addr < y.addr) ∧ R.Pairwise Blk.Before ∧
        (∀ b ∈ R, b.addr ≠ 8192 → 12288 ≤ b.addr ∧ b.fin ≤ w.heap.sz) ∧
        (∀ a ∈ A, ∀ b ∈ R, a.Apart b) ∧ A.Pairwise Blk.Apart ∧
        List.Forall₂ (fun b g => g.1 % headerSize = 0 ∧ Grants b g) A w.given) := by
  intro w
  have ran : Machine.run (step 8192) ⟨⟨fun _ => ⟨0, 0⟩, 0, 12288⟩, []⟩
      [.malloc 100 true 8, .malloc 20 true 8, .free 1 8, .malloc 5000 false 8] = some w := rfl
  exact ⟨rfl, malloc_free_shape (by decide) (by decide) (by decide)
    (Machine.reachable_of_run Relation.ReflTransGen.refl ran)⟩

end Xv6.Umalloc
