import Mathlib.Data.Fintype.Card
import Mathlib.Data.Fintype.Fin
import Mathlib.Data.List.FinRange
import Mathlib.Tactic

/-!
Contract: the state `kernel/virtio_disk.c` shares with the disk device, and its
descriptor allocator: `alloc_desc`, `free_desc`, `free_chain`, `alloc3_desc`.

`disk` holds the `NUM` descriptors, the avail ring the driver writes chain heads
to, the used ring the device writes completions to, and the driver's own
bookkeeping (`free`, `used_idx`, `info`, `ops`). The allocator reads and writes
only `desc` and `free`.

`alloc3_desc` takes three distinct free descriptors, or, with fewer than three
free, gives back those it took and leaves `free` as it was (`alloc3Desc_spec`).
`free_chain` of three descriptors in use, linked by `VRING_DESC_F_NEXT`, frees
exactly those three (`freeChain_three`). In C `free_chain` follows `next` fields
with no bound; its model recurses on the number of descriptors in use, which every
`free_desc` that does not panic lowers.

Owns: `num`, `Addr`, `Desc`, `BlkReq`, `Info`, `Avail`, `Used`, `Disk`,
`allocDesc`, `freeDesc`, `freeChain`, `alloc3Loop`, `alloc3Desc`.
-/

namespace Xv6.Virtio

/-- `NUM`: the descriptors, and the entries of each ring. -/
def num : Nat := 8

instance : NeZero num := ⟨by decide⟩

/-- `VRING_DESC_F_NEXT`: chained with another descriptor. -/
def vringDescFNext : UInt16 := 1

/-- `VRING_DESC_F_WRITE`: the device writes the buffer. -/
def vringDescFWrite : UInt16 := 2

/-- What a descriptor's `addr` points at. -/
inductive Addr where
  | null
  | op (i : Fin num)
  | data (b : Nat)
  | status (i : Fin num)
deriving DecidableEq, Repr

/-- `struct virtq_desc`. -/
structure Desc where
  addr : Addr
  len : Nat
  flags : UInt16
  next : UInt16
deriving DecidableEq, Repr

/-- A descriptor as `memset` and `free_desc` leave it. -/
def Desc.zero : Desc := ⟨.null, 0, 0, 0⟩

/-- `struct virtio_blk_req`. -/
structure BlkReq where
  type : UInt32
  reserved : UInt32
  sector : Nat
deriving DecidableEq, Repr

/-- An entry of `disk.info`: the `struct buf` of the request whose chain starts
there (`none` for a null pointer), and the status byte the device writes. -/
structure Info where
  b : Option Nat
  status : UInt8
deriving DecidableEq, Repr

/-- `struct virtq_avail` without `flags` and `unused`, which stay zero. -/
structure Avail where
  idx : UInt16
  ring : Fin num → UInt16

/-- `struct virtq_used` without `flags`; of each element the driver reads `id`. -/
structure Used where
  idx : UInt16
  ring : Fin num → UInt32

/-- `disk`, without its lock. -/
structure Disk where
  desc : Fin num → Desc
  avail : Avail
  used : Used
  free : Fin num → Bool
  usedIdx : UInt16
  info : Fin num → Info
  ops : Fin num → BlkReq

/-! ### The allocator -/

/-- `d` with descriptor `i` marked in use. -/
@[simps]
def Disk.take (d : Disk) (i : Fin num) : Disk :=
  { d with free := Function.update d.free i false }

/-- `d` with descriptor `i` cleared and marked free. -/
@[simps]
def Disk.give (d : Disk) (i : Fin num) : Disk :=
  { d with desc := Function.update d.desc i Desc.zero, free := Function.update d.free i true }

/-- `alloc_desc`: the first free descriptor, marked in use. -/
def allocDesc (d : Disk) : Disk × Option (Fin num) :=
  match (List.finRange num).find? (d.free ·) with
  | some i => (d.take i, some i)
  | none => (d, none)

/-- `free_desc`. -/
def freeDesc (d : Disk) (i : Nat) : Except String Disk :=
  if h : i < num then
    if d.free ⟨i, h⟩ then .error "free_desc 2" else .ok (d.give ⟨i, h⟩)
  else .error "free_desc 1"

/-- The descriptors in use. -/
def Disk.busy (d : Disk) : Nat :=
  (Finset.univ.filter fun i => d.free i = false).card

theorem busy_give_lt {d : Disk} {i : Fin num} (inUse : d.free i = false) : (d.give i).busy < d.busy := by
  apply Finset.card_lt_card
  rw [Finset.ssubset_iff_of_subset]
  · exact ⟨i, by simp [inUse], by simp⟩
  · intro j
    by_cases same : j = i
    · simp [same]
    · simp [Function.update_of_ne same]

theorem freeDesc_of_busy {d : Disk} {i : Fin num} (inUse : d.free i = false) :
    freeDesc d i = .ok (d.give i) := by
  simp [freeDesc, inUse]

theorem freeDesc_busy_lt {d d' : Disk} {i : Nat} (freed : freeDesc d i = .ok d') : d'.busy < d.busy := by
  unfold freeDesc at freed
  split at freed
  · split at freed
    · cases freed
    · rename_i inUse
      cases freed
      exact busy_give_lt (by simpa using inUse)
  · cases freed

/-- `free_chain`: free `i`, and then, while the descriptor freed had
`VRING_DESC_F_NEXT`, the one its `next` names. -/
def freeChain (d : Disk) (i : Nat) : Except String Disk :=
  if h : i < num then
    let flag := (d.desc ⟨i, h⟩).flags
    let nxt := (d.desc ⟨i, h⟩).next
    match freed : freeDesc d i with
    | .error e => .error e
    | .ok d' => if flag &&& vringDescFNext ≠ 0 then freeChain d' nxt.toNat else .ok d'
  else .error "free_desc 1"
termination_by d.busy
decreasing_by exact freeDesc_busy_lt freed

/-- The loop of `alloc3_desc` from `idx[i]` on: `idx` holds `idx[0..i)` and
`left` is `3 - i`. On a failed `alloc_desc` it frees `idx[0..i)` in order. -/
def alloc3Loop (d : Disk) (idx : List (Fin num)) : Nat → Except String (Disk × Option (List (Fin num)))
  | 0 => .ok (d, some idx)
  | left + 1 =>
    match allocDesc d with
    | (d, some i) => alloc3Loop d (idx ++ [i]) left
    | (d, none) => do
      let d ← idx.foldlM (fun d (j : Fin num) => freeDesc d j) d
      pure (d, none)

/-- `alloc3_desc`: `some idx` where C returns 0, `none` where it returns -1. -/
def alloc3Desc (d : Disk) : Except String (Disk × Option (List (Fin num))) :=
  alloc3Loop d [] 3

/-! ### What the allocator does -/

theorem allocDesc_spec (d : Disk) :
    (∃ i, d.free i = true ∧ allocDesc d = (d.take i, some i)) ∨
      ((∀ i, d.free i = false) ∧ allocDesc d = (d, none)) := by
  unfold allocDesc
  cases found : (List.finRange num).find? (d.free ·) with
  | some i => exact .inl ⟨i, List.find?_some found, rfl⟩
  | none =>
    refine .inr ⟨fun i => ?_, rfl⟩
    simpa using List.find?_eq_none.mp found i (List.mem_finRange i)

/-- Descriptors taken one after another: those of `l` are in use. -/
theorem foldl_take (l : List (Fin num)) :
    ∀ d : Disk, l.foldl Disk.take d = { d with free := fun j => d.free j && !decide (j ∈ l) } := by
  induction l with
  | nil => intro d; simp
  | cons i l ih =>
    intro d
    rw [List.foldl_cons, ih]
    congr 1
    funext j
    by_cases same : j = i <;> simp [Function.update, same]

/-- Descriptors given back one after another: those of `l` are cleared and free. -/
theorem foldl_give (l : List (Fin num)) :
    ∀ d : Disk, l.foldl Disk.give d =
      { d with desc := fun j => if j ∈ l then Desc.zero else d.desc j,
               free := fun j => d.free j || decide (j ∈ l) } := by
  induction l with
  | nil => intro d; simp
  | cons i l ih =>
    intro d
    rw [List.foldl_cons, ih]
    congr 1 <;> funext j <;> by_cases same : j = i <;> simp [Function.update, same]

/-- `free_desc` on descriptors in use, one after another, gives each back. -/
theorem foldlM_freeDesc {l : List (Fin num)} (nodup : l.Nodup) :
    ∀ {d : Disk}, (∀ j ∈ l, d.free j = false) →
      l.foldlM (fun d (j : Fin num) => freeDesc d j) d = .ok (l.foldl Disk.give d) := by
  induction l with
  | nil => intro d _; rfl
  | cons i l ih =>
    intro d inUse
    rw [List.nodup_cons] at nodup
    have rest : ∀ j ∈ l, (d.give i).free j = false := by
      intro j mem
      have other : j ≠ i := fun same => nodup.1 (same ▸ mem)
      simpa [Function.update_of_ne other] using inUse j (List.mem_cons_of_mem i mem)
    simp only [List.foldlM_cons, List.foldl_cons, freeDesc_of_busy (inUse i List.mem_cons_self)]
    exact ih nodup.2 rest

/-- **The loop of `alloc3_desc`.** From descriptors `idx` taken off `orig`, it
either takes `left` more, distinct and free in `orig`, or gives back the ones it
took before it found none free. -/
theorem alloc3Loop_spec (orig : Disk) :
    ∀ (left : Nat) (idx : List (Fin num)), idx.Nodup → (∀ j ∈ idx, orig.free j = true) →
      (∃ more : List (Fin num), more.length = left ∧ (idx ++ more).Nodup ∧ (∀ j ∈ more, orig.free j = true) ∧
        alloc3Loop (idx.foldl Disk.take orig) idx left = .ok ((idx ++ more).foldl Disk.take orig, some (idx ++ more))) ∨
      ∃ got : List (Fin num), got.Nodup ∧ (∀ j ∈ got, orig.free j = true) ∧
        alloc3Loop (idx.foldl Disk.take orig) idx left = .ok (got.foldl Disk.give (got.foldl Disk.take orig), none)
  | 0, idx, _, _ => .inl ⟨[], rfl, by simpa, by simp, by simp [alloc3Loop]⟩
  | left + 1, idx, nodup, wereFree => by
    rcases allocDesc_spec (idx.foldl Disk.take orig) with ⟨i, isFree, got⟩ | ⟨none, got⟩
    · -- one more taken: `i` is free in `orig` and not among `idx`
      have both : orig.free i = true ∧ i ∉ idx := by simpa [foldl_take] using isFree
      obtain ⟨origFree, fresh⟩ := both
      have nodup' : (idx ++ [i]).Nodup := by
        rw [← List.concat_eq_append]
        exact nodup.concat fresh
      have wereFree' : ∀ j ∈ idx ++ [i], orig.free j = true := by
        intro j mem
        rcases List.mem_append.mp mem with old | new
        · exact wereFree j old
        · rw [List.mem_singleton.mp new]
          exact origFree
      have step : alloc3Loop (idx.foldl Disk.take orig) idx (left + 1) =
          alloc3Loop ((idx ++ [i]).foldl Disk.take orig) (idx ++ [i]) left := by
        rw [alloc3Loop, got, List.foldl_append, List.foldl_cons, List.foldl_nil]
      rw [step]
      rcases alloc3Loop_spec orig left (idx ++ [i]) nodup' wereFree' with ⟨more, len, nodup'', free'', ran⟩ | failed
      · refine .inl ⟨i :: more, by simp [len], by simpa using nodup'', ?_, by simpa using ran⟩
        intro j mem
        rcases List.mem_cons.mp mem with rfl | later
        · exact origFree
        · exact free'' j later
      · exact .inr failed
    · -- none free: the ones taken are given back
      have inUse : ∀ j ∈ idx, (idx.foldl Disk.take orig).free j = false := by
        intro j mem
        simp [foldl_take, mem]
      refine .inr ⟨idx, nodup, wereFree, ?_⟩
      rw [alloc3Loop, got]
      simp only [foldlM_freeDesc nodup inUse]
      rfl

/-- **`alloc3_desc`.** Three distinct descriptors, free before and in use after,
and nothing else changed; or, with fewer than three free, the descriptors in use
and every field but the free descriptors' contents as they were. It never
panics. -/
theorem alloc3Desc_spec (d : Disk) :
    (∃ i0 i1 i2 : Fin num, [i0, i1, i2].Nodup ∧ (∀ j ∈ [i0, i1, i2], d.free j = true) ∧
      alloc3Desc d = .ok ([i0, i1, i2].foldl Disk.take d, some [i0, i1, i2])) ∨
    ∃ d', alloc3Desc d = .ok (d', none) ∧ d' = { d with desc := d'.desc } ∧
      ∀ j, d.free j = false → d'.desc j = d.desc j := by
  rcases alloc3Loop_spec d 3 [] List.nodup_nil (by simp) with ⟨more, len, nodup, wereFree, ran⟩ | ⟨got, nodup, wereFree, ran⟩
  · match more, len with
    | [i0, i1, i2], _ => exact .inl ⟨i0, i1, i2, by simpa using nodup, wereFree, by simpa [alloc3Desc] using ran⟩
  · refine .inr ⟨_, ran, ?_, ?_⟩
    · rw [foldl_give, foldl_take]
      congr 1
      funext j
      by_cases mem : j ∈ got
      · simp [mem, wereFree j mem]
      · simp [mem]
    · intro j inUse
      have notGot : j ∉ got := fun mem => by simp [wereFree j mem] at inUse
      simp [foldl_give, foldl_take, notGot]

/-- One pass of `free_chain` on a descriptor in use. -/
theorem freeChain_busy {d : Disk} {i : Fin num} (inUse : d.free i = false) :
    freeChain d i = if (d.desc i).flags &&& vringDescFNext ≠ 0 then freeChain (d.give i) (d.desc i).next.toNat
      else .ok (d.give i) := by
  rw [freeChain, dif_pos i.isLt]
  split
  · rename_i freed
    rw [freeDesc_of_busy inUse] at freed
    cases freed
  · rename_i freed
    rw [freeDesc_of_busy inUse] at freed
    cases freed
    rfl

/-- **`free_chain` of a chain of three.** Descriptors `i0`, `i1`, `i2` in use,
the first two with `VRING_DESC_F_NEXT` naming the next and the last without:
`free_chain(i0)` frees exactly those three. -/
theorem freeChain_three {d : Disk} {i0 i1 i2 : Fin num} (distinct : [i0, i1, i2].Nodup)
    (inUse : ∀ j ∈ [i0, i1, i2], d.free j = false)
    (link0 : (d.desc i0).flags &&& vringDescFNext ≠ 0) (next0 : (d.desc i0).next.toNat = i1)
    (link1 : (d.desc i1).flags &&& vringDescFNext ≠ 0) (next1 : (d.desc i1).next.toNat = i2)
    (last : (d.desc i2).flags &&& vringDescFNext = 0) :
    freeChain d i0 = .ok ([i0, i1, i2].foldl Disk.give d) := by
  simp only [List.nodup_cons, List.mem_cons, not_or, List.not_mem_nil, not_false_eq_true,
    List.nodup_nil, and_true] at distinct
  obtain ⟨⟨ne01, ne02⟩, ne12⟩ := distinct
  -- each pass frees one descriptor and reads the flags and `next` it had
  have free1 : (d.give i0).free i1 = false := by
    simpa [Function.update_of_ne (Ne.symm ne01)] using inUse i1 (by simp)
  have free2 : ((d.give i0).give i1).free i2 = false := by
    simpa [Function.update_of_ne (Ne.symm ne02), Function.update_of_ne (Ne.symm ne12)] using inUse i2 (by simp)
  have desc1 : (d.give i0).desc i1 = d.desc i1 := by simp [Function.update_of_ne (Ne.symm ne01)]
  have desc2 : ((d.give i0).give i1).desc i2 = d.desc i2 := by
    simp [Function.update_of_ne (Ne.symm ne02), Function.update_of_ne (Ne.symm ne12)]
  rw [freeChain_busy (inUse i0 (by simp)), if_pos link0, next0, freeChain_busy free1, desc1, if_pos link1,
    next1, freeChain_busy free2, desc2, if_neg (not_not.mpr last)]
  rfl

end Xv6.Virtio
