import Xv6.Vm.Mappages

/-!
Contract: what `copyout`, `copyin` and `copyinstr` (`kernel/vm.c`) do, byte by
byte, through the page table as `walk` reads it.

The user byte at `va` is the byte of physical memory at its page's frame plus
its offset (`PageTable.physAddr`). `copyout` may write it when its page is below
`MAXVA` and mapped with `PTE_V`, `PTE_U` and `PTE_W` (`PageTable.Writable`).
`copyin` and `copyinstr` may read it when its page is below `MAXVA` and mapped
with `PTE_V` and `PTE_U` to a frame other than 0 (`PageTable.Readable`): they
take `walkaddr`'s 0 for a page they cannot use, so a frame at address 0 reads as
unmapped.

Each routine goes page by page. Each is tied here to the copy of one byte after
another over the longest prefix of its range that it may use (`StopsAt`), and
its result says whether that prefix is the whole range. None of them panics, so
none calls `walk` on an address at or above `MAXVA`.

Owns: `StopsAt`, `PageTable.physAddr`, `PageTable.Writable`, `PageTable.Readable`,
`PageTable.writeUser`, `PageTable.readUser`, the runs of `walkaddr`, `copyout`,
`copyin` and `copyinstr`.

Does not own: the routines (`Xv6.Vm.PageTable`).
-/

namespace Xv6.Vm

open Hoare

/-! ### Where a copy stops -/

/-- A copy of `len` bytes from `va` stops after `m` of them: each byte before
goes to a place `P` allows, and the one at `m`, if there is one, does not. -/
structure StopsAt (P : Nat → Prop) (va len m : Nat) : Prop where
  le : m ≤ len
  allowed : ∀ i < m, P (va + i)
  stop : m < len → ¬P (va + m)

section StopsAt

variable {P : Nat → Prop} {va len m : Nat}

theorem StopsAt.nil (P : Nat → Prop) (va : Nat) : StopsAt P va 0 0 :=
  ⟨le_rfl, fun _ below => absurd below (Nat.not_lt_zero _), fun below => absurd below (Nat.lt_irrefl _)⟩

theorem StopsAt.here (refused : ¬P va) : StopsAt P va len 0 :=
  ⟨Nat.zero_le _, fun _ below => absurd below (Nat.not_lt_zero _), fun _ => refused⟩

/-- A first stretch of `n` allowed bytes, up to a page boundary `next` unless it
ends the copy, then the copy from `next` on. -/
theorem StopsAt.page {n next m' : Nat} (fits : n ≤ len) (allowed : ∀ i < n, P (va + i))
    (boundary : n < len → va + n = next) (rest : StopsAt P next (len - n) m') : StopsAt P va len (n + m') := by
  have le := rest.le
  refine ⟨by omega, fun i below => ?_, fun below => ?_⟩
  · by_cases first : i < n
    · exact allowed i first
    · have shifted := rest.allowed (i - n) (by omega)
      rwa [← boundary (by omega), Nat.add_assoc, Nat.add_sub_cancel' (by omega)] at shifted
  · have stopped := rest.stop (by omega)
    rwa [← boundary (by omega), Nat.add_assoc] at stopped

/-- A copy goes through exactly when every byte is allowed. -/
theorem StopsAt.whole_iff (stops : StopsAt P va len m) : m = len ↔ ∀ i < len, P (va + i) := by
  constructor
  · rintro rfl
    exact stops.allowed
  · intro all
    by_contra short
    exact stops.stop (lt_of_le_of_ne stops.le short) (all m (lt_of_le_of_ne stops.le short))

/-- A copy stops at one place only. -/
theorem StopsAt.unique {j : Nat} (stops : StopsAt P va len m) (other : StopsAt P va len j) : m = j := by
  by_contra apart
  rcases Nat.lt_or_gt_of_ne apart with before | after
  · exact stops.stop (by have := other.le; omega) (other.allowed m before)
  · exact other.stop (by have := stops.le; omega) (stops.allowed j after)

end StopsAt

/-! ### Physical memory -/

theorem store_nil (mem : Nat → UInt8) (p : Nat) : store mem p [] = mem := by
  funext a
  simp [store]

/-- Storing bytes is storing the first, then the rest from the next address. -/
theorem store_cons (mem : Nat → UInt8) (p : Nat) (b : UInt8) (bs : List UInt8) :
    store mem p (b :: bs) = store (Function.update mem p b) (p + 1) bs := by
  funext a
  unfold store
  by_cases here : a = p
  · subst here
    simp
  rw [Function.update_of_ne here, List.length_cons]
  by_cases inside : p + 1 ≤ a ∧ a < p + 1 + bs.length
  · obtain ⟨j, rfl⟩ : ∃ j, a = p + 1 + j := ⟨a - (p + 1), by omega⟩
    rw [if_pos (by omega), if_pos inside, show p + 1 + j - p = j + 1 by omega, Nat.add_sub_cancel_left,
      List.getD_cons_succ]
  · rw [if_neg (by omega), if_neg inside]

/-! ### The user bytes -/

/-- The slot of an address is that of its page. -/
theorem Slot.ofVa_page {va va' : Nat} (same : va / pgSize = va' / pgSize) : Slot.ofVa va = Slot.ofVa va' := by
  have shift : ∀ a level : Nat, a / 2 ^ (12 + 9 * level) = a / pgSize / 2 ^ (9 * level) := by
    intro a level
    rw [pow_add, ← Nat.div_div_eq_div_mul]
    rfl
  simp only [Slot.ofVa, px, shift va, shift va', same]

namespace PageTable

variable (pt : PageTable)

/-- The physical address of the user byte at `va`: its page's frame plus its offset. -/
def physAddr (va : Nat) : Nat :=
  (pt.entry (Slot.ofVa va)).pa + va % pgSize

/-- `va`'s page as `copyout` may write it. -/
def Writable (va : Nat) : Prop :=
  va < maxVA ∧ (pt.entry (Slot.ofVa va)).v = true ∧ (pt.entry (Slot.ofVa va)).u = true ∧
    (pt.entry (Slot.ofVa va)).w = true

instance (va : Nat) : Decidable (pt.Writable va) :=
  inferInstanceAs (Decidable (_ ∧ _))

/-- `va`'s page as `copyin` and `copyinstr` may read it. -/
def Readable (va : Nat) : Prop :=
  va < maxVA ∧ (pt.entry (Slot.ofVa va)).v = true ∧ (pt.entry (Slot.ofVa va)).u = true ∧
    (pt.entry (Slot.ofVa va)).pa ≠ 0

instance (va : Nat) : Decidable (pt.Readable va) :=
  inferInstanceAs (Decidable (_ ∧ _))

/-- The bytes `bs` written from `va` on, one after another. -/
def writeUser (mem : Nat → UInt8) (va : Nat) : List UInt8 → Nat → UInt8
  | [] => mem
  | b :: bs => writeUser (Function.update mem (pt.physAddr va) b) (va + 1) bs

/-- The `n` user bytes from `va` on. -/
def readUser (mem : Nat → UInt8) (va n : Nat) : List UInt8 :=
  (List.range n).map fun i => mem (pt.physAddr (va + i))

variable {pt}

/-! ### One page -/

section Page

variable {va i : Nat}

theorem entry_add (inPage : va % pgSize + i < pgSize) :
    pt.entry (Slot.ofVa (va + i)) = pt.entry (Slot.ofVa va) := by
  rw [@Slot.ofVa_page (va + i) va (by unfold pgSize at inPage ⊢; omega)]

theorem physAddr_add (inPage : va % pgSize + i < pgSize) :
    pt.physAddr (va + i) = (pt.entry (Slot.ofVa va)).pa + va % pgSize + i := by
  have offset : (va + i) % pgSize = va % pgSize + i := by
    unfold pgSize at inPage ⊢
    omega
  rw [physAddr, entry_add inPage, offset, Nat.add_assoc]

theorem below_add (inPage : va % pgSize + i < pgSize) : va + i < maxVA ↔ va < maxVA := by
  simp only [maxVA, pgSize] at inPage ⊢
  omega

theorem writable_add (inPage : va % pgSize + i < pgSize) : pt.Writable (va + i) ↔ pt.Writable va := by
  rw [Writable, Writable, entry_add inPage, below_add inPage]

theorem readable_add (inPage : va % pgSize + i < pgSize) : pt.Readable (va + i) ↔ pt.Readable va := by
  rw [Readable, Readable, entry_add inPage, below_add inPage]

/-- The page's first address has the page's entry. -/
theorem entry_pageBase (va : Nat) : pt.entry (Slot.ofVa (va / pgSize * pgSize)) = pt.entry (Slot.ofVa va) := by
  rw [@Slot.ofVa_page (va / pgSize * pgSize) va (by unfold pgSize; omega)]

theorem pageBase_below (va : Nat) : va / pgSize * pgSize < maxVA ↔ va < maxVA := by
  simp only [maxVA, pgSize]
  omega

end Page

/-! ### Writing and reading byte by byte -/

section Bytes

variable {mem : Nat → UInt8} {va : Nat}

theorem writeUser_append (mem : Nat → UInt8) (va : Nat) (xs ys : List UInt8) :
    pt.writeUser mem va (xs ++ ys) = pt.writeUser (pt.writeUser mem va xs) (va + xs.length) ys := by
  induction xs generalizing mem va with
  | nil => rfl
  | cons b bs ih =>
    rw [List.cons_append, writeUser, writeUser, ih, List.length_cons,
      show va + 1 + bs.length = va + (bs.length + 1) by omega]

/-- A store of bytes each of which lands on its own physical address is the copy
of one byte after another. -/
theorem store_eq_writeUser {p : Nat} {bs : List UInt8} (lands : ∀ i < bs.length, pt.physAddr (va + i) = p + i) :
    store mem p bs = pt.writeUser mem va bs := by
  induction bs generalizing mem va p with
  | nil => exact store_nil mem p
  | cons b bs ih =>
    have first : pt.physAddr va = p := by simpa using lands 0 (by simp)
    rw [store_cons, writeUser, first]
    refine ih fun i below => ?_
    have next := lands (i + 1) (by simp only [List.length_cons]; omega)
    rw [show va + (i + 1) = va + 1 + i by omega] at next
    rw [next]
    omega

/-- The copy leaves every address no byte lands on. -/
theorem writeUser_apply_of_ne {a : Nat} {bs : List UInt8} (apart : ∀ i < bs.length, pt.physAddr (va + i) ≠ a) :
    pt.writeUser mem va bs a = mem a := by
  induction bs generalizing mem va with
  | nil => rfl
  | cons b bs ih =>
    have first : pt.physAddr va ≠ a := by simpa using apart 0 (by simp)
    rw [writeUser, ih fun i below => ?_, Function.update_of_ne first.symm]
    have later := apart (i + 1) (by simp only [List.length_cons]; omega)
    rwa [show va + (i + 1) = va + 1 + i by omega] at later

/-- An address the copy changed is where one of its bytes landed. -/
theorem writeUser_changed {a : Nat} {bs : List UInt8} (changed : pt.writeUser mem va bs a ≠ mem a) :
    ∃ i < bs.length, pt.physAddr (va + i) = a := by
  by_contra none
  exact changed (writeUser_apply_of_ne fun i below landed => none ⟨i, below, landed⟩)

/-- Where the bytes land on distinct addresses, each address holds its byte. -/
theorem writeUser_apply_self {bs : List UInt8}
    (distinct : ∀ i < bs.length, ∀ j < bs.length, pt.physAddr (va + i) = pt.physAddr (va + j) → i = j)
    (i : Nat) (below : i < bs.length) : pt.writeUser mem va bs (pt.physAddr (va + i)) = bs[i] := by
  induction bs generalizing mem va i with
  | nil => exact absurd below (Nat.not_lt_zero _)
  | cons b bs ih =>
    rw [writeUser]
    cases i with
    | zero =>
      -- no later byte lands where the first did
      rw [writeUser_apply_of_ne fun j later same => ?_]
      · simp
      · have first := distinct (j + 1) (by simp only [List.length_cons]; omega) 0 (by simp)
          (by rw [← same, show va + (j + 1) = va + 1 + j by omega])
        omega
    | succ i =>
      rw [show va + (i + 1) = va + 1 + i by omega, List.getElem_cons_succ]
      refine ih (fun j jb l lb same => ?_) i (by simpa using below)
      have := distinct (j + 1) (by simp only [List.length_cons]; omega) (l + 1)
        (by simp only [List.length_cons]; omega)
        (by rwa [show va + (j + 1) = va + 1 + j by omega, show va + (l + 1) = va + 1 + l by omega])
      omega

theorem load_succ (mem : Nat → UInt8) (p n : Nat) : load mem p (n + 1) = mem p :: load mem (p + 1) n := by
  simp only [load, List.range_succ_eq_map, List.map_cons, List.map_map, Nat.add_zero]
  congr 1
  refine List.map_congr_left fun i _ => ?_
  simp only [Function.comp, Nat.add_assoc, Nat.add_comm 1 i]

theorem readUser_add (mem : Nat → UInt8) (va m n : Nat) :
    pt.readUser mem va (m + n) = pt.readUser mem va m ++ pt.readUser mem (va + m) n := by
  simp only [readUser, List.range_add, List.map_append, List.map_map]
  congr 2
  funext i
  simp only [Function.comp, Nat.add_assoc]

/-- A load of bytes each at its own physical address is the read of one byte
after another. -/
theorem load_eq_readUser {p n : Nat} (lands : ∀ i < n, pt.physAddr (va + i) = p + i) :
    load mem p n = pt.readUser mem va n := by
  refine List.map_congr_left fun i member => ?_
  rw [lands i (List.mem_range.mp member)]

/-- One store of the bytes that go to `va`'s page, then the rest written from
the next page `next` on, writes them all one after another. -/
theorem writeUser_page {n m next : Nat} {src : List UInt8} (inPage : va % pgSize + n ≤ pgSize)
    (fits : n ≤ src.length) (boundary : n < src.length → va + n = next) :
    pt.writeUser (store mem ((pt.entry (Slot.ofVa va)).pa + va % pgSize) (src.take n)) next ((src.drop n).take m) =
      pt.writeUser mem va (src.take (n + m)) := by
  have lands : ∀ i < (src.take n).length, pt.physAddr (va + i) = (pt.entry (Slot.ofVa va)).pa + va % pgSize + i :=
    fun i below => physAddr_add (by simp only [List.length_take] at below; omega)
  rw [store_eq_writeUser lands, List.take_add, writeUser_append, List.length_take, Nat.min_eq_left fits]
  by_cases more : n < src.length
  · rw [boundary more]
  · rw [List.drop_eq_nil_of_le (Nat.le_of_not_lt more), List.take_nil]
    rfl

/-- Reading the bytes of `va`'s page with one load, then the rest from the next
page `next` on, reads them all one after another. -/
theorem readUser_page {n m next len : Nat} (inPage : va % pgSize + n ≤ pgSize) (rest : m ≤ len - n)
    (boundary : n < len → va + n = next) :
    load mem ((pt.entry (Slot.ofVa va)).pa + va % pgSize) n ++ pt.readUser mem next m =
      pt.readUser mem va (n + m) := by
  rw [load_eq_readUser fun i below => physAddr_add (by omega), readUser_add]
  by_cases more : n < len
  · rw [boundary more]
  · -- the first page holds all the bytes: nothing is read past it
    obtain rfl : m = 0 := by omega
    rfl

end Bytes

end PageTable

/-! ### The routines -/

open PageTable

/-- `walkaddr` changes nothing; it gives the frame of a valid user entry below
`MAXVA`, and 0 for any other. -/
theorem walkaddr_run (pt : PageTable) (va : Nat) (k : Kmem) :
    (walkaddr pt va).run k =
      .ok (if va < maxVA ∧ (pt.entry (Slot.ofVa va)).v = true ∧ (pt.entry (Slot.ofVa va)).u = true then
        (pt.entry (Slot.ofVa va)).pa else 0, k) := by
  unfold walkaddr
  by_cases high : maxVA ≤ va
  · rw [if_pos high, if_neg (by omega), StateT.run_pure]
    rfl
  rw [if_neg high, walk_lookup_bind (Nat.not_le.mp high)]
  by_cases present : pt.Present (Slot.ofVa va)
  · have leaf := leaf_eq_entry present
    rw [if_pos present]
    dsimp only
    rw [leaf]
    by_cases valid : (pt.entry (Slot.ofVa va)).v = true
    · by_cases user : (pt.entry (Slot.ofVa va)).u = true
      · rw [if_neg (by simp [valid]), if_neg (by simp [user]), if_pos ⟨Nat.not_le.mp high, valid, user⟩]
        rfl
      · rw [if_neg (by simp [valid]), if_pos (by simpa using user), if_neg (by simp [user])]
        rfl
    · rw [if_pos (by simpa using valid), if_neg (by simp [valid])]
      rfl
  · have zero : pt.entry (Slot.ofVa va) = Pte.zero := by simp [entry, present]
    rw [if_neg present, zero, if_neg (by simp [Pte.zero])]
    rfl

/-- `walkaddr` of a page's first address: not 0 exactly when the page may be
read, and then its frame. -/
theorem walkaddr_pageBase (pt : PageTable) (va : Nat) (k : Kmem) :
    ∃ pa0, (walkaddr pt (va / pgSize * pgSize)).run k = .ok (pa0, k) ∧ (pa0 ≠ 0 ↔ pt.Readable va) ∧
      (pa0 ≠ 0 → pa0 = (pt.entry (Slot.ofVa va)).pa) := by
  refine ⟨_, walkaddr_run pt _ k, ?_⟩
  simp only [entry_pageBase, pageBase_below]
  split
  · rename_i mapped
    exact ⟨⟨fun nonzero => ⟨mapped.1, mapped.2.1, mapped.2.2, nonzero⟩, fun readable => readable.2.2.2⟩,
      fun _ => rfl⟩
  · rename_i unmapped
    exact ⟨⟨fun zero => absurd rfl zero, fun readable => absurd ⟨readable.1, readable.2.1, readable.2.2.1⟩ unmapped⟩,
      fun zero => absurd rfl zero⟩

/-- `copyout`'s loop, with fuel for every byte: it writes the bytes one after
another up to where it stops, and returns 0 exactly when that is the end. -/
theorem copyoutLoop_run (pt : PageTable) (fuel : Nat) :
    ∀ (dstva : Nat) (src : List UInt8) (k : Kmem), src.length ≤ fuel →
      ∃ m, StopsAt pt.Writable dstva src.length m ∧
        (copyoutLoop pt dstva src fuel).run k =
          .ok (if m = src.length then 0 else -1, { k with mem := pt.writeUser k.mem dstva (src.take m) }) := by
  induction fuel with
  | zero =>
    intro dstva src k short
    obtain rfl : src = [] := List.eq_nil_of_length_eq_zero (Nat.le_zero.mp short)
    exact ⟨0, StopsAt.nil _ _, rfl⟩
  | succ fuel ih =>
    intro dstva src k short
    unfold copyoutLoop
    by_cases empty : src.length = 0
    · rw [if_pos empty, List.eq_nil_of_length_eq_zero empty]
      exact ⟨0, StopsAt.nil _ _, rfl⟩
    rw [if_neg empty]
    -- a page that may not be written stops the copy before its first byte
    have refused : ¬pt.Writable dstva → ∃ m, StopsAt pt.Writable dstva src.length m ∧
        (Except.ok (-1, k) : Except String (Int × Kmem)) =
          .ok (if m = src.length then 0 else -1, { k with mem := pt.writeUser k.mem dstva (src.take m) }) :=
      fun no => ⟨0, StopsAt.here no, by rw [if_neg (Ne.symm empty)]; rfl⟩
    by_cases high : maxVA ≤ dstva / pgSize * pgSize
    · rw [if_pos high]
      exact refused fun writable => absurd ((pageBase_below dstva).mpr writable.1) (Nat.not_lt.mpr high)
    rw [if_neg high, walk_lookup_bind (Nat.not_le.mp high)]
    by_cases present : pt.Present (Slot.ofVa (dstva / pgSize * pgSize))
    swap
    · rw [if_neg present]
      have zero : pt.entry (Slot.ofVa dstva) = Pte.zero := by
        rw [← entry_pageBase]
        simp [entry, present]
      exact refused fun writable => absurd writable.2.1 (by rw [zero]; decide)
    rw [if_pos present]
    dsimp only
    rw [leaf_eq_entry present, entry_pageBase]
    have below : dstva < maxVA := (pageBase_below dstva).mp (Nat.not_le.mp high)
    by_cases writable : pt.Writable dstva
    swap
    · rw [if_pos]
      · exact refused writable
      · by_contra none
        simp only [not_or] at none
        exact writable ⟨below, by simpa using none.1, by simpa using none.2.1, by simpa using none.2.2⟩
    obtain ⟨-, valid, user, write⟩ := writable
    rw [if_neg (by simp [valid, user, write]), StateT.run_bind, memmoveFrom_run, ok_bind]
    -- the bytes of the first page, then the rest from the next page on
    have offset : dstva - dstva / pgSize * pgSize = dstva % pgSize := by
      unfold pgSize
      omega
    rw [offset]
    have inPage : dstva % pgSize + min (pgSize - dstva % pgSize) src.length ≤ pgSize := by
      unfold pgSize
      omega
    have fits : min (pgSize - dstva % pgSize) src.length ≤ src.length := Nat.min_le_right _ _
    have boundary : min (pgSize - dstva % pgSize) src.length < src.length →
        dstva + min (pgSize - dstva % pgSize) src.length = dstva / pgSize * pgSize + pgSize := by
      unfold pgSize
      omega
    have progress : src.length - min (pgSize - dstva % pgSize) src.length ≤ fuel := by
      have room : 0 < pgSize - dstva % pgSize := by
        unfold pgSize
        omega
      omega
    obtain ⟨m', rest, run⟩ := ih (dstva / pgSize * pgSize + pgSize) (src.drop (min (pgSize - dstva % pgSize) src.length))
      _ (by rw [List.length_drop]; exact progress)
    rw [List.length_drop] at rest
    refine ⟨_, rest.page fits (fun i inside => (writable_add (by omega)).mpr ⟨below, valid, user, write⟩) boundary,
      ?_⟩
    rw [run, writeUser_page inPage fits boundary, List.length_drop]
    by_cases whole : min (pgSize - dstva % pgSize) src.length + m' = src.length
    · rw [if_pos whole, if_pos (by omega)]
    · rw [if_neg whole, if_neg (by omega)]

/-- `copyin`'s loop, with fuel for every byte: it reads the bytes one after
another up to where it stops, returns 0 exactly when that is the end, and changes
nothing. -/
theorem copyinLoop_run (pt : PageTable) (k : Kmem) (fuel : Nat) :
    ∀ srcva len : Nat, len ≤ fuel → ∃ m, StopsAt pt.Readable srcva len m ∧
      (copyinLoop pt srcva len fuel).run k = .ok ((if m = len then 0 else -1, pt.readUser k.mem srcva m), k) := by
  induction fuel with
  | zero =>
    intro srcva len short
    obtain rfl : len = 0 := Nat.le_zero.mp short
    exact ⟨0, StopsAt.nil _ _, rfl⟩
  | succ fuel ih =>
    intro srcva len short
    unfold copyinLoop
    by_cases empty : len = 0
    · subst empty
      exact ⟨0, StopsAt.nil _ _, rfl⟩
    obtain ⟨pa0, walked, readable, frame⟩ := walkaddr_pageBase pt srcva k
    rw [if_neg empty, StateT.run_bind, walked, ok_bind]
    by_cases missing : pa0 = 0
    · rw [if_pos missing]
      exact ⟨0, StopsAt.here fun yes => readable.mpr yes missing, by rw [if_neg (Ne.symm empty)]; rfl⟩
    rw [if_neg missing, StateT.run_bind, StateT.run_get, pure_bind]
    dsimp only
    -- the bytes of the first page, then the rest from the next page on
    have offset : srcva - srcva / pgSize * pgSize = srcva % pgSize := by
      unfold pgSize
      omega
    rw [offset, frame missing, StateT.run_bind]
    have inPage : srcva % pgSize + min (pgSize - srcva % pgSize) len ≤ pgSize := by
      unfold pgSize
      omega
    have boundary : min (pgSize - srcva % pgSize) len < len →
        srcva + min (pgSize - srcva % pgSize) len = srcva / pgSize * pgSize + pgSize := by
      unfold pgSize
      omega
    have progress : len - min (pgSize - srcva % pgSize) len ≤ fuel := by
      have room : 0 < pgSize - srcva % pgSize := by
        unfold pgSize
        omega
      omega
    obtain ⟨m', rest, run⟩ := ih _ _ progress
    have allowed : ∀ i < min (pgSize - srcva % pgSize) len, pt.Readable (srcva + i) :=
      fun i inside => (readable_add (by omega)).mpr (readable.mp missing)
    refine ⟨_, rest.page (Nat.min_le_right _ _) allowed boundary, ?_⟩
    rw [run, ok_bind, StateT.run_pure, readUser_page inPage rest.le boundary]
    by_cases whole : min (pgSize - srcva % pgSize) len + m' = len
    · rw [if_pos whole, if_pos (by omega)]
      rfl
    · rw [if_neg whole, if_neg (by omega)]
      rfl

/-- `copyinstr`'s inner loop over `n` bytes from `p`: the bytes before the first
NUL among them, and the NUL if there is one. -/
theorem copyinstrPage_eq (mem : Nat → UInt8) (n : Nat) : ∀ p : Nat, ∃ j, StopsAt (fun a => mem a ≠ 0) p n j ∧
    copyinstrPage mem p n = if j < n then (load mem p j ++ [0], true) else (load mem p n, false) := by
  induction n with
  | zero => exact fun p => ⟨0, StopsAt.nil _ _, rfl⟩
  | succ n ih =>
    intro p
    unfold copyinstrPage
    by_cases nul : mem p = 0
    · rw [if_pos nul]
      exact ⟨0, StopsAt.here (by simpa using nul), by rw [if_pos (Nat.succ_pos n)]; rfl⟩
    rw [if_neg nul]
    obtain ⟨j, rest, page⟩ := ih (p + 1)
    refine ⟨1 + j, StopsAt.page (by omega) (fun i first => by simpa [show i = 0 by omega] using nul)
      (fun _ => rfl) (by simpa using rest), ?_⟩
    rw [page]
    by_cases found : j < n
    · rw [if_pos found, if_pos (by omega), Nat.add_comm 1 j, load_succ]
      rfl
    · rw [if_neg found, if_neg (by omega), load_succ]

/-- `copyinstr`'s loop, with fuel for every byte: it reads the bytes one after
another while they are readable and not NUL, up to `max` of them, and returns 0
with the NUL copied when it met one; it changes nothing. -/
theorem copyinstrLoop_run (pt : PageTable) (k : Kmem) (fuel : Nat) :
    ∀ srcva max : Nat, max ≤ fuel →
      ∃ m, StopsAt (fun a => pt.Readable a ∧ k.mem (pt.physAddr a) ≠ 0) srcva max m ∧
        (copyinstrLoop pt srcva max fuel).run k =
          .ok (if m < max ∧ pt.Readable (srcva + m) then (0, pt.readUser k.mem srcva m ++ [0])
            else (-1, pt.readUser k.mem srcva m), k) := by
  induction fuel with
  | zero =>
    intro srcva max short
    obtain rfl : max = 0 := Nat.le_zero.mp short
    exact ⟨0, StopsAt.nil _ _, rfl⟩
  | succ fuel ih =>
    intro srcva max short
    unfold copyinstrLoop
    by_cases empty : max = 0
    · subst empty
      exact ⟨0, StopsAt.nil _ _, rfl⟩
    obtain ⟨pa0, walked, readable, frame⟩ := walkaddr_pageBase pt srcva k
    rw [if_neg empty, StateT.run_bind, walked, ok_bind]
    by_cases missing : pa0 = 0
    · rw [if_pos missing]
      have refused : ¬pt.Readable srcva := fun yes => readable.mpr yes missing
      refine ⟨0, StopsAt.here fun yes => refused yes.1, ?_⟩
      rw [if_neg fun yes => refused yes.2]
      rfl
    rw [if_neg missing, StateT.run_bind, StateT.run_get, pure_bind]
    dsimp only
    have offset : srcva - srcva / pgSize * pgSize = srcva % pgSize := by
      unfold pgSize
      omega
    rw [offset, frame missing]
    have inPage : srcva % pgSize + min (pgSize - srcva % pgSize) max ≤ pgSize := by
      unfold pgSize
      omega
    have lands : ∀ i < min (pgSize - srcva % pgSize) max,
        pt.physAddr (srcva + i) = (pt.entry (Slot.ofVa srcva)).pa + srcva % pgSize + i :=
      fun i inside => physAddr_add (by omega)
    have readableIn : ∀ i < min (pgSize - srcva % pgSize) max, pt.Readable (srcva + i) :=
      fun i inside => (readable_add (by omega)).mpr (readable.mp missing)
    obtain ⟨j, scanned, page⟩ := copyinstrPage_eq k.mem (min (pgSize - srcva % pgSize) max)
      ((pt.entry (Slot.ofVa srcva)).pa + srcva % pgSize)
    rw [page]
    by_cases found : j < min (pgSize - srcva % pgSize) max
    · -- a NUL on this page: the string ends there
      rw [if_pos found]
      dsimp only
      rw [if_pos rfl, StateT.run_pure, load_eq_readUser fun i inside => lands i (by omega)]
      have nul : k.mem (pt.physAddr (srcva + j)) = 0 := by
        have stopped := scanned.stop found
        rw [lands j found]
        simpa using stopped
      refine ⟨j, ⟨by omega, fun i inside => ⟨readableIn i (by omega), ?_⟩, fun _ yes => yes.2 nul⟩, ?_⟩
      · rw [lands i (by omega)]
        exact scanned.allowed i inside
      · rw [if_pos ⟨by omega, readableIn j found⟩]
        rfl
    -- no NUL on this page: the rest from the next page on
    rw [if_neg found]
    dsimp only
    rw [if_neg Bool.false_ne_true, StateT.run_bind]
    have boundary : min (pgSize - srcva % pgSize) max < max →
        srcva + min (pgSize - srcva % pgSize) max = srcva / pgSize * pgSize + pgSize := by
      unfold pgSize
      omega
    have progress : max - min (pgSize - srcva % pgSize) max ≤ fuel := by
      have room : 0 < pgSize - srcva % pgSize := by
        unfold pgSize
        omega
      omega
    obtain ⟨m', rest, run⟩ := ih _ _ progress
    have allowed : ∀ i < min (pgSize - srcva % pgSize) max,
        pt.Readable (srcva + i) ∧ k.mem (pt.physAddr (srcva + i)) ≠ 0 := by
      intro i inside
      refine ⟨readableIn i inside, ?_⟩
      rw [lands i inside]
      exact scanned.allowed i (by omega)
    refine ⟨_, rest.page (Nat.min_le_right _ _) allowed boundary, ?_⟩
    rw [run, ok_bind]
    have joined := @readUser_page pt k.mem srcva _ _ _ _ inPage rest.le boundary
    by_cases more : min (pgSize - srcva % pgSize) max < max
    · -- the next page starts where this one ends
      have next := boundary more
      by_cases ended : m' < max - min (pgSize - srcva % pgSize) max ∧
          pt.Readable (srcva / pgSize * pgSize + pgSize + m')
      · rw [if_pos ended, if_pos ⟨by omega, by rw [← Nat.add_assoc, next]; exact ended.2⟩, StateT.run_pure,
          ← List.append_assoc, joined]
        rfl
      · rw [if_neg ended, if_neg fun yes => ended ⟨by omega, by rw [← next, Nat.add_assoc]; exact yes.2⟩,
          StateT.run_pure, joined]
        rfl
    · -- the page held all `max` bytes: nothing is left to read
      obtain rfl : m' = 0 := by have := rest.le; omega
      rw [if_neg (by omega), if_neg (by omega), StateT.run_pure, joined]
      rfl

/-! ### The three routines -/

/-- The routines' result: 0, or -1. -/
theorem result_eq_zero_iff {c : Prop} [Decidable c] : (if c then (0 : Int) else -1) = 0 ↔ c := by
  by_cases holds : c <;> simp [holds]

theorem result_cases {c : Prop} [Decidable c] : (if c then (0 : Int) else -1) = 0 ∨ (if c then (0 : Int) else -1) = -1 := by
  by_cases holds : c <;> simp [holds]

theorem copyout_run (pt : PageTable) (dstva : Nat) (src : List UInt8) (k : Kmem) :
    ∃ m, StopsAt pt.Writable dstva src.length m ∧
      (copyout pt dstva src).run k =
        .ok (if m = src.length then 0 else -1, { k with mem := pt.writeUser k.mem dstva (src.take m) }) :=
  copyoutLoop_run pt _ dstva src k (Nat.le_succ _)

theorem copyin_run (pt : PageTable) (srcva len : Nat) (k : Kmem) :
    ∃ m, StopsAt pt.Readable srcva len m ∧
      (copyin pt srcva len).run k = .ok ((if m = len then 0 else -1, pt.readUser k.mem srcva m), k) :=
  copyinLoop_run pt k _ srcva len (Nat.le_succ _)

theorem copyinstr_run (pt : PageTable) (srcva max : Nat) (k : Kmem) :
    ∃ m, StopsAt (fun a => pt.Readable a ∧ k.mem (pt.physAddr a) ≠ 0) srcva max m ∧
      (copyinstr pt srcva max).run k =
        .ok (if m < max ∧ pt.Readable (srcva + m) then (0, pt.readUser k.mem srcva m ++ [0])
          else (-1, pt.readUser k.mem srcva m), k) :=
  copyinstrLoop_run pt k _ srcva max (Nat.le_succ _)

/-- **The copy routines respect the page table.** For every table, address and
length: `copyout` returns 0 exactly when every byte of its range is on a page it
may write, writes no byte but the user bytes of the range on such pages, and,
when the bytes of the range land on distinct physical addresses and it returns 0,
leaves each holding its byte of `src`; `copyin` returns 0 exactly when every byte
of its range is on a page it may read, changes nothing, fills at most `len` bytes
of `dst`, and, when it returns 0, the user bytes. Neither panics, so neither
calls `walk` at or above `MAXVA`. -/
theorem copy_routines_respect_table (pt : PageTable) (k : Kmem) :
    (∀ (dstva : Nat) (src : List UInt8), ∃ r mem, (copyout pt dstva src).run k = .ok (r, { k with mem }) ∧
      (r = 0 ↔ ∀ i < src.length, pt.Writable (dstva + i)) ∧ (r = 0 ∨ r = -1) ∧
      (∀ a, mem a ≠ k.mem a → ∃ i < src.length, pt.Writable (dstva + i) ∧ pt.physAddr (dstva + i) = a) ∧
      (r = 0 → (∀ i < src.length, ∀ j < src.length, pt.physAddr (dstva + i) = pt.physAddr (dstva + j) → i = j) →
        ∀ i (below : i < src.length), mem (pt.physAddr (dstva + i)) = src[i])) ∧
    ∀ srcva len : Nat, ∃ r dst, (copyin pt srcva len).run k = .ok ((r, dst), k) ∧
      (r = 0 ↔ ∀ i < len, pt.Readable (srcva + i)) ∧ (r = 0 ∨ r = -1) ∧ dst.length ≤ len ∧
      (r = 0 → dst = pt.readUser k.mem srcva len) := by
  constructor
  · intro dstva src
    obtain ⟨m, stops, run⟩ := copyout_run pt dstva src k
    refine ⟨_, _, run, by rw [result_eq_zero_iff, stops.whole_iff], result_cases, fun a changed => ?_,
      fun done distinct i below => ?_⟩
    · -- a changed byte is one the copy wrote, before it stopped
      obtain ⟨i, inside, landed⟩ := writeUser_changed changed
      rw [List.length_take] at inside
      exact ⟨i, by omega, stops.allowed i (by omega), landed⟩
    · rw [result_eq_zero_iff.mp done, List.take_length]
      exact writeUser_apply_self distinct i below
  · intro srcva len
    obtain ⟨m, stops, run⟩ := copyin_run pt srcva len k
    refine ⟨_, _, run, by rw [result_eq_zero_iff, stops.whole_iff], result_cases,
      by simpa [readUser] using stops.le, fun done => ?_⟩
    rw [result_eq_zero_iff.mp done]

/-- Two user pages, readable and writable, at the frames `pa` and `pa'`. -/
def userPages (pa pa' : Nat) : PageTable :=
  ⟨0, fun _ => some pgSize, fun _ _ => some (2 * pgSize), fun s =>
    if s.vpn = 0 then Pte.leaf pa { r := true, w := true, u := true }
    else if s.vpn = 1 then Pte.leaf pa' { r := true, w := true, u := true } else Pte.zero⟩

/-- Two bytes across the boundary of two user pages. -/
theorem copy_routines_across_pages :
    ∃ r mem, (copyout (userPages (3 * pgSize) (4 * pgSize)) (pgSize - 1) [7, 8]).run ⟨[], fun _ => 0⟩ =
        .ok (r, ⟨[], mem⟩) ∧ (r = 0 ↔ ∀ i < 2, (userPages (3 * pgSize) (4 * pgSize)).Writable (pgSize - 1 + i)) := by
  obtain ⟨r, mem, run, written, -⟩ :=
    (copy_routines_respect_table (userPages (3 * pgSize) (4 * pgSize)) ⟨[], fun _ => 0⟩).1 (pgSize - 1) [7, 8]
  exact ⟨r, mem, run, written⟩

theorem userPages_entry {pa pa' va : Nat} (below : va < 2 * pgSize) :
    (userPages pa pa').entry (Slot.ofVa va) =
      Pte.leaf (if va < pgSize then pa else pa') { r := true, w := true, u := true } := by
  have small : va < maxVA := below.trans (by decide)
  rw [entry, if_pos ⟨rfl, rfl⟩]
  simp only [userPages, Slot.vpn_ofVa small]
  by_cases first : va < pgSize
  · rw [if_pos (by unfold pgSize at first ⊢; omega), if_pos first]
  · rw [if_neg (by unfold pgSize at first ⊢; omega), if_pos (by unfold pgSize at first below ⊢; omega),
      if_neg first]

theorem userPages_writable {pa pa' va : Nat} (below : va < 2 * pgSize) : (userPages pa pa').Writable va := by
  refine ⟨below.trans (by decide), ?_⟩
  rw [userPages_entry below]
  exact ⟨rfl, rfl, rfl⟩

/-- A page and one byte more, to two pages on one frame: the last byte lands
where the first did. -/
theorem copyout_shared_frame {bs : List UInt8} (page : bs.length = pgSize) (b : UInt8) (pa : Nat) (k : Kmem) :
    ∃ k', (copyout (userPages pa pa) 0 (bs ++ [b])).run k = .ok (0, k') ∧
      k'.mem ((userPages pa pa).physAddr 0) = b := by
  obtain ⟨m, stops, run⟩ := copyout_run (userPages pa pa) 0 (bs ++ [b]) k
  have whole : m = (bs ++ [b]).length :=
    stops.whole_iff.mpr fun i below => userPages_writable (by simp [page] at below; unfold pgSize at below ⊢; omega)
  rw [if_pos whole, whole, List.take_length] at run
  refine ⟨_, run, ?_⟩
  have shared : (userPages pa pa).physAddr 0 = (userPages pa pa).physAddr (0 + bs.length) := by
    rw [page, physAddr, physAddr, userPages_entry (by decide), userPages_entry (by decide)]
    simp [pgSize]
  dsimp only
  rw [writeUser_append, shared, writeUser, writeUser, Function.update_self]

/-- Two pages on one frame: `copyout` returns 0 but the page's first byte holds
the last byte of `src`. A page at frame 0, mapped for the user: `copyin` refuses
it. -/
theorem copyout_shared_frame_copyin_frame_zero :
    (∃ k, (copyout (userPages (3 * pgSize) (3 * pgSize)) 0 (List.replicate pgSize 1 ++ [2])).run
        ⟨[], fun _ => 0⟩ = .ok (0, k) ∧ k.mem ((userPages (3 * pgSize) (3 * pgSize)).physAddr 0) = 2) ∧
      (userPages 0 pgSize).Writable 0 ∧
      (copyin (userPages 0 pgSize) 0 1).run ⟨[], fun _ => 0⟩ = .ok ((-1, []), ⟨[], fun _ => 0⟩) :=
  ⟨copyout_shared_frame (List.length_replicate ..) 2 _ _, by decide, rfl⟩

/-- **`copyinstr` is a bounded string copy.** For every table, address and
bound: it returns 0 exactly when a NUL lies among the first `max` bytes with
every byte up to it readable, and then it copies the bytes before the first NUL
and the NUL; otherwise it returns -1. It fills at most `max` bytes of `dst` and
changes nothing else. -/
theorem copyinstr_bounded_copy (pt : PageTable) (srcva max : Nat) (k : Kmem) :
    ∃ r dst, (copyinstr pt srcva max).run k = .ok ((r, dst), k) ∧ (r = 0 ∨ r = -1) ∧ dst.length ≤ max ∧
      (r = 0 ↔ ∃ j < max, (∀ i ≤ j, pt.Readable (srcva + i)) ∧ k.mem (pt.physAddr (srcva + j)) = 0 ∧
        ∀ i < j, k.mem (pt.physAddr (srcva + i)) ≠ 0) ∧
      ∀ j < max, (∀ i ≤ j, pt.Readable (srcva + i)) → k.mem (pt.physAddr (srcva + j)) = 0 →
        (∀ i < j, k.mem (pt.physAddr (srcva + i)) ≠ 0) → dst = pt.readUser k.mem srcva j ++ [0] := by
  obtain ⟨m, stops, run⟩ := copyinstr_run pt srcva max k
  -- a NUL at `j`, every byte up to it readable, is where the copy stops
  have nulAt : ∀ j < max, (∀ i ≤ j, pt.Readable (srcva + i)) → k.mem (pt.physAddr (srcva + j)) = 0 →
      (∀ i < j, k.mem (pt.physAddr (srcva + i)) ≠ 0) → m = j ∧ m < max ∧ pt.Readable (srcva + m) := by
    intro j below readable nul before
    have other : StopsAt (fun a => pt.Readable a ∧ k.mem (pt.physAddr a) ≠ 0) srcva max j :=
      ⟨below.le, fun i inside => ⟨readable i inside.le, before i inside⟩, fun _ yes => yes.2 nul⟩
    obtain rfl := stops.unique other
    exact ⟨rfl, below, readable m le_rfl⟩
  by_cases found : m < max ∧ pt.Readable (srcva + m)
  · rw [if_pos found] at run
    have short : (pt.readUser k.mem srcva m ++ [0]).length ≤ max := by
      simp only [readUser, List.length_append, List.length_map, List.length_range, List.length_singleton]
      omega
    refine ⟨0, _, run, .inl rfl, short, ⟨fun _ => ⟨m, found.1, fun i inside => ?_, ?_,
      fun i before => (stops.allowed i before).2⟩, fun _ => rfl⟩, fun j below readable nul before => ?_⟩
    · rcases Nat.lt_or_eq_of_le inside with before | rfl
      · exact (stops.allowed i before).1
      · exact found.2
    · by_contra nonzero
      exact stops.stop found.1 ⟨found.2, nonzero⟩
    · obtain ⟨rfl, -⟩ := nulAt j below readable nul before
      rfl
  · rw [if_neg found] at run
    refine ⟨-1, _, run, .inr rfl, by simpa [readUser] using stops.le,
      ⟨fun minus => absurd minus (by decide), fun ⟨j, below, readable, nul, before⟩ => ?_⟩,
      fun j below readable nul before => ?_⟩
    · obtain ⟨rfl, reached⟩ := nulAt j below readable nul before
      exact absurd reached found
    · obtain ⟨rfl, reached⟩ := nulAt j below readable nul before
      exact absurd reached found

/-- A two-byte string across the boundary of two user pages. -/
theorem copyinstr_across_pages :
    ∃ r dst, (copyinstr (userPages (3 * pgSize) (4 * pgSize)) (pgSize - 1) 4).run ⟨[], fun _ => 0⟩ =
      .ok ((r, dst), ⟨[], fun _ => 0⟩) ∧ dst.length ≤ 4 := by
  obtain ⟨r, dst, run, -, short, -⟩ := copyinstr_bounded_copy (userPages (3 * pgSize) (4 * pgSize)) (pgSize - 1) 4
    ⟨[], fun _ => 0⟩
  exact ⟨r, dst, run, short⟩

/-- A page at frame 0, mapped for the user, holding a NUL at address 0:
`copyinstr` refuses it. -/
theorem copyinstr_frame_zero :
    (userPages 0 pgSize).Writable 0 ∧
      (copyinstr (userPages 0 pgSize) 0 1).run ⟨[], fun _ => 0⟩ = .ok ((-1, []), ⟨[], fun _ => 0⟩) :=
  ⟨by decide, rfl⟩

end Xv6.Vm
