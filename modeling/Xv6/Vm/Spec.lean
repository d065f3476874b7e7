import Xv6.Vm.View
import Xv6.Lib.Hoare

/-!
Contract: what each function of `kernel/vm.c` does to the entries of the table it
works on and to the pages it holds, one triple per function.

Every triple starts from a named memory state `k` and relates the free list it
ends with to `k`'s: the pages a function takes from the free list go into the
table, and those it frees come out of it, so that the free list and the table
together hold the same pages before and after (for `mappages`, together with the
page it is given to map). The entries are described as `entry` reads them. A
function may stop at a panic; the triples allow every panic except the four in
`mismatchPanics`, which the preconditions rule out.

Owns: `mismatchPanics`, `Benign`, the run lemmas of `kalloc`, `kfree` and `walk`,
and the triples `mappages_page`, `uvmunmapLoop_spec`, `uvmunmap_spec`,
`uvmdealloc_spec`.
-/

namespace Xv6.Vm

open Hoare Pool

/-- The panics that would show a page table out of step with its process's
size: `uvmunmap` of a page not mapped, `uvmcopy` of a page missing from the
parent, `freewalk` of a table that still maps a page. -/
def mismatchPanics : List String :=
  ["uvmunmap: not mapped", "uvmcopy: pte should exist", "uvmcopy: page not present", "freewalk: leaf"]

/-- Any other panic. -/
def Benign (msg : String) : Prop :=
  msg ∉ mismatchPanics

instance : DecidablePred Benign :=
  fun msg => inferInstanceAs (Decidable (msg ∉ mismatchPanics))

variable {kend : Nat}

/-! ### The allocator -/

@[simp] theorem kalloc_run_nil (ram : Nat → UInt8) : kalloc.run ⟨[], ram⟩ = .ok (none, ⟨[], ram⟩) :=
  rfl

@[simp] theorem kalloc_run_cons (pa : Nat) (rest : List Nat) (ram : Nat → UInt8) :
    kalloc.run ⟨pa :: rest, ram⟩ = .ok (some pa, ⟨rest, fill ram pa pgSize 5⟩) :=
  rfl

@[simp] theorem memset_run (pa : Nat) (c : UInt8) (n : Nat) (k : Kmem) :
    (memset pa c n).run k = .ok ((), { k with mem := fill k.mem pa n c }) :=
  rfl

@[simp] theorem memmove_run (dst src n : Nat) (k : Kmem) :
    (memmove dst src n).run k = .ok ((), { k with mem := store k.mem dst (load k.mem src n) }) :=
  rfl

@[simp] theorem memmoveFrom_run (dst : Nat) (bytes : List UInt8) (k : Kmem) :
    (memmoveFrom dst bytes).run k = .ok ((), { k with mem := store k.mem dst bytes }) :=
  rfl

/-- `kfree` panics on a page outside the pool's range, or pushes it, filled with junk. -/
theorem kfree_run (pa : Nat) (k : Kmem) :
    (kfree kend pa).run k =
      if pa % pgSize ≠ 0 ∨ pa < kend ∨ phyStop ≤ pa then .error "kfree"
      else pure ((), ⟨pa :: k.freelist, fill k.mem pa pgSize 1⟩) := by
  unfold kfree
  split <;> rfl

/-- A step after `kfree`: its panic is benign. -/
theorem holds_kfree_bind {β : Type} {R : β → Kmem → Prop} {k : Kmem} {pa : Nat}
    {f : Unit × Kmem → Except String (β × Kmem)}
    (rest : Holds R Benign (f ((), ⟨pa :: k.freelist, fill k.mem pa pgSize 1⟩))) :
    Holds R Benign ((kfree kend pa).run k >>= f) := by
  rw [kfree_run]
  split
  · rw [error_bind, holds_error]
    decide
  · exact rest

/-- `kfree` as the last step. -/
theorem holds_kfree {R : Unit → Kmem → Prop} {k : Kmem} {pa : Nat}
    (rest : R () ⟨pa :: k.freelist, fill k.mem pa pgSize 1⟩) : Holds R Benign ((kfree kend pa).run k) := by
  rw [kfree_run]
  split
  · rw [holds_error]
    decide
  · rw [holds_pure]
    exact rest

/-! ### `walk` -/

theorem walkDir_lookup (pt : PageTable) (i2 : Fin 512) (k : Kmem) :
    (walkDir pt i2 false).run k = pure (if (pt.dir i2).isSome then some pt else none, k) := by
  unfold walkDir
  cases pt.dir i2 <;> rfl

theorem walkMid_lookup (pt : PageTable) (i2 i1 : Fin 512) (k : Kmem) :
    (walkMid pt i2 i1 false).run k = pure (if (pt.mid i2 i1).isSome then some pt else none, k) := by
  unfold walkMid
  cases pt.mid i2 i1 <;> rfl

/-- `walk` without `alloc` looks the slot up and changes nothing. -/
theorem walk_lookup (pt : PageTable) (va : Nat) (k : Kmem) :
    (walk pt va false).run k =
      if maxVA ≤ va then .error "walk"
      else pure ((pt, if pt.Present (Slot.ofVa va) then some (Slot.ofVa va) else none), k) := by
  by_cases high : maxVA ≤ va
  · simp [walk, high]
  · simp only [walk, high, if_false, StateT.run_bind, walkDir_lookup]
    by_cases dir : (pt.dir (px 2 va)).isSome
    · by_cases mid : (pt.mid (px 2 va) (px 1 va)).isSome
      · simp [dir, mid, walkMid_lookup, PageTable.Present, Slot.ofVa]
      · simp [dir, mid, walkMid_lookup, PageTable.Present, Slot.ofVa]
    · simp [dir, PageTable.Present, Slot.ofVa]

/-- A walk without `alloc` below `MAXVA`, followed by a step. -/
theorem walk_lookup_bind {β : Type} {pt : PageTable} {va : Nat} {k : Kmem} (below : va < maxVA)
    (f : PageTable × Option Slot → StateT Kmem (Except String) β) :
    (walk pt va false >>= f).run k =
      (f (pt, if pt.Present (Slot.ofVa va) then some (Slot.ofVa va) else none)).run k := by
  rw [StateT.run_bind, walk_lookup, if_neg (Nat.not_le.mpr below)]
  rfl

/-- `walk` at level 2 with `alloc`: the table it returns maps what the old one
did, holds at most one more page, taken from the free list, and has the level-1
page of `i2`; it fails only on an empty free list. -/
theorem walkDir_alloc (pt : PageTable) (i2 : Fin 512) (k : Kmem) :
    ∃ r k', (walkDir pt i2 true).run k = .ok (r, k') ∧
      k.freelist.length ≤ k'.freelist.length + 1 ∧ (r = none → k' = k ∧ k.freelist = []) ∧
      ∀ pt', r = some pt' → pt'.entry = pt.entry ∧ pt'.root = pt.root ∧ (pt'.dir i2).isSome ∧
        ↑k'.freelist + pt'.pages = ↑k.freelist + pt.pages := by
  unfold walkDir
  cases dir : pt.dir i2 with
  | some pa => exact ⟨some pt, k, rfl, by omega, by simp, by simp [dir]⟩
  | none =>
    obtain ⟨freelist, ram⟩ := k
    cases freelist with
    | nil => exact ⟨none, ⟨[], ram⟩, rfl, by simp, fun _ => ⟨rfl, rfl⟩, by simp⟩
    | cons pa rest =>
      refine ⟨some (pt.addDir i2 pa), ⟨rest, fill (fill ram pa pgSize 5) pa pgSize 0⟩, rfl, by simp, by simp, ?_⟩
      rintro pt' ⟨⟩
      refine ⟨PageTable.entry_addDir dir pa, rfl, by simp [PageTable.addDir], ?_⟩
      rw [PageTable.pages_addDir dir, ← Multiset.cons_coe, ← Multiset.singleton_add]
      abel

/-- `walk` at level 1 with `alloc`, under a level-1 page. -/
theorem walkMid_alloc (pt : PageTable) (i2 i1 : Fin 512) (k : Kmem) (dir : (pt.dir i2).isSome) :
    ∃ r k', (walkMid pt i2 i1 true).run k = .ok (r, k') ∧
      k.freelist.length ≤ k'.freelist.length + 1 ∧ (r = none → k' = k ∧ k.freelist = []) ∧
      ∀ pt', r = some pt' → pt'.entry = pt.entry ∧ pt'.root = pt.root ∧ pt'.dir = pt.dir ∧
        (pt'.mid i2 i1).isSome ∧ ↑k'.freelist + pt'.pages = ↑k.freelist + pt.pages := by
  unfold walkMid
  cases mid : pt.mid i2 i1 with
  | some pa => exact ⟨some pt, k, rfl, by omega, by simp, by simp [mid]⟩
  | none =>
    obtain ⟨freelist, ram⟩ := k
    cases freelist with
    | nil => exact ⟨none, ⟨[], ram⟩, rfl, by simp, fun _ => ⟨rfl, rfl⟩, by simp⟩
    | cons pa rest =>
      refine ⟨some (pt.addMid i2 i1 pa), ⟨rest, fill (fill ram pa pgSize 5) pa pgSize 0⟩, rfl, by simp, by simp,
        ?_⟩
      rintro pt' ⟨⟩
      refine ⟨PageTable.entry_addMid mid pa, rfl, rfl, by simp [PageTable.addMid], ?_⟩
      rw [PageTable.pages_addMid dir mid, ← Multiset.cons_coe, ← Multiset.singleton_add]
      abel

/-- `walk` with `alloc` below `MAXVA` returns: a table that maps what the old one
did, with the pages it took from the free list (two at most), and the slot of
`va` if it could make the pages on its path, as it can with two pages free. -/
theorem walk_alloc (pt : PageTable) {va : Nat} (k : Kmem) (below : va < maxVA) :
    ∃ pt' r k', (walk pt va true).run k = .ok ((pt', r), k') ∧ pt'.entry = pt.entry ∧
      pt'.root = pt.root ∧ ↑k'.freelist + pt'.pages = ↑k.freelist + pt.pages ∧
      k.freelist.length ≤ k'.freelist.length + 2 ∧ (r = none → k.freelist.length < 2) ∧
      ∀ s, r = some s → s = Slot.ofVa va ∧ pt'.Present s := by
  obtain ⟨r1, k1, ran1, taken1, none1, some1⟩ := walkDir_alloc pt (px 2 va) k
  simp only [walk, StateT.run_bind, if_neg (Nat.not_le.mpr below), ran1]
  cases r1 with
  | none =>
    obtain ⟨same, empty⟩ := none1 rfl
    rw [same]
    exact ⟨pt, none, k, rfl, rfl, rfl, rfl, by omega, fun _ => by simp [empty], by simp⟩
  | some pt1 =>
    obtain ⟨entry1, root1, dir1, pages1⟩ := some1 pt1 rfl
    obtain ⟨r2, k2, ran2, taken2, none2, some2⟩ := walkMid_alloc pt1 (px 2 va) (px 1 va) k1 dir1
    simp only [ok_bind, StateT.run_bind, ran2]
    cases r2 with
    | none =>
      obtain ⟨same, empty⟩ := none2 rfl
      rw [same]
      refine ⟨pt1, none, k1, rfl, entry1, root1, pages1, by omega, fun _ => ?_, by simp⟩
      rw [empty, List.length_nil] at taken1
      omega
    | some pt2 =>
      obtain ⟨entry2, root2, dirs2, mid2, pages2⟩ := some2 pt2 rfl
      refine ⟨pt2, some (Slot.ofVa va), k2, rfl, entry2.trans entry1, root2.trans root1,
        pages2.trans pages1, by omega, by simp, ?_⟩
      rintro s ⟨⟩
      refine ⟨rfl, ?_, mid2⟩
      rw [dirs2]
      exact dir1

/-! ### `mappages` of one page -/

@[simp] theorem Pte.leaf_v (pa : Nat) (perm : Perm) : (Pte.leaf pa perm).v = true :=
  rfl

@[simp] theorem Pte.leaf_flags (pa : Nat) (perm : Perm) : (Pte.leaf pa perm).flags = perm :=
  rfl

/-- `mappages` of one page at an aligned `va`: 0 with the page mapped where
nothing was, or -1, with fewer than two pages free, with no entry changed; either
way the table keeps the pages `walk` took, two at most. -/
theorem mappages_page (pt : PageTable) (va pa : Nat) (perm : Perm) (k : Kmem)
    (aligned : va % pgSize = 0) :
    Triple (· = k) (mappages pt va pgSize pa perm)
      (fun res k' => res.2.root = pt.root ∧ ↑k'.freelist + res.2.pages = ↑k.freelist + pt.pages ∧
        k.freelist.length ≤ k'.freelist.length + 2 ∧
        (res.1 = 0 ∧ va < maxVA ∧ (pt.entry (Slot.ofVa va)).v = false ∧
            res.2.entry = Function.update pt.entry (Slot.ofVa va) (Pte.leaf pa perm) ∨
          res.1 = -1 ∧ res.2.entry = pt.entry ∧ k.freelist.length < 2)) Benign := by
  intro s same
  rw [same]
  have loop : (mappages pt va pgSize pa perm).run k = (mappagesLoop perm pt va pa 1).run k := by
    simp [mappages, aligned, show pgSize ≠ 0 by decide, Nat.div_self (show 0 < pgSize by decide)]
  rw [loop]
  by_cases high : maxVA ≤ va
  · -- `walk` panics
    simp [mappagesLoop, walk, high, Benign, mismatchPanics]
  obtain ⟨pt', r, k', ran, entry', root', pages', taken, short, found⟩ := walk_alloc pt k (Nat.not_le.mp high)
  simp only [mappagesLoop, StateT.run_bind, ran, ok_bind]
  cases r with
  | none =>
    simp only [StateT.run_pure, holds_pure]
    exact ⟨root', pages', taken, .inr ⟨trivial, entry', short rfl⟩⟩
  | some s =>
    obtain ⟨rfl, present⟩ := found s rfl
    by_cases mapped : (pt'.leaf (Slot.ofVa va)).v = true
    · simp [mapped, Benign, mismatchPanics]
    · simp only [mapped, Bool.false_eq_true, if_false, StateT.run_pure, holds_pure]
      rw [PageTable.leaf_eq_entry present, entry'] at mapped
      refine ⟨root', pages', taken, .inl ⟨trivial, Nat.not_le.mp high, by simpa using mapped, ?_⟩⟩
      rw [PageTable.entry_setLeaf present, entry']

/-! ### `uvmunmap` -/

theorem add_pgSize_div (a : Nat) : (a + pgSize) / pgSize = a / pgSize + 1 :=
  Nat.add_div_right a (by decide)

/-- A valid entry is on a path `walk` finds. -/
theorem PageTable.present_of_valid {pt : PageTable} {s : Slot} (valid : (pt.entry s).v = true) :
    pt.Present s := by
  by_contra absent
  simp [PageTable.entry, absent, Pte.zero] at valid

/-- `uvmunmap`'s loop over `n` pages from `a`, each mapped by a leaf entry and
freed exactly when it is a user page: the pages are unmapped, and the frames
freed move from the table to the free list. -/
theorem uvmunmapLoop_spec (doFree : Bool) (n : Nat) : ∀ (pt : PageTable) (a : Nat) (k : Kmem),
    a % pgSize = 0 →
    (∀ s, a / pgSize ≤ s.vpn → s.vpn < a / pgSize + n →
      (pt.entry s).v = true ∧ (pt.entry s).flags ≠ {} ∧ (s.IsUser ↔ doFree = true)) →
    Triple (· = k) (uvmunmapLoop kend doFree pt a n)
      (fun pt' k' => pt'.root = pt.root ∧ pt'.pages = pt.pages ∧
        pt'.entry = clearRange pt.entry (a / pgSize) (a / pgSize + n) ∧
        ↑k'.freelist + pt'.frames = ↑k.freelist + pt.frames) Benign := by
  induction n with
  | zero =>
    intro pt a k _ _ s same
    rw [same]
    simp [uvmunmapLoop, clearRange_of_le]
  | succ n ih =>
    intro pt a k aligned mapped s same
    rw [same]
    by_cases high : maxVA ≤ a
    · simp [uvmunmapLoop, walk, high, Benign, mismatchPanics]
    have below : a < maxVA := Nat.not_le.mp high
    have vpn : (Slot.ofVa a).vpn = a / pgSize := Slot.vpn_ofVa below
    obtain ⟨valid, leaf, user⟩ := mapped (Slot.ofVa a) (by omega) (by omega)
    have present := PageTable.present_of_valid valid
    -- the rest of the range is as it was, one page further on
    have rest : ∀ s, (a + pgSize) / pgSize ≤ s.vpn → s.vpn < (a + pgSize) / pgSize + n →
        ((pt.setLeaf (Slot.ofVa a) Pte.zero).entry s).v = true ∧
        ((pt.setLeaf (Slot.ofVa a) Pte.zero).entry s).flags ≠ {} ∧ (s.IsUser ↔ doFree = true) := by
      intro s low high
      rw [add_pgSize_div] at low high
      have other : s ≠ Slot.ofVa a := fun eq => by rw [eq, vpn] at low; omega
      rw [PageTable.entry_setLeaf present, Function.update_of_ne other]
      exact mapped s (by omega) (by omega)
    have aligned' : (a + pgSize) % pgSize = 0 := by rw [Nat.add_mod_right, aligned]
    have cleared : clearRange (pt.setLeaf (Slot.ofVa a) Pte.zero).entry ((a + pgSize) / pgSize)
        ((a + pgSize) / pgSize + n) = clearRange pt.entry (a / pgSize) (a / pgSize + (n + 1)) := by
      rw [PageTable.entry_setLeaf present, add_pgSize_div,
        show a / pgSize + 1 + n = a / pgSize + (n + 1) by omega, ← vpn, clearRange_update (by omega)]
    have freed := PageTable.frames_unmap present
    simp only [uvmunmapLoop, walk_lookup_bind below, if_pos present, PageTable.leaf_eq_entry present,
      valid, leaf, Bool.not_true, Bool.false_eq_true, if_false]
    cases doFree with
    | true =>
      have holds := fun k' => ih (pt.setLeaf (Slot.ofVa a) Pte.zero) (a + pgSize) k' aligned' rest k' rfl
      simp only [if_true, StateT.run_bind]
      refine holds_kfree_bind ((holds _).mono fun pt' k' post => ?_)
      obtain ⟨root', pages', entry', frames'⟩ := post
      refine ⟨root', pages', entry'.trans cleared, ?_⟩
      rw [frames', ← freed, coe_cons_add, add_comm {_}]
      simp [frameOf, user.mpr rfl, valid]
    | false =>
      have holds := ih (pt.setLeaf (Slot.ofVa a) Pte.zero) (a + pgSize) k aligned' rest k rfl
      simp only [Bool.false_eq_true, if_false]
      refine holds.mono fun pt' k' post => ?_
      obtain ⟨root', pages', entry', frames'⟩ := post
      refine ⟨root', pages', entry'.trans cleared, ?_⟩
      rw [frames', ← freed]
      simp [frameOf, user]

/-- `uvmunmap` of `npages` pages from an aligned `va`, as its loop. -/
theorem uvmunmap_spec (pt : PageTable) (va npages : Nat) (doFree : Bool) (k : Kmem)
    (aligned : va % pgSize = 0)
    (mapped : ∀ s, va / pgSize ≤ s.vpn → s.vpn < va / pgSize + npages →
      (pt.entry s).v = true ∧ (pt.entry s).flags ≠ {} ∧ (s.IsUser ↔ doFree = true)) :
    Triple (· = k) (uvmunmap kend pt va npages doFree)
      (fun pt' k' => pt'.root = pt.root ∧ pt'.pages = pt.pages ∧
        pt'.entry = clearRange pt.entry (va / pgSize) (va / pgSize + npages) ∧
        ↑k'.freelist + pt'.frames = ↑k.freelist + pt.frames) Benign := by
  intro s same
  simp only [uvmunmap, aligned, ne_eq, not_true_eq_false, if_false]
  exact uvmunmapLoop_spec doFree npages pt va k aligned mapped s same

/-! ### `uvmdealloc` -/

theorem pgRoundUp_zero : pgRoundUp 0 = 0 := by
  decide

theorem pgRoundUp_mod (sz : Nat) : pgRoundUp sz % pgSize = 0 :=
  Nat.mul_mod_left _ _

/-- `uvmdealloc` from `oldsz` down to `newsz`, where the user pages between them
are mapped by leaf entries: they are unmapped and their frames freed. -/
theorem uvmdealloc_spec (pt : PageTable) (oldsz newsz : Nat) (k : Kmem)
    (mapped : newsz < oldsz → ∀ s, pgRoundUp newsz / pgSize ≤ s.vpn → s.vpn < pgRoundUp oldsz / pgSize →
      (pt.entry s).v = true ∧ (pt.entry s).flags ≠ {} ∧ s.IsUser) :
    Triple (· = k) (uvmdealloc kend pt oldsz newsz)
      (fun res k' => res.2.root = pt.root ∧ res.2.pages = pt.pages ∧
        ↑k'.freelist + res.2.frames = ↑k.freelist + pt.frames ∧
        (oldsz ≤ newsz ∧ res.1 = oldsz ∧ res.2.entry = pt.entry ∨
          newsz < oldsz ∧ res.1 = newsz ∧
            res.2.entry = clearRange pt.entry (pgRoundUp newsz / pgSize) (pgRoundUp oldsz / pgSize)))
      Benign := by
  intro s same
  rw [same]
  unfold uvmdealloc
  by_cases grow : oldsz ≤ newsz
  · simp [grow]
  have shrink : newsz < oldsz := Nat.lt_of_not_le grow
  by_cases fewer : pgRoundUp newsz < pgRoundUp oldsz
  · have range : pgRoundUp newsz / pgSize + (pgRoundUp oldsz - pgRoundUp newsz) / pgSize =
        pgRoundUp oldsz / pgSize := by
      have := pgRoundUp_mod newsz
      have := pgRoundUp_mod oldsz
      unfold pgSize at *
      omega
    simp only [grow, fewer, if_false, if_true, StateT.run_bind]
    refine (uvmunmap_spec pt _ _ true k (pgRoundUp_mod newsz) ?_ k rfl).bind fun pt' k' post => ?_
    · intro s low high
      rw [range] at high
      obtain ⟨valid, leaf, user⟩ := mapped shrink s low high
      exact ⟨valid, leaf, iff_of_true user rfl⟩
    obtain ⟨root', pages', entry', frames'⟩ := post
    rw [StateT.run_pure, holds_pure]
    rw [range] at entry'
    exact ⟨root', pages', frames', .inr ⟨shrink, rfl, entry'⟩⟩
  · simp only [grow, fewer, if_false]
    rw [StateT.run_pure, holds_pure]
    exact ⟨rfl, rfl, rfl, .inr ⟨shrink, rfl, (clearRange_of_le (Nat.le_of_not_lt fewer
      |> Nat.div_le_div_right)).symm⟩⟩

/-! ### `uvmalloc` -/

/-- Where `uvmalloc` has got to: the user pages `lo` to `hi - 1` are mapped, with
permission `perm`; no user page from `hi` on is mapped; the trapframe and the
trampoline pages are, so that growing into them panics. -/
structure Growing (e : Slot → Pte) (perm : Perm) (lo hi : Nat) : Prop where
  mapped : ∀ s, lo ≤ s.vpn → s.vpn < hi → (e s).v = true ∧ (e s).flags = perm ∧ s.IsUser
  above : ∀ s, s.IsUser → hi ≤ s.vpn → e s = Pte.zero
  trapframe : (e trapframeSlot).v = true
  trampoline : (e trampolineSlot).v = true

section Growing

variable {e : Slot → Pte} {perm : Perm} {lo hi : Nat}

/-- The page at `hi` is mapped next. -/
theorem Growing.map (growing : Growing e perm lo hi) {s : Slot} (next : s.vpn = hi)
    (user : s.IsUser) (pa : Nat) : Growing (Function.update e s (Pte.leaf pa perm)) perm lo (hi + 1) := by
  have tf : trapframeSlot ≠ s := fun eq => by
    rw [← eq] at user
    simp [Slot.IsUser, trapframeSlot_vpn] at user
  have tramp : trampolineSlot ≠ s := fun eq => by
    rw [← eq] at user
    simp [Slot.IsUser, trampolineSlot_vpn] at user
  refine ⟨fun t low high => ?_, fun t tUser high => ?_, ?_, ?_⟩
  · by_cases same : t = s
    · subst same
      simp [user]
    · rw [Function.update_of_ne same]
      have other : t.vpn ≠ hi := fun eq => same (Slot.vpn_injective (eq.trans next.symm))
      exact growing.mapped t low (by omega)
  · have other : t ≠ s := fun eq => by rw [eq] at high; omega
    rw [Function.update_of_ne other]
    exact growing.above t tUser (by omega)
  · rw [Function.update_of_ne tf]
    exact growing.trapframe
  · rw [Function.update_of_ne tramp]
    exact growing.trampoline

/-- A slot below `MAXVA` that is not mapped while growing is a user slot. -/
theorem Growing.isUser (growing : Growing e perm lo hi) {s : Slot} (below : s.va < maxVA)
    (invalid : (e s).v = false) : s.IsUser := by
  rcases Slot.isUser_or below with user | rfl | rfl
  · exact user
  · rw [growing.trapframe] at invalid
    cases invalid
  · rw [growing.trampoline] at invalid
    cases invalid

end Growing

/-- Below 2^64 less a page, an aligned address is its own `PGROUNDUP`. -/
theorem pgRoundUp_of_aligned {x : Nat} (aligned : x % pgSize = 0) (small : x ≤ maxVA) :
    pgRoundUp x = x := by
  unfold pgRoundUp
  unfold maxVA pgSize at *
  omega

/-- `uvmalloc`'s way back from `a`: `uvmdealloc` from `a` to `oldsz` unmaps and
frees what this call mapped. -/
theorem uvmdealloc_rollback {pt : PageTable} {perm : Perm} {oldsz a : Nat} (k : Kmem)
    (oldAligned : oldsz % pgSize = 0) (aligned : a % pgSize = 0) (le : oldsz ≤ a) (small : a ≤ maxVA)
    (readable : perm.r = true) (growing : Growing pt.entry perm (oldsz / pgSize) (a / pgSize)) :
    Triple (· = k) (uvmdealloc kend pt a oldsz)
      (fun res k' => res.2.root = pt.root ∧ res.2.pages = pt.pages ∧
        ↑k'.freelist + res.2.frames = ↑k.freelist + pt.frames ∧
        res.2.entry = clearRange pt.entry (oldsz / pgSize) (a / pgSize)) Benign := by
  have rounded : pgRoundUp a = a := pgRoundUp_of_aligned aligned small
  have roundedOld : pgRoundUp oldsz = oldsz := pgRoundUp_of_aligned oldAligned (le.trans small)
  refine (uvmdealloc_spec pt a oldsz k fun _ s low high => ?_).post fun res k' post => ?_
  · rw [rounded, roundedOld] at *
    obtain ⟨valid, flags, user⟩ := growing.mapped s low high
    refine ⟨valid, fun empty => ?_, user⟩
    rw [flags] at empty
    rw [empty] at readable
    cases readable
  · obtain ⟨root', pages', frames', result⟩ := post
    refine ⟨root', pages', frames', ?_⟩
    rcases result with ⟨up, -, entry'⟩ | ⟨-, -, entry'⟩
    · rw [entry', clearRange_of_le (Nat.div_le_div_right (by omega))]
    · rw [entry', rounded, roundedOld]

/-- The permission `uvmalloc` maps its pages with: `PTE_R | PTE_U | xperm`. -/
theorem uvmPerm_r (xperm : Perm) : ({ xperm with r := true, u := true } : Perm).r = true :=
  rfl

/-- An aligned `a` is below `n` exactly when its page is below `n`'s last. -/
theorem div_lt_pages {a n : Nat} (aligned : a % pgSize = 0) :
    a / pgSize < (n + pgSize - 1) / pgSize ↔ a < n := by
  unfold pgSize at *
  omega

/-- The page after an aligned one below `MAXVA` still ends at or below it. -/
theorem add_pgSize_le_maxVA {a : Nat} (aligned : a % pgSize = 0) (below : a < maxVA) :
    a + pgSize ≤ maxVA := by
  unfold maxVA pgSize at *
  omega

/-- `uvmalloc`'s loop from an aligned `a`, with enough turns to reach `newsz`,
over a pool of aligned pages: it returns `newsz` with the pages up to `newsz`
mapped, or 0 with every page it mapped unmapped again; the pages it took are in
the table or back on the free list. -/
theorem uvmallocLoop_spec (xperm : Perm) (oldsz newsz fuel : Nat) :
    ∀ (pt : PageTable) (a : Nat) (k : Kmem), oldsz % pgSize = 0 → a % pgSize = 0 → oldsz ≤ a →
      a ≤ maxVA → newsz ≤ a + fuel * pgSize →
      Growing pt.entry { xperm with r := true, u := true } (oldsz / pgSize) (a / pgSize) →
      Aligned (↑k.freelist + pt.held) →
      Triple (· = k) (uvmallocLoop kend xperm oldsz newsz pt a fuel)
        (fun res k' => res.2.root = pt.root ∧ ↑k'.freelist + res.2.held = ↑k.freelist + pt.held ∧
          (res.1 = 0 ∧ res.2.entry = clearRange pt.entry (oldsz / pgSize) (a / pgSize) ∨
            res.1 = newsz ∧ Growing res.2.entry { xperm with r := true, u := true } (oldsz / pgSize)
                (max (a / pgSize) ((newsz + pgSize - 1) / pgSize)) ∧
              ∀ s, ¬(a / pgSize ≤ s.vpn ∧ s.vpn < max (a / pgSize) ((newsz + pgSize - 1) / pgSize)) →
                res.2.entry s = pt.entry s)) Benign := by
  induction fuel with
  | zero =>
    intro pt a k _ aligned _ _ enough growing _ s same
    rw [same]
    have top : max (a / pgSize) ((newsz + pgSize - 1) / pgSize) = a / pgSize :=
      max_eq_left (Nat.le_of_not_lt fun lt => by
        have := (div_lt_pages aligned).mp lt
        omega)
    simp only [uvmallocLoop]
    rw [StateT.run_pure, holds_pure, top]
    exact ⟨rfl, rfl, .inr ⟨rfl, growing, fun _ _ => rfl⟩⟩
  | succ fuel ih =>
    intro pt a k oldAligned aligned le small enough growing pool s same
    rw [same]
    by_cases done : newsz ≤ a
    · have top : max (a / pgSize) ((newsz + pgSize - 1) / pgSize) = a / pgSize :=
        max_eq_left (Nat.le_of_not_lt fun lt => absurd done (Nat.not_le.mpr ((div_lt_pages aligned).mp lt)))
      simp only [uvmallocLoop, done, if_true]
      rw [StateT.run_pure, holds_pure, top]
      exact ⟨rfl, rfl, .inr ⟨rfl, growing, fun _ _ => rfl⟩⟩
    -- the pages reach past `a`: the range ends at `newsz`'s last page
    have past : a / pgSize < (newsz + pgSize - 1) / pgSize := (div_lt_pages aligned).mpr (by omega)
    have top : max (a / pgSize) ((newsz + pgSize - 1) / pgSize) = (newsz + pgSize - 1) / pgSize :=
      max_eq_right (Nat.le_of_lt past)
    simp only [uvmallocLoop, done, if_false, StateT.run_bind]
    obtain ⟨freelist, ram⟩ := k
    cases freelist with
    | nil =>
      -- no page left: give back what this call mapped
      simp only [kalloc_run_nil, ok_bind, StateT.run_bind]
      refine (uvmdealloc_rollback _ oldAligned aligned le small (uvmPerm_r xperm) growing _ rfl).bind ?_
      rintro ⟨_, pt'⟩ k' ⟨root', pages', frames', entry'⟩
      rw [StateT.run_pure, holds_pure]
      exact ⟨root', PageTable.held_eq pages' frames', .inl ⟨rfl, entry'⟩⟩
    | cons mem rest =>
      simp only [kalloc_run_cons, ok_bind, StateT.run_bind, memset_run]
      refine (mappages_page pt a mem _ _ aligned _ rfl).bind ?_
      rintro ⟨r, pt1⟩ k1 ⟨root1, pages1, -, result⟩
      dsimp only at root1 pages1 result
      rcases result with ⟨rfl, below, invalid, entry1⟩ | ⟨rfl, entry1, -⟩
      · -- the page is mapped, at a user slot: the trapframe and trampoline are taken
        have vpn : (Slot.ofVa a).vpn = a / pgSize := Slot.vpn_ofVa below
        have va : (Slot.ofVa a).va = a := by
          rw [Slot.va, vpn]
          exact Nat.div_mul_cancel (Nat.dvd_of_mod_eq_zero aligned)
        have user := growing.isUser (by rw [va]; exact below) invalid
        have zero := growing.above _ user (by rw [vpn])
        have growing1 : Growing pt1.entry { xperm with r := true, u := true } (oldsz / pgSize)
            ((a + pgSize) / pgSize) := by
          rw [entry1, add_pgSize_div]
          exact growing.map vpn user mem
        have frames1 : pt1.frames = pt.frames + {mem} := by
          rw [PageTable.frames, entry1, framesOf_map invalid, frameOf_leaf user (pool mem (by simp))]
          rfl
        -- the page moved from the free list into the table: the pool is the same
        have moved : ↑k1.freelist + pt1.held = ↑(mem :: rest) + pt.held :=
          calc ↑k1.freelist + pt1.held = (↑k1.freelist + pt1.pages) + pt.frames + {mem} := by
                rw [PageTable.held, frames1]
                abel
            _ = ↑(mem :: rest) + pt.held := by
                rw [pages1, coe_cons_add, PageTable.held]
                abel
        have top1 : max ((a + pgSize) / pgSize) ((newsz + pgSize - 1) / pgSize) =
            (newsz + pgSize - 1) / pgSize := by
          rw [add_pgSize_div]
          exact max_eq_right past
        simp only [ne_eq, not_true_eq_false, if_false]
        refine (ih pt1 (a + pgSize) k1 oldAligned (by rw [Nat.add_mod_right, aligned]) (by omega)
          (add_pgSize_le_maxVA aligned below) (by rw [Nat.add_mul, Nat.one_mul] at enough; omega)
          growing1 (by rwa [moved]) k1 rfl).mono ?_
        rintro ⟨r', pt'⟩ k' ⟨root', held', result'⟩
        dsimp only at root' held' result' ⊢
        refine ⟨root'.trans root1, held'.trans moved, ?_⟩
        rw [top]
        rw [top1] at result'
        rcases result' with ⟨zero', entry'⟩ | ⟨same', growing', kept'⟩
        · refine .inl ⟨zero', ?_⟩
          rw [entry', entry1, add_pgSize_div, ← vpn,
            clearRange_update_last zero (by rw [vpn]; exact Nat.div_le_div_right le)]
        · refine .inr ⟨same', growing', fun t outside => ?_⟩
          have other : t ≠ Slot.ofVa a := fun eq => by
            rw [eq, vpn] at outside
            exact outside ⟨le_rfl, past⟩
          have later : ¬((a + pgSize) / pgSize ≤ t.vpn ∧ t.vpn < (newsz + pgSize - 1) / pgSize) := by
            rw [add_pgSize_div]
            exact fun inside => outside ⟨Nat.le_of_succ_le inside.1, inside.2⟩
          rw [kept' t later, entry1, Function.update_of_ne other]
      · -- `walk` could not make a page-table page: free the page, give back the rest
        simp only [ne_eq, show (-1 : Int) ≠ 0 by decide, not_false_eq_true, if_true, StateT.run_bind]
        refine holds_kfree_bind ?_
        rw [← entry1] at growing
        refine (uvmdealloc_rollback _ oldAligned aligned le small (uvmPerm_r xperm) growing _ rfl).bind ?_
        rintro ⟨_, pt'⟩ k' ⟨root', pages', frames', entry'⟩
        dsimp only at root' pages' frames' entry'
        rw [StateT.run_pure, holds_pure]
        refine ⟨root'.trans root1, ?_, .inl ⟨rfl, entry'.trans (by rw [entry1])⟩⟩
        have frames1 : pt1.frames = pt.frames := by rw [PageTable.frames, PageTable.frames, entry1]
        calc ↑k'.freelist + pt'.held = ↑(mem :: k1.freelist) + pt1.held := PageTable.held_eq pages' frames'
          _ = {mem} + (↑k1.freelist + pt1.pages) + pt.frames := by
            rw [coe_cons_add, PageTable.held, frames1]
            abel
          _ = ↑(mem :: rest) + pt.held := by
            rw [pages1, coe_cons_add, PageTable.held]
            abel

theorem pgRoundUp_le_maxVA {sz : Nat} (small : sz ≤ maxVA) : pgRoundUp sz ≤ maxVA := by
  unfold pgRoundUp maxVA pgSize at *
  omega

/-- `uvmalloc` from `oldsz` to `newsz` on a table that maps no user page from
`oldsz`'s last page on and maps the trapframe and the trampoline, over a pool of
aligned pages: it returns
`oldsz` when asked to shrink, 0 with the entries as they were, or `newsz` with the
pages up to `newsz` mapped; the pages it took are in the table or back on the
free list. -/
theorem uvmalloc_spec (pt : PageTable) (oldsz newsz : Nat) (xperm : Perm) (k : Kmem)
    (small : oldsz ≤ maxVA)
    (above : ∀ s, s.IsUser → pgRoundUp oldsz / pgSize ≤ s.vpn → pt.entry s = Pte.zero)
    (trapframe : (pt.entry trapframeSlot).v = true) (trampoline : (pt.entry trampolineSlot).v = true)
    (pool : Aligned (↑k.freelist + pt.held)) :
    Triple (· = k) (uvmalloc kend pt oldsz newsz xperm)
      (fun res k' => res.2.root = pt.root ∧ ↑k'.freelist + res.2.held = ↑k.freelist + pt.held ∧
        (newsz < oldsz ∧ res.1 = oldsz ∧ res.2.entry = pt.entry ∨
          res.1 = 0 ∧ res.2.entry = pt.entry ∨
          oldsz ≤ newsz ∧ res.1 = newsz ∧
            Growing res.2.entry { xperm with r := true, u := true } (pgRoundUp oldsz / pgSize)
              (max (pgRoundUp oldsz / pgSize) ((newsz + pgSize - 1) / pgSize)) ∧
            ∀ s, ¬(pgRoundUp oldsz / pgSize ≤ s.vpn ∧
                s.vpn < max (pgRoundUp oldsz / pgSize) ((newsz + pgSize - 1) / pgSize)) →
              res.2.entry s = pt.entry s)) Benign := by
  intro s same
  rw [same]
  unfold uvmalloc
  by_cases shrink : newsz < oldsz
  · rw [if_pos shrink, StateT.run_pure, holds_pure]
    exact ⟨rfl, rfl, .inl ⟨shrink, rfl, rfl⟩⟩
  rw [if_neg shrink]
  have growing : Growing pt.entry { xperm with r := true, u := true } (pgRoundUp oldsz / pgSize)
      (pgRoundUp oldsz / pgSize) :=
    ⟨fun _ low high => absurd high (Nat.not_lt.mpr low), above, trapframe, trampoline⟩
  have enough : newsz ≤ pgRoundUp oldsz + (newsz - pgRoundUp oldsz + pgSize - 1) / pgSize * pgSize := by
    unfold pgSize
    omega
  refine (uvmallocLoop_spec xperm _ newsz _ pt _ k (pgRoundUp_mod oldsz) (pgRoundUp_mod oldsz) le_rfl
    (pgRoundUp_le_maxVA small) enough growing pool k rfl).mono fun res k' post => ?_
  obtain ⟨root', held', result⟩ := post
  refine ⟨root', held', ?_⟩
  rcases result with ⟨zero, entry'⟩ | ⟨same', growing', kept⟩
  · exact .inr (.inl ⟨zero, by rw [entry', clearRange_of_le le_rfl]⟩)
  · exact .inr (.inr ⟨Nat.le_of_not_lt shrink, same', growing', kept⟩)

/-! ### `freewalk` and `uvmfree` -/

/-- Once a table maps nothing, `freewalk` of a level-0 page finds no leaf and
frees the page. -/
theorem freewalkLeaves_spec (pt : PageTable) (i2 i1 : Fin 512) (pa : Nat) (k : Kmem)
    (dir : (pt.dir i2).isSome) (mid : pt.mid i2 i1 = some pa) (empty : ∀ s, (pt.entry s).v = false) :
    Triple (· = k) (freewalkLeaves kend pt i2 i1 pa)
      (fun _ k' => (↑k'.freelist : Multiset Nat) = ↑k.freelist + {pa}) Benign := by
  intro s same
  rw [same]
  have noLeaf : ((List.finRange 512).any fun i0 => (pt.leaf ⟨i2, i1, i0⟩).v) = false := by
    rw [List.any_eq_false]
    intro i0 _
    have present : pt.Present ⟨i2, i1, i0⟩ := ⟨dir, by simp [mid]⟩
    rw [PageTable.leaf_eq_entry present, empty]
    decide
  simp only [freewalkLeaves, noLeaf, Bool.false_eq_true, if_false]
  refine holds_kfree ?_
  dsimp only
  rw [coe_cons]

/-- Once a table maps nothing, `freewalk` of a level-1 page frees it and the
level-0 pages it names. -/
theorem freewalkMid_spec (pt : PageTable) (i2 : Fin 512) (pa : Nat) (k : Kmem)
    (dir : pt.dir i2 = some pa) (empty : ∀ s, (pt.entry s).v = false) :
    Triple (· = k) (freewalkMid kend pt i2 pa) (fun _ k' => ↑k'.freelist = ↑k.freelist + pt.dirPages i2)
      Benign := by
  -- the loop over the level-1 entries frees the level-0 pages still to come
  let I (rest : List (Fin 512)) (k' : Kmem) : Prop :=
    ↑k'.freelist + (rest.map fun i1 => opt (pt.mid i2 i1)).sum =
      ↑k.freelist + ((List.finRange 512).map fun i1 => opt (pt.mid i2 i1)).sum
  intro s same
  rw [same]
  simp only [freewalkMid, StateT.run_bind]
  refine (Triple.forM I ?_ k rfl).bind fun _ k' done => holds_kfree ?_
  · intro i1 rest k' before
    cases mid : pt.mid i2 i1 with
    | none =>
      dsimp only
      rw [StateT.run_pure, holds_pure]
      simpa [I, mid] using before
    | some child =>
      dsimp only
      refine (freewalkLeaves_spec pt i2 i1 child k' (by simp [dir]) mid empty k' rfl).mono
        fun _ k'' freed => ?_
      simp only [I, List.map_cons, List.sum_cons, mid, opt_some] at before ⊢
      rw [freed, ← before]
      abel
  · simp only [I, List.map_nil, List.sum_nil, add_zero] at done
    dsimp only
    rw [coe_cons, done, PageTable.dirPages, dir, Option.elim_some, ← Fin.sum_univ_def]
    abel

/-- Once a table maps nothing, `freewalk` frees every page-table page. -/
theorem freewalk_spec (pt : PageTable) (k : Kmem) (empty : ∀ s, (pt.entry s).v = false) :
    Triple (· = k) (freewalk kend pt)
      (fun _ k' => (↑k'.freelist : Multiset Nat) = ↑k.freelist + pt.pages) Benign := by
  -- the loop over the root's entries frees the level-1 pages still to come, with theirs
  let I (rest : List (Fin 512)) (k' : Kmem) : Prop :=
    ↑k'.freelist + (rest.map pt.dirPages).sum = ↑k.freelist + ((List.finRange 512).map pt.dirPages).sum
  intro s same
  rw [same]
  simp only [freewalk, StateT.run_bind]
  refine (Triple.forM I ?_ k rfl).bind fun _ k' done => holds_kfree ?_
  · intro i2 rest k' before
    cases dir : pt.dir i2 with
    | none =>
      dsimp only
      rw [StateT.run_pure, holds_pure]
      simpa [I, PageTable.dirPages, dir] using before
    | some child =>
      dsimp only
      refine (freewalkMid_spec pt i2 child k' dir empty k' rfl).mono fun _ k'' freed => ?_
      simp only [I, List.map_cons, List.sum_cons] at before ⊢
      rw [freed, ← before]
      abel
  · simp only [I, List.map_nil, List.sum_nil, add_zero] at done
    dsimp only
    rw [coe_cons, done, PageTable.pages, ← Fin.sum_univ_def]
    abel

/-- `uvmfree` of a table that maps exactly the user pages below `sz`'s last page,
each with a leaf entry, frees every page the table holds. -/
theorem uvmfree_spec (pt : PageTable) (sz : Nat) (k : Kmem) (bound : pgRoundUp sz ≤ trapframeVa)
    (mapped : ∀ s, (pt.entry s).v = true ↔ s.vpn < pgRoundUp sz / pgSize)
    (leaf : ∀ s, (pt.entry s).v = true → (pt.entry s).flags ≠ {}) :
    Triple (· = k) (uvmfree kend pt sz)
      (fun _ k' => (↑k'.freelist : Multiset Nat) = ↑k.freelist + pt.held) Benign := by
  intro s same
  rw [same]
  simp only [uvmfree]
  by_cases some : 0 < sz
  · rw [if_pos some]
    have user : ∀ t : Slot, t.vpn < pgRoundUp sz / pgSize → t.IsUser := fun t below =>
      Nat.lt_of_lt_of_le below (Nat.div_le_div_right bound)
    refine (uvmunmap_spec pt 0 (pgRoundUp sz / pgSize) true k (by decide) (fun t _ below => ?_) k rfl).bind
      fun pt' k' post => ?_
    · rw [Nat.zero_div, Nat.zero_add] at below
      have valid := (mapped t).mpr below
      exact ⟨valid, leaf t valid, iff_of_true (user t below) rfl⟩
    obtain ⟨-, pages', entry', frames'⟩ := post
    have empty : ∀ t, (pt'.entry t).v = false := by
      intro t
      rw [entry', clearRange]
      split
      · rfl
      · rename_i outside
        have high : pgRoundUp sz / pgSize ≤ t.vpn := by simpa using outside
        simpa using (mapped t).not.mpr (Nat.not_lt.mpr high)
    rw [PageTable.frames, framesOf_eq_zero empty, add_zero] at frames'
    refine (freewalk_spec pt' k' empty k' rfl).mono fun _ k'' freed => ?_
    rw [freed, frames', pages', PageTable.held, add_comm pt.pages, add_assoc]
  · rw [if_neg some, pure_bind]
    have zero : sz = 0 := Nat.eq_zero_of_not_pos some
    have empty : ∀ t, (pt.entry t).v = false := fun t => by
      simpa using (mapped t).not.mpr (by rw [zero, pgRoundUp_zero]; exact Nat.not_lt_zero _)
    refine (freewalk_spec pt k empty k rfl).mono fun _ k' freed => ?_
    rw [freed, PageTable.held, PageTable.frames, framesOf_eq_zero empty, add_zero]

/-! ### `uvmcopy` -/

/-- `uvmcopy`'s `err:` path at `i`: the pages below `i`, copied with leaf
entries at user slots, are unmapped and freed. -/
theorem uvmcopyErr_spec (new : PageTable) (i : Nat) (k : Kmem)
    (copied : ∀ s, s.vpn < i / pgSize → (new.entry s).v = true ∧ (new.entry s).flags ≠ {} ∧ s.IsUser) :
    Triple (· = k) (uvmcopyErr kend new i)
      (fun res k' => res.1 = -1 ∧ res.2.root = new.root ∧ ↑k'.freelist + res.2.held = ↑k.freelist + new.held ∧
        res.2.entry = clearRange new.entry 0 (i / pgSize)) Benign := by
  intro s same
  simp only [uvmcopyErr, StateT.run_bind]
  refine (uvmunmap_spec new 0 (i / pgSize) true k (by decide) (fun t _ below => ?_) s same).bind
    fun new' k' post => ?_
  · rw [Nat.zero_div, Nat.zero_add] at below
    obtain ⟨valid, leaf, user⟩ := copied t below
    exact ⟨valid, leaf, iff_of_true user rfl⟩
  obtain ⟨root', pages', entry', frames'⟩ := post
  rw [StateT.run_pure, holds_pure]
  rw [Nat.zero_div, Nat.zero_add] at entry'
  exact ⟨rfl, root', PageTable.held_eq pages' frames', entry'⟩

/-- Pages copied with the parent's flags from readable parent pages at user
slots hold leaf entries at user slots: what `err:` frees. -/
theorem copied_leaf {old new : PageTable} {i sz : Nat} (inside : i / pgSize ≤ (sz + pgSize - 1) / pgSize)
    (parent : ∀ s, s.vpn < (sz + pgSize - 1) / pgSize →
      (old.entry s).v = true ∧ (old.entry s).r = true ∧ s.IsUser)
    (copied : ∀ s, s.vpn < i / pgSize → (new.entry s).v = true ∧ (new.entry s).flags = (old.entry s).flags) :
    ∀ s, s.vpn < i / pgSize → (new.entry s).v = true ∧ (new.entry s).flags ≠ {} ∧ s.IsUser := by
  intro s below
  obtain ⟨valid, flags⟩ := copied s below
  obtain ⟨-, readable, user⟩ := parent s (by omega)
  refine ⟨valid, fun empty => ?_, user⟩
  rw [flags] at empty
  have : (old.entry s).flags.r = false := by rw [empty]
  simp [Pte.flags, readable] at this

/-- One page more copied at `i`, with the parent's flags: the pages below the
next one hold the parent's flags, and the user slots from the next one on are
still empty. -/
theorem copied_update {old new : PageTable} {i : Nat} (below : i < maxVA) (mem : Nat)
    (copied : ∀ s, s.vpn < i / pgSize → (new.entry s).v = true ∧ (new.entry s).flags = (old.entry s).flags)
    (rest : ∀ s, s.IsUser → i / pgSize ≤ s.vpn → new.entry s = Pte.zero) :
    (∀ t, t.vpn < (i + pgSize) / pgSize →
      (Function.update new.entry (Slot.ofVa i) (Pte.leaf mem (old.entry (Slot.ofVa i)).flags) t).v = true ∧
        (Function.update new.entry (Slot.ofVa i) (Pte.leaf mem (old.entry (Slot.ofVa i)).flags) t).flags =
          (old.entry t).flags) ∧
      ∀ t, t.IsUser → (i + pgSize) / pgSize ≤ t.vpn →
        Function.update new.entry (Slot.ofVa i) (Pte.leaf mem (old.entry (Slot.ofVa i)).flags) t = Pte.zero := by
  have vpn : (Slot.ofVa i).vpn = i / pgSize := Slot.vpn_ofVa below
  refine ⟨fun t lt => ?_, fun t tUser high => ?_⟩
  · rw [add_pgSize_div] at lt
    by_cases same : t = Slot.ofVa i
    · subst same
      simp
    · rw [Function.update_of_ne same]
      have other : t.vpn ≠ i / pgSize := fun eq => same (Slot.vpn_injective (eq.trans vpn.symm))
      exact copied t (by omega)
  · rw [add_pgSize_div] at high
    have other : t ≠ Slot.ofVa i := fun eq => by rw [eq, vpn] at high; omega
    rw [Function.update_of_ne other]
    exact rest t tUser (by omega)

/-- `uvmcopy`'s loop from an aligned `i`, with enough turns to reach `sz`, where
the parent maps every page below `sz`'s last page and the pages below `i` are
copied, over a pool of aligned pages: it returns 0 with every page copied, or -1 with none; the pages it took
are in the new table or back on the free list. -/
theorem uvmcopyLoop_spec (old : PageTable) (sz fuel : Nat) :
    ∀ (new : PageTable) (i : Nat) (k : Kmem), i % pgSize = 0 →
      i / pgSize ≤ (sz + pgSize - 1) / pgSize → sz ≤ i + fuel * pgSize →
      (∀ s, s.vpn < (sz + pgSize - 1) / pgSize →
        (old.entry s).v = true ∧ (old.entry s).r = true ∧ s.IsUser) →
      (∀ s, s.vpn < i / pgSize → (new.entry s).v = true ∧ (new.entry s).flags = (old.entry s).flags) →
      (∀ s, s.IsUser → i / pgSize ≤ s.vpn → new.entry s = Pte.zero) →
      Aligned (↑k.freelist + new.held) →
      Triple (· = k) (uvmcopyLoop kend old sz new i fuel)
        (fun res k' => res.2.root = new.root ∧ ↑k'.freelist + res.2.held = ↑k.freelist + new.held ∧
          (res.1 = 0 ∧
              (∀ s, s.vpn < (sz + pgSize - 1) / pgSize →
                (res.2.entry s).v = true ∧ (res.2.entry s).flags = (old.entry s).flags) ∧
              (∀ s, ¬(i / pgSize ≤ s.vpn ∧ s.vpn < (sz + pgSize - 1) / pgSize) →
                res.2.entry s = new.entry s) ∨
            res.1 = -1 ∧ res.2.entry = clearRange new.entry 0 (i / pgSize))) Benign := by
  induction fuel with
  | zero =>
    intro new i k aligned inside enough parent copied rest _ s same
    rw [same]
    have top : (sz + pgSize - 1) / pgSize ≤ i / pgSize := by
      rw [Nat.zero_mul, Nat.add_zero] at enough
      unfold pgSize at *
      omega
    simp only [uvmcopyLoop]
    rw [StateT.run_pure, holds_pure]
    exact ⟨rfl, rfl, .inl ⟨rfl, fun t below => copied t (by omega), fun _ _ => rfl⟩⟩
  | succ fuel ih =>
    intro new i k aligned inside enough parent copied rest pool s same
    rw [same]
    by_cases done : sz ≤ i
    · have top : (sz + pgSize - 1) / pgSize ≤ i / pgSize := by
        unfold pgSize at *
        omega
      simp only [uvmcopyLoop, done, if_true]
      rw [StateT.run_pure, holds_pure]
      exact ⟨rfl, rfl, .inl ⟨rfl, fun t below => copied t (by omega), fun _ _ => rfl⟩⟩
    have past : i / pgSize < (sz + pgSize - 1) / pgSize := (div_lt_pages aligned).mpr (by omega)
    by_cases high : maxVA ≤ i
    · simp [uvmcopyLoop, done, walk, high, Benign, mismatchPanics]
    have below : i < maxVA := Nat.not_le.mp high
    have vpn : (Slot.ofVa i).vpn = i / pgSize := Slot.vpn_ofVa below
    obtain ⟨valid, readable, user⟩ := parent (Slot.ofVa i) (by rw [vpn]; exact past)
    have present := PageTable.present_of_valid valid
    have zero := rest _ user (by rw [vpn])
    simp only [uvmcopyLoop, done, if_false, walk_lookup_bind below, if_pos present,
      PageTable.leaf_eq_entry present, valid, Bool.not_true, Bool.false_eq_true, StateT.run_bind]
    obtain ⟨freelist, ram⟩ := k
    cases freelist with
    | nil =>
      simp only [kalloc_run_nil, ok_bind]
      -- the pages copied so far hold leaf entries at user slots, so `err:` may free them
      refine (uvmcopyErr_spec new i _ (copied_leaf (by omega) parent copied) _ rfl).mono ?_
      rintro res k' ⟨minus, root', held', entry'⟩
      exact ⟨root', held', .inr ⟨minus, entry'⟩⟩
    | cons mem rest' =>
      simp only [kalloc_run_cons, ok_bind, StateT.run_bind, memmove_run]
      refine (mappages_page new i mem _ _ aligned _ rfl).bind ?_
      rintro ⟨r, new1⟩ k1 ⟨root1, pages1, -, result⟩
      dsimp only at root1 pages1 result
      rcases result with ⟨rfl, -, invalid, entry1⟩ | ⟨rfl, entry1, -⟩
      · obtain ⟨copied1, rest1⟩ := copied_update below mem copied rest
        rw [← entry1] at copied1 rest1
        have frames1 : new1.frames = new.frames + {mem} := by
          rw [PageTable.frames, entry1, framesOf_map invalid, frameOf_leaf user (pool mem (by simp))]
          rfl
        -- the copy's page moved from the free list into the table: the pool is the same
        have moved : ↑k1.freelist + new1.held = ↑(mem :: rest') + new.held :=
          calc ↑k1.freelist + new1.held = (↑k1.freelist + new1.pages) + new.frames + {mem} := by
                rw [PageTable.held, frames1]
                abel
            _ = ↑(mem :: rest') + new.held := by
                rw [pages1, coe_cons_add, PageTable.held]
                abel
        simp only [ne_eq, not_true_eq_false, if_false]
        refine (ih new1 (i + pgSize) k1 (by rw [Nat.add_mod_right, aligned])
          (by rw [add_pgSize_div]; omega) (by rw [Nat.add_mul, Nat.one_mul] at enough; omega)
          parent copied1 rest1 (by rwa [moved]) k1 rfl).mono ?_
        rintro ⟨r', new'⟩ k' ⟨root', held', result'⟩
        dsimp only at root' held' result' ⊢
        refine ⟨root'.trans root1, held'.trans moved, ?_⟩
        rcases result' with ⟨zero', all', kept'⟩ | ⟨minus', entry'⟩
        · refine .inl ⟨zero', all', fun t outside => ?_⟩
          have other : t ≠ Slot.ofVa i := fun eq => by
            rw [eq, vpn] at outside
            exact outside ⟨le_rfl, past⟩
          have later : ¬((i + pgSize) / pgSize ≤ t.vpn ∧ t.vpn < (sz + pgSize - 1) / pgSize) := by
            rw [add_pgSize_div]
            exact fun inside => outside ⟨Nat.le_of_succ_le inside.1, inside.2⟩
          rw [kept' t later, entry1, Function.update_of_ne other]
        · refine .inr ⟨minus', ?_⟩
          rw [entry', entry1, add_pgSize_div, ← vpn, clearRange_update_last zero (Nat.zero_le _)]
      · simp only [ne_eq, show (-1 : Int) ≠ 0 by decide, not_false_eq_true, if_true, StateT.run_bind]
        refine holds_kfree_bind ?_
        rw [← entry1] at copied
        refine (uvmcopyErr_spec new1 i _ (copied_leaf (by omega) parent copied) _ rfl).mono ?_
        rintro res k' ⟨minus, root', held', entry'⟩
        refine ⟨root'.trans root1, ?_, .inr ⟨minus, ?_⟩⟩
        · have frames1 : new1.frames = new.frames := by
            rw [PageTable.frames, PageTable.frames, entry1]
          calc ↑k'.freelist + res.2.held = ↑(mem :: k1.freelist) + new1.held := held'
            _ = {mem} + (↑k1.freelist + new1.pages) + new.frames := by
              rw [coe_cons_add, PageTable.held, frames1]
              abel
            _ = ↑(mem :: rest') + new.held := by
              rw [pages1, coe_cons_add, PageTable.held]
              abel
        · rw [entry', entry1]

/-- `uvmcopy` of the pages below `sz` into a table with no user page, over a pool
of aligned pages: 0 with every page copied with its flags, or -1 with the table's
entries as they were. -/
theorem uvmcopy_spec (old new : PageTable) (sz : Nat) (k : Kmem)
    (parent : ∀ s, s.vpn < (sz + pgSize - 1) / pgSize →
      (old.entry s).v = true ∧ (old.entry s).r = true ∧ s.IsUser)
    (fresh : ∀ s, s.IsUser → new.entry s = Pte.zero) (pool : Aligned (↑k.freelist + new.held)) :
    Triple (· = k) (uvmcopy kend old new sz)
      (fun res k' => res.2.root = new.root ∧ ↑k'.freelist + res.2.held = ↑k.freelist + new.held ∧
        (res.1 = 0 ∧
            (∀ s, s.vpn < (sz + pgSize - 1) / pgSize →
              (res.2.entry s).v = true ∧ (res.2.entry s).flags = (old.entry s).flags) ∧
            (∀ s, (sz + pgSize - 1) / pgSize ≤ s.vpn → res.2.entry s = new.entry s) ∨
          res.1 = -1 ∧ res.2.entry = new.entry)) Benign := by
  have enough : sz ≤ 0 + (sz + pgSize - 1) / pgSize * pgSize := by
    unfold pgSize
    omega
  refine (uvmcopyLoop_spec old sz _ new 0 k (by decide) (by simp) enough parent
    (fun _ below => absurd below (Nat.not_lt_zero _)) (fun s user _ => fresh s user) pool).post
    fun res k' ⟨root', held', result⟩ => ⟨root', held', ?_⟩
  rcases result with ⟨zero, all, kept⟩ | ⟨minus, entry'⟩
  · exact .inl ⟨zero, all, fun s high => kept s fun inside => Nat.not_lt.mpr high inside.2⟩
  · exact .inr ⟨minus, by rw [entry', Nat.zero_div, clearRange_of_le le_rfl]⟩

/-! ### `uvmclear`, `walkaddr`, `copyout`, `copyin`, `copyinstr` -/

/-- `uvmclear` of a mapped page clears its `PTE_U` and nothing else. -/
theorem uvmclear_spec (pt : PageTable) (va : Nat) (k : Kmem) (valid : (pt.entry (Slot.ofVa va)).v = true) :
    Triple (· = k) (uvmclear pt va)
      (fun pt' k' => k' = k ∧ pt'.root = pt.root ∧ pt'.pages = pt.pages ∧
        pt'.entry = Function.update pt.entry (Slot.ofVa va) { pt.entry (Slot.ofVa va) with u := false })
      Benign := by
  intro s same
  rw [same]
  by_cases high : maxVA ≤ va
  · simp [uvmclear, walk, high, Benign, mismatchPanics]
  have present := PageTable.present_of_valid valid
  simp only [uvmclear, walk_lookup_bind (Nat.not_le.mp high), if_pos present]
  rw [StateT.run_pure, holds_pure, PageTable.leaf_eq_entry present]
  exact ⟨rfl, rfl, rfl, PageTable.entry_setLeaf present _⟩

/-- `walkaddr` reads the table: it changes nothing and does not panic. -/
theorem walkaddr_spec (pt : PageTable) (va : Nat) (k : Kmem) :
    Triple (· = k) (walkaddr pt va) (fun _ k' => k' = k) Benign := by
  intro s same
  rw [same]
  unfold walkaddr
  by_cases high : maxVA ≤ va
  · rw [if_pos high, StateT.run_pure, holds_pure]
  rw [if_neg high, walk_lookup_bind (Nat.not_le.mp high)]
  split
  · dsimp only
    split
    · rw [StateT.run_pure, holds_pure]
    · split <;> rw [StateT.run_pure, holds_pure]
  · rw [StateT.run_pure, holds_pure]

/-- `copyout` reads the table and writes user bytes: it keeps the free list and
does not panic. -/
theorem copyoutLoop_spec (pt : PageTable) (fuel : Nat) :
    ∀ (dstva : Nat) (src : List UInt8) (k : Kmem), Triple (· = k) (copyoutLoop pt dstva src fuel)
      (fun _ k' => k'.freelist = k.freelist) Benign := by
  induction fuel with
  | zero =>
    intro dstva src k s same
    rw [same, copyoutLoop, StateT.run_pure, holds_pure]
  | succ fuel ih =>
    intro dstva src k s same
    rw [same]
    unfold copyoutLoop
    by_cases empty : src.length = 0
    · rw [if_pos empty, StateT.run_pure, holds_pure]
    rw [if_neg empty]
    by_cases high : maxVA ≤ dstva / pgSize * pgSize
    · rw [if_pos high, StateT.run_pure, holds_pure]
    rw [if_neg high, walk_lookup_bind (Nat.not_le.mp high)]
    split
    · dsimp only
      split
      · rw [StateT.run_pure, holds_pure]
      · rw [StateT.run_bind, memmoveFrom_run, ok_bind]
        exact (ih _ _ _ _ rfl).mono fun _ _ kept => kept
    · rw [StateT.run_pure, holds_pure]

theorem copyout_spec (pt : PageTable) (dstva : Nat) (src : List UInt8) (k : Kmem) :
    Triple (· = k) (copyout pt dstva src) (fun _ k' => k'.freelist = k.freelist) Benign :=
  copyoutLoop_spec pt (src.length + 1) dstva src k

/-- `copyin` reads the table and memory: it changes nothing. -/
theorem copyinLoop_spec (pt : PageTable) (fuel : Nat) :
    ∀ (srcva len : Nat) (k : Kmem), Triple (· = k) (copyinLoop pt srcva len fuel) (fun _ k' => k' = k)
      Benign := by
  induction fuel with
  | zero =>
    intro srcva len k s same
    rw [same, copyinLoop, StateT.run_pure, holds_pure]
  | succ fuel ih =>
    intro srcva len k s same
    rw [same]
    unfold copyinLoop
    by_cases empty : len = 0
    · rw [if_pos empty, StateT.run_pure, holds_pure]
    rw [if_neg empty, StateT.run_bind]
    refine (walkaddr_spec pt _ k k rfl).bind fun pa0 k' kept => ?_
    rw [kept]
    by_cases missing : pa0 = 0
    · rw [if_pos missing, StateT.run_pure, holds_pure]
    rw [if_neg missing, StateT.run_bind, StateT.run_get, pure_bind]
    dsimp only
    rw [StateT.run_bind]
    refine (ih _ _ k k rfl).bind fun _ k'' kept' => ?_
    rw [StateT.run_pure, holds_pure]
    exact kept'

theorem copyin_spec (pt : PageTable) (srcva len : Nat) (k : Kmem) :
    Triple (· = k) (copyin pt srcva len) (fun _ k' => k' = k) Benign :=
  copyinLoop_spec pt (len + 1) srcva len k

/-- `copyinstr` reads the table and memory: it changes nothing. -/
theorem copyinstrLoop_spec (pt : PageTable) (fuel : Nat) :
    ∀ (srcva max : Nat) (k : Kmem), Triple (· = k) (copyinstrLoop pt srcva max fuel) (fun _ k' => k' = k)
      Benign := by
  induction fuel with
  | zero =>
    intro srcva max k s same
    rw [same, copyinstrLoop, StateT.run_pure, holds_pure]
  | succ fuel ih =>
    intro srcva max k s same
    rw [same]
    unfold copyinstrLoop
    by_cases empty : max = 0
    · rw [if_pos empty, StateT.run_pure, holds_pure]
    rw [if_neg empty, StateT.run_bind]
    refine (walkaddr_spec pt _ k k rfl).bind fun pa0 k' kept => ?_
    rw [kept]
    by_cases missing : pa0 = 0
    · rw [if_pos missing, StateT.run_pure, holds_pure]
    rw [if_neg missing, StateT.run_bind, StateT.run_get, pure_bind]
    dsimp only
    split
    · rw [StateT.run_pure, holds_pure]
    rw [StateT.run_bind]
    refine (ih _ _ k k rfl).bind fun _ k'' kept' => ?_
    rw [StateT.run_pure, holds_pure]
    exact kept'

theorem copyinstr_spec (pt : PageTable) (srcva max : Nat) (k : Kmem) :
    Triple (· = k) (copyinstr pt srcva max) (fun _ k' => k' = k) Benign :=
  copyinstrLoop_spec pt (max + 1) srcva max k

end Xv6.Vm
