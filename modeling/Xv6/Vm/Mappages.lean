import Xv6.Vm.Spec

/-!
Contract: the page table as an abstraction of the Sv39 tree, and `mappages` over
a range of pages.

`walk` names a level-0 entry by the slot of its address, and two addresses share
a slot exactly when they lie on one page (`Slot.ofVa_eq_iff`); with `alloc` it
only adds page-table pages taken from the free list, and changes no entry
(`walk_alloc`). `mappages` of `size / PGSIZE` unmapped pages below `MAXVA` returns
0 having mapped them all, or -1 having mapped a prefix of them, each to the frame
at the same distance from `pa` (`mapRange`), every other entry kept.

The model keeps an entry as its physical address and bits. The words the code
stores are `PA2PTE(pa) | flags`, and `PTE2PA` reads the address back from them for
every page-aligned `pa` below 2^56; the indices `PX` takes out of a 64-bit
address are those of `px`.

Owns: `pa2pte`, `pte2pa`, `pxWord`, `mapRange`, `mappagesLoop_spec`,
`mappages_spec`.

Does not own: `walk` and `mappages` (`Xv6.Vm.PageTable`), the triples of one
page (`Xv6.Vm.Spec`).
-/

namespace Xv6.Vm

/-! ### The words of the code -/

/-- `PA2PTE(pa)`. -/
def pa2pte (pa : UInt64) : UInt64 :=
  (pa >>> 12) <<< 10

/-- `PTE2PA(pte)`. -/
def pte2pa (pte : UInt64) : UInt64 :=
  (pte >>> 10) <<< 12

/-- `PX(level, va)` on a 64-bit address. -/
def pxWord (level : Nat) (va : UInt64) : UInt64 :=
  (va >>> (12 + 9 * level).toUInt64) &&& 0x1FF

theorem pte2pa_pa2pte (pa : UInt64) (aligned : pa.toNat % pgSize = 0) (small : pa.toNat < 2 ^ 56) :
    pte2pa (pa2pte pa) = pa := by
  apply UInt64.toNat_inj.mp
  simp only [pte2pa, pa2pte, UInt64.toNat_shiftLeft, UInt64.toNat_shiftRight, Nat.shiftLeft_eq,
    Nat.shiftRight_eq_div_pow, show (12 : UInt64).toNat % 64 = 12 from rfl,
    show (10 : UInt64).toNat % 64 = 10 from rfl, Nat.reducePow]
  simp only [pgSize] at aligned
  omega

theorem px_eq_pxWord {level : Nat} (va : UInt64) (inWord : 12 + 9 * level < 64) :
    (px level va.toNat).val = (pxWord level va).toNat := by
  have shift : (12 + 9 * level).toUInt64.toNat % 64 = 12 + 9 * level := by
    have fits : 12 + 9 * level < 2 ^ 64 := by omega
    rw [Nat.toUInt64, UInt64.toNat_ofNat', Nat.mod_eq_of_lt fits, Nat.mod_eq_of_lt inWord]
  have mask : (0x1FF : UInt64).toNat = 2 ^ 9 - 1 := rfl
  simp only [px, pxWord, UInt64.toNat_and, UInt64.toNat_shiftRight, shift, mask, Nat.and_two_pow_sub_one_eq_mod,
    Nat.shiftRight_eq_div_pow]

/-! ### Slots -/

/-- Two addresses below `MAXVA` have one level-0 slot exactly when they lie on one page. -/
theorem Slot.ofVa_eq_iff {va1 va2 : Nat} (below1 : va1 < maxVA) (below2 : va2 < maxVA) :
    Slot.ofVa va1 = Slot.ofVa va2 ↔ va1 >>> 12 = va2 >>> 12 := by
  have page : pgSize = 2 ^ 12 := rfl
  rw [Nat.shiftRight_eq_div_pow, Nat.shiftRight_eq_div_pow, ← page, ← Slot.vpn_ofVa below1,
    ← Slot.vpn_ofVa below2]
  exact ⟨congrArg Slot.vpn, fun same => Slot.vpn_injective same⟩

theorem Slot.ofVa_ne {va1 va2 : Nat} (below1 : va1 < maxVA) (below2 : va2 < maxVA)
    (apart : va1 / pgSize ≠ va2 / pgSize) : Slot.ofVa va1 ≠ Slot.ofVa va2 := by
  intro same
  have := congrArg Slot.vpn same
  rw [Slot.vpn_ofVa below1, Slot.vpn_ofVa below2] at this
  exact apart this

/-! ### Mapping a range -/

/-- The entries with the `n` pages from page `vpn` on mapped to the frames from
`pa` on, with `perm`. -/
def mapRange (e : Slot → Pte) (vpn n pa : Nat) (perm : Perm) (s : Slot) : Pte :=
  if vpn ≤ s.vpn ∧ s.vpn < vpn + n then Pte.leaf (pa + (s.vpn - vpn) * pgSize) perm else e s

theorem mapRange_zero (e : Slot → Pte) (vpn pa : Nat) (perm : Perm) : mapRange e vpn 0 pa perm = e := by
  funext s
  rw [mapRange, if_neg (by omega)]

/-- Mapping the first page, then the rest from the next page and frame on. -/
theorem mapRange_succ {e : Slot → Pte} {s : Slot} {vpn : Nat} (first : s.vpn = vpn) (n pa : Nat) (perm : Perm) :
    mapRange (Function.update e s (Pte.leaf pa perm)) (vpn + 1) n (pa + pgSize) perm =
      mapRange e vpn (n + 1) pa perm := by
  funext t
  by_cases here : t = s
  · subst here
    rw [mapRange, mapRange, if_neg (by omega), if_pos (by omega), Function.update_self, first, Nat.sub_self,
      Nat.zero_mul, Nat.add_zero]
  · have apart : t.vpn ≠ vpn := fun same => here (Slot.vpn_injective (same.trans first.symm))
    rw [mapRange, mapRange, Function.update_of_ne here]
    by_cases inside : vpn + 1 ≤ t.vpn ∧ t.vpn < vpn + 1 + n
    · rw [if_pos inside, if_pos (by omega)]
      -- the frame of page `t.vpn` counted from the next frame
      have frame : pa + pgSize + (t.vpn - (vpn + 1)) * pgSize = pa + (t.vpn - vpn) * pgSize := by
        simp only [pgSize]
        omega
      rw [frame]
    · rw [if_neg inside, if_neg (by omega)]

/-- `mappages`' loop over `n` unmapped pages below `MAXVA`: it returns 0 with all
of them mapped, or -1 with a prefix of them mapped, every other entry kept; the
table holds the page-table pages `walk` took from the free list. -/
theorem mappagesLoop_spec (perm : Perm) (n : Nat) :
    ∀ (pt : PageTable) (a pa : Nat) (k : Kmem), a % pgSize = 0 → a + n * pgSize ≤ maxVA →
      (∀ i < n, (pt.entry (Slot.ofVa (a + i * pgSize))).v = false) →
      ∃ r pt' k', (mappagesLoop perm pt a pa n).run k = .ok ((r, pt'), k') ∧ pt'.root = pt.root ∧
        ↑k'.freelist + pt'.pages = ↑k.freelist + pt.pages ∧
        (r = 0 ∧ pt'.entry = mapRange pt.entry (a / pgSize) n pa perm ∨
          r = -1 ∧ ∃ m < n, pt'.entry = mapRange pt.entry (a / pgSize) m pa perm) := by
  induction n with
  | zero =>
    intro pt a pa k _ _ _
    exact ⟨0, pt, k, rfl, rfl, rfl, .inl ⟨rfl, (mapRange_zero _ _ _ _).symm⟩⟩
  | succ n ih =>
    intro pt a pa k aligned fits unmapped
    have below : a < maxVA := by
      simp only [pgSize] at fits
      omega
    obtain ⟨pt1, r1, k1, ran, entry1, root1, pages1, -, -, found⟩ := walk_alloc pt k below
    simp only [mappagesLoop, StateT.run_bind, ran, Hoare.ok_bind]
    cases r1 with
    | none =>
      -- `walk` could not make a page-table page: nothing of the range is mapped
      refine ⟨-1, pt1, k1, rfl, root1, pages1, .inr ⟨rfl, 0, by omega, ?_⟩⟩
      rw [mapRange_zero, entry1]
    | some s =>
      obtain ⟨rfl, present⟩ := found s rfl
      have free : (pt1.leaf (Slot.ofVa a)).v = false := by
        rw [PageTable.leaf_eq_entry present, entry1]
        simpa using unmapped 0 (by omega)
      simp only [free, Bool.false_eq_true, if_false]
      have entry2 : (pt1.setLeaf (Slot.ofVa a) (Pte.leaf pa perm)).entry =
          Function.update pt.entry (Slot.ofVa a) (Pte.leaf pa perm) := by
        rw [PageTable.entry_setLeaf present, entry1]
      -- the pages after the first keep their entries
      have rest : ∀ i < n, ((pt1.setLeaf (Slot.ofVa a) (Pte.leaf pa perm)).entry
          (Slot.ofVa (a + pgSize + i * pgSize))).v = false := by
        intro i lt
        have later : a + pgSize + i * pgSize = a + (i + 1) * pgSize := by ring
        have inRange : a + (i + 1) * pgSize < maxVA := by
          have earlier : (i + 1) * pgSize ≤ n * pgSize := Nat.mul_le_mul_right _ (by omega)
          have page : 0 < pgSize := by decide
          rw [Nat.succ_mul] at fits
          omega
        have other : Slot.ofVa (a + (i + 1) * pgSize) ≠ Slot.ofVa a := by
          refine Slot.ofVa_ne inRange below ?_
          simp only [pgSize] at aligned ⊢
          omega
        rw [entry2, later, Function.update_of_ne other]
        exact unmapped (i + 1) (by omega)
      have aligned' : (a + pgSize) % pgSize = 0 := by
        simp only [pgSize] at aligned ⊢
        omega
      have fits' : a + pgSize + n * pgSize ≤ maxVA := by
        rw [Nat.succ_mul] at fits
        omega
      obtain ⟨r, pt', k', run', root', pages', result⟩ :=
        ih (pt1.setLeaf (Slot.ofVa a) (Pte.leaf pa perm)) (a + pgSize) (pa + pgSize) k1 aligned' fits' rest
      refine ⟨r, pt', k', run', root'.trans root1, pages'.trans pages1, ?_⟩
      simp only [entry2, add_pgSize_div, mapRange_succ (Slot.vpn_ofVa below)] at result
      rcases result with ⟨rfl, mapped⟩ | ⟨rfl, m, lt, mapped⟩
      · exact .inl ⟨rfl, mapped⟩
      · exact .inr ⟨rfl, m + 1, by omega, mapped⟩

/-- `mappages` of an aligned range of unmapped pages below `MAXVA`. -/
theorem mappages_spec (pt : PageTable) (va size pa : Nat) (perm : Perm) (k : Kmem) (aligned : va % pgSize = 0)
    (sized : size % pgSize = 0) (positive : 0 < size) (fits : va + size ≤ maxVA)
    (unmapped : ∀ i < size / pgSize, (pt.entry (Slot.ofVa (va + i * pgSize))).v = false) :
    ∃ r pt' k', (mappages pt va size pa perm).run k = .ok ((r, pt'), k') ∧ pt'.root = pt.root ∧
      ↑k'.freelist + pt'.pages = ↑k.freelist + pt.pages ∧
      (r = 0 ∧ pt'.entry = mapRange pt.entry (va / pgSize) (size / pgSize) pa perm ∨
        r = -1 ∧ ∃ m < size / pgSize, pt'.entry = mapRange pt.entry (va / pgSize) m pa perm) := by
  have loop : (mappages pt va size pa perm).run k = (mappagesLoop perm pt va pa (size / pgSize)).run k := by
    simp [mappages, aligned, sized, positive.ne']
  have whole : va + size / pgSize * pgSize ≤ maxVA := by
    rw [Nat.div_mul_cancel (Nat.dvd_of_mod_eq_zero sized)]
    exact fits
  rw [loop]
  exact mappagesLoop_spec perm _ pt va pa k aligned whole unmapped

/-- **The page table as an abstraction.** `walk` names the slot of an address's
page, the same slot for two addresses exactly when they lie on one page; without
`alloc` it only looks, with `alloc` it adds page-table pages from the free list
and no entry; `mappages` of an aligned range of unmapped pages below `MAXVA` maps
them all, or a prefix of them, every other entry kept; and `PTE2PA` undoes
`PA2PTE` on the addresses of pages below 2^56. -/
theorem page_table_abstraction :
    (∀ va1 va2, va1 < maxVA → va2 < maxVA → (Slot.ofVa va1 = Slot.ofVa va2 ↔ va1 >>> 12 = va2 >>> 12)) ∧
    (∀ (pt : PageTable) (va : Nat) (k : Kmem), va < maxVA →
      (walk pt va false).run k = .ok ((pt, if pt.Present (Slot.ofVa va) then some (Slot.ofVa va) else none), k)) ∧
    (∀ (pt : PageTable) (va : Nat) (k : Kmem), va < maxVA →
      ∃ pt' r k', (walk pt va true).run k = .ok ((pt', r), k') ∧ pt'.entry = pt.entry ∧ pt'.root = pt.root ∧
        ↑k'.freelist + pt'.pages = ↑k.freelist + pt.pages ∧ ∀ s, r = some s → s = Slot.ofVa va ∧ pt'.Present s) ∧
    (∀ (pt : PageTable) (va size pa : Nat) (perm : Perm) (k : Kmem), va % pgSize = 0 → size % pgSize = 0 →
      0 < size → va + size ≤ maxVA → (∀ i < size / pgSize, (pt.entry (Slot.ofVa (va + i * pgSize))).v = false) →
      ∃ r pt' k', (mappages pt va size pa perm).run k = .ok ((r, pt'), k') ∧ pt'.root = pt.root ∧
        ↑k'.freelist + pt'.pages = ↑k.freelist + pt.pages ∧
        (r = 0 ∧ pt'.entry = mapRange pt.entry (va / pgSize) (size / pgSize) pa perm ∨
          r = -1 ∧ ∃ m < size / pgSize, pt'.entry = mapRange pt.entry (va / pgSize) m pa perm)) ∧
    ∀ pa : UInt64, pa.toNat % pgSize = 0 → pa.toNat < 2 ^ 56 → pte2pa (pa2pte pa) = pa := by
  refine ⟨fun va1 va2 below1 below2 => Slot.ofVa_eq_iff below1 below2, fun pt va k below => ?_,
    fun pt va k below => ?_, fun pt va size pa perm k aligned sized positive fits unmapped =>
      mappages_spec pt va size pa perm k aligned sized positive fits unmapped,
    fun pa aligned small => pte2pa_pa2pte pa aligned small⟩
  · rw [walk_lookup, if_neg (Nat.not_le.mpr below)]
    rfl
  · obtain ⟨pt', r, k', ran, entry, root, pages, -, -, found⟩ := walk_alloc pt k below
    exact ⟨pt', r, k', ran, entry, root, pages, found⟩

/-- Two pages mapped at address 0 of an empty table, with two pages free for the
page-table pages. -/
theorem mappages_two_pages :
    ∃ r pt' k', (mappages (PageTable.empty 0) 0 (2 * pgSize) 8192 { r := true, u := true }).run ⟨[4096, 12288], fun _ => 0⟩ =
        .ok ((r, pt'), k') ∧
      (r = 0 ∧ pt'.entry = mapRange (PageTable.empty 0).entry 0 2 8192 { r := true, u := true } ∨
        r = -1 ∧ ∃ m < 2, pt'.entry = mapRange (PageTable.empty 0).entry 0 m 8192 { r := true, u := true }) := by
  obtain ⟨-, -, -, maps, -⟩ := page_table_abstraction
  obtain ⟨r, pt', k', ran, -, -, result⟩ := maps (PageTable.empty 0) 0 (2 * pgSize) 8192 { r := true, u := true }
    ⟨[4096, 12288], fun _ => 0⟩ (by decide) (by decide) (by decide) (by decide) (fun _ _ => rfl)
  exact ⟨r, pt', k', ran, result⟩

/-- `mappages` panics on a size that is not a whole number of pages, and on a
range that reaches past `MAXVA`, after mapping the pages below it. -/
theorem mappages_past_maxva :
    (mappages (PageTable.empty 0) 0 1 8192 { r := true, u := true }).run ⟨[], fun _ => 0⟩ = .error "mappages: size not aligned" ∧
      (mappages (PageTable.empty 0) (maxVA - pgSize) (2 * pgSize) 8192 { r := true, u := true }).run
        ⟨[4096, 12288], fun _ => 0⟩ = .error "walk" :=
  ⟨rfl, rfl⟩

end Xv6.Vm
