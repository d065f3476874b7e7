import Xv6.Vm.Layout

/-!
Contract: `kernel/kalloc.c` and the user page-table code of `kernel/vm.c`:
`kalloc`, `kfree`, `walk`, `walkaddr`, `mappages`, `uvmunmap`, `uvmcreate`,
`uvmfirst`, `uvmalloc`, `uvmdealloc`, `freewalk`, `uvmfree`, `uvmcopy`, `uvmclear`,
`copyout`, `copyin` and `copyinstr`.

A page table is kept as `walk` reads it from its root: for each level-2 index the
level-1 page it names, if any; for each level-1 index under it the level-0 page,
if any; and the level-0 entries. A page `kalloc` hands out for a table is zeroed,
so a new level-1 page names no level-0 page and a new level-0 page holds no valid
entry. The code changes a table in memory; here each function returns the table
it leaves, also when it fails.

Physical memory is a byte for each address, beside the free list: `kalloc` and
`kfree` fill a page with junk, `uvmalloc` zeroes the pages it maps, `uvmcopy`
copies the parent's, `copyout` writes user bytes. The bytes of page-table pages
are those the table holds and are not read from memory. A kernel buffer that
`copyout` reads is given as its bytes, and what `copyin` and `copyinstr` write
into their buffer is returned.

Owns: `Kmem`, `KM`, `fill`, `store`, `load`, `memset`, `memmove`, `kalloc`,
`kfree`, `PageTable`, the functions above.

Does not own: the processes that own the tables (`Xv6.Vm.Proc`).
-/

namespace Xv6.Vm

/-- `kmem` without its lock, with the physical memory its pages are taken from:
the free pages, the next one to hand out first, and the byte at each address. -/
structure Kmem where
  freelist : List Nat
  mem : Nat → UInt8

/-- Memory code: it returns, or stops at a panic with its message. -/
abbrev KM := StateT Kmem (Except String)

/-- The bytes `[pa, pa + n)` set to `c`. -/
def fill (mem : Nat → UInt8) (pa n : Nat) (c : UInt8) : Nat → UInt8 :=
  fun a => if pa ≤ a ∧ a < pa + n then c else mem a

/-- `bytes` stored from `pa` on. -/
def store (mem : Nat → UInt8) (pa : Nat) (bytes : List UInt8) : Nat → UInt8 :=
  fun a => if pa ≤ a ∧ a < pa + bytes.length then bytes.getD (a - pa) 0 else mem a

/-- The `n` bytes from `pa` on. -/
def load (mem : Nat → UInt8) (pa n : Nat) : List UInt8 :=
  (List.range n).map fun i => mem (pa + i)

/-- `memset(pa, c, n)`. -/
def memset (pa : Nat) (c : UInt8) (n : Nat) : KM Unit :=
  modify fun k => { k with mem := fill k.mem pa n c }

/-- `memmove(dst, src, n)` within physical memory. -/
def memmove (dst src n : Nat) : KM Unit :=
  modify fun k => { k with mem := store k.mem dst (load k.mem src n) }

/-- `memmove(dst, src, n)` from a kernel buffer holding `bytes`. -/
def memmoveFrom (dst : Nat) (bytes : List UInt8) : KM Unit :=
  modify fun k => { k with mem := store k.mem dst bytes }

/- `end`, the first address after the kernel image, is fixed when the kernel is
linked: a parameter of every function that frees a page. -/
variable (kend : Nat)

/-- `kfree`: a page filled with junk and put back on the free list, at its head. -/
def kfree (pa : Nat) : KM Unit := do
  if pa % pgSize ≠ 0 ∨ pa < kend ∨ phyStop ≤ pa then throw "kfree"
  memset pa 1 pgSize
  modify fun k => { k with freelist := pa :: k.freelist }

/-- `kalloc`: the head of the free list, filled with junk; none (0) when the list
is empty. -/
def kalloc : KM (Option Nat) := do
  let k ← get
  match k.freelist with
  | [] => pure none
  | pa :: rest =>
    set { k with freelist := rest }
    memset pa 5 pgSize
    pure (some pa)

/-! ### Page tables -/

/-- A page table as `walk` reads it: its root page, the level-1 page each level-2
entry names, the level-0 page each level-1 entry names, and the level-0 entries. -/
structure PageTable where
  root : Nat
  dir : Fin 512 → Option Nat
  mid : Fin 512 → Fin 512 → Option Nat
  leaf : Slot → Pte

/-- A zeroed root page: no entry is valid. -/
def PageTable.empty (root : Nat) : PageTable :=
  ⟨root, fun _ => none, fun _ _ => none, fun _ => Pte.zero⟩

/-- Write the level-0 entry of slot `s`. -/
def PageTable.setLeaf (pt : PageTable) (s : Slot) (pte : Pte) : PageTable :=
  { pt with leaf := Function.update pt.leaf s pte }

/-- A new level-1 page `pa` for index `i2`. It is zeroed: it names no level-0 page. -/
def PageTable.addDir (pt : PageTable) (i2 : Fin 512) (pa : Nat) : PageTable :=
  { pt with dir := Function.update pt.dir i2 (some pa), mid := Function.update pt.mid i2 fun _ => none }

/-- A new level-0 page `pa` for `(i2, i1)`. It is zeroed: none of its entries is valid. -/
def PageTable.addMid (pt : PageTable) (i2 i1 : Fin 512) (pa : Nat) : PageTable :=
  { pt with mid := Function.update pt.mid i2 (Function.update (pt.mid i2) i1 (some pa)),
            leaf := fun s => if s.i2 = i2 ∧ s.i1 = i1 then Pte.zero else pt.leaf s }

/-- `walk` at level 2: the level-1 page of `i2`, a new one if there is none and
`alloc` is set; none if there is none to be had (nothing changed). -/
def walkDir (pt : PageTable) (i2 : Fin 512) (alloc : Bool) : KM (Option PageTable) := do
  match pt.dir i2 with
  | some _ => pure (some pt)
  | none =>
    if !alloc then return none
    let some pa ← kalloc | return none
    memset pa 0 pgSize
    pure (some (pt.addDir i2 pa))

/-- `walk` at level 1: the level-0 page of `(i2, i1)`, made as at level 2. -/
def walkMid (pt : PageTable) (i2 i1 : Fin 512) (alloc : Bool) : KM (Option PageTable) := do
  match pt.mid i2 i1 with
  | some _ => pure (some pt)
  | none =>
    if !alloc then return none
    let some pa ← kalloc | return none
    memset pa 0 pgSize
    pure (some (pt.addMid i2 i1 pa))

/-- `walk`: the slot of `va`'s level-0 entry, or none (0); the table with the
pages it made, also when it fails below them. -/
def walk (pt : PageTable) (va : Nat) (alloc : Bool) : KM (PageTable × Option Slot) := do
  if maxVA ≤ va then throw "walk"
  let some pt ← walkDir pt (px 2 va) alloc | return (pt, none)
  let some pt' ← walkMid pt (px 2 va) (px 1 va) alloc | return (pt, none)
  return (pt', some (Slot.ofVa va))

/-- `walkaddr`: the page a user address maps to, 0 unless mapped with `PTE_U`. -/
def walkaddr (pt : PageTable) (va : Nat) : KM Nat := do
  if maxVA ≤ va then return 0
  let (_, some s) ← walk pt va false | return 0
  let pte := pt.leaf s
  if !pte.v then return 0
  if !pte.u then return 0
  return pte.pa

/-- `mappages`' loop: `n` pages from `a`, to physical pages from `pa` on. -/
def mappagesLoop (perm : Perm) : PageTable → Nat → Nat → Nat → KM (Int × PageTable)
  | pt, _, _, 0 => pure (0, pt)
  | pt, a, pa, n + 1 => do
    let (pt, found) ← walk pt a true
    -- the table keeps the pages `walk` made, also when it fails
    let some s := found | return (-1, pt)
    if (pt.leaf s).v then throw "mappages: remap"
    mappagesLoop perm (pt.setLeaf s (Pte.leaf pa perm)) (a + pgSize) (pa + pgSize) n

/-- `mappages`: 0, or -1 when `walk` cannot make a page-table page. -/
def mappages (pt : PageTable) (va size pa : Nat) (perm : Perm) : KM (Int × PageTable) := do
  if va % pgSize ≠ 0 then throw "mappages: va not aligned"
  if size % pgSize ≠ 0 then throw "mappages: size not aligned"
  if size = 0 then throw "mappages: size"
  mappagesLoop perm pt va pa (size / pgSize)

/-- `uvmunmap`'s loop: `n` mapped pages from `a` unmapped, freed if `doFree`. -/
def uvmunmapLoop (doFree : Bool) : PageTable → Nat → Nat → KM PageTable
  | pt, _, 0 => pure pt
  | pt, a, n + 1 => do
    let (pt, some s) ← walk pt a false | throw "uvmunmap: walk"
    let pte := pt.leaf s
    if !pte.v then throw "uvmunmap: not mapped"
    -- `PTE_FLAGS(*pte) == PTE_V`
    if pte.flags = {} then throw "uvmunmap: not a leaf"
    if doFree then kfree kend pte.pa
    uvmunmapLoop doFree (pt.setLeaf s Pte.zero) (a + pgSize) n

/-- `uvmunmap`. -/
def uvmunmap (pt : PageTable) (va npages : Nat) (doFree : Bool) : KM PageTable := do
  if va % pgSize ≠ 0 then throw "uvmunmap: not aligned"
  uvmunmapLoop kend doFree pt va npages

/-- `uvmcreate`: an empty table, or none when no page is left. -/
def uvmcreate : KM (Option PageTable) := do
  let some pa ← kalloc | return none
  memset pa 0 pgSize
  pure (some (PageTable.empty pa))

/-- `uvmfirst`: the first process's page at address 0, holding `src`. The code does
not check `kalloc` here (it runs at boot): with no page left it zeroes address 0,
a fault that `kerneltrap` turns into a panic. -/
def uvmfirst (pt : PageTable) (src : List UInt8) : KM PageTable := do
  if pgSize ≤ src.length then throw "uvmfirst: more than a page"
  let some mem ← kalloc | throw "kerneltrap"
  memset mem 0 pgSize
  let (_, pt) ← mappages pt 0 pgSize mem { w := true, r := true, x := true, u := true }
  memmoveFrom mem src
  pure pt

/-- `uvmdealloc`: shrink from `oldsz` to `newsz`, freeing the pages past it. -/
def uvmdealloc (pt : PageTable) (oldsz newsz : Nat) : KM (Nat × PageTable) := do
  if oldsz ≤ newsz then return (oldsz, pt)
  if pgRoundUp newsz < pgRoundUp oldsz then
    let npages := (pgRoundUp oldsz - pgRoundUp newsz) / pgSize
    let pt ← uvmunmap kend pt (pgRoundUp newsz) npages true
    return (newsz, pt)
  return (newsz, pt)

/-- `uvmalloc`'s loop from page `a`: each page a new zeroed one, mapped with
`PTE_R | PTE_U | xperm`; on a failure what this call mapped is given back and the
result is 0. -/
def uvmallocLoop (xperm : Perm) (oldsz newsz : Nat) : PageTable → Nat → Nat → KM (Nat × PageTable)
  | pt, _, 0 => pure (newsz, pt)
  | pt, a, fuel + 1 => do
    if newsz ≤ a then return (newsz, pt)
    let some mem ← kalloc | (do
      let (_, pt) ← uvmdealloc kend pt a oldsz
      return (0, pt))
    memset mem 0 pgSize
    let (r, pt) ← mappages pt a pgSize mem { xperm with r := true, u := true }
    if r ≠ 0 then
      kfree kend mem
      let (_, pt) ← uvmdealloc kend pt a oldsz
      return (0, pt)
    uvmallocLoop xperm oldsz newsz pt (a + pgSize) fuel

/-- `uvmalloc`: grow from `oldsz` to `newsz`; the new size, or 0. -/
def uvmalloc (pt : PageTable) (oldsz newsz : Nat) (xperm : Perm) : KM (Nat × PageTable) := do
  if newsz < oldsz then return (oldsz, pt)
  let oldsz := pgRoundUp oldsz
  uvmallocLoop kend xperm oldsz newsz pt oldsz ((newsz - oldsz + pgSize - 1) / pgSize)

/-- `freewalk` of the level-0 page of `(i2, i1)`: an entry still valid is a leaf,
and a panic (every level-0 entry the code writes has `PTE_R`, so none is taken
for a table); then the page is freed. -/
def freewalkLeaves (pt : PageTable) (i2 i1 : Fin 512) (pa : Nat) : KM Unit := do
  if (List.finRange 512).any fun i0 => (pt.leaf ⟨i2, i1, i0⟩).v then throw "freewalk: leaf"
  kfree kend pa

/-- `freewalk` of the level-1 page of `i2`: the level-0 pages it names, then itself. -/
def freewalkMid (pt : PageTable) (i2 : Fin 512) (pa : Nat) : KM Unit := do
  (List.finRange 512).forM fun i1 =>
    match pt.mid i2 i1 with
    | some child => freewalkLeaves kend pt i2 i1 child
    | none => pure ()
  kfree kend pa

/-- `freewalk`: every page-table page, depth first, the root last. -/
def freewalk (pt : PageTable) : KM Unit := do
  (List.finRange 512).forM fun i2 =>
    match pt.dir i2 with
    | some child => freewalkMid kend pt i2 child
    | none => pure ()
  kfree kend pt.root

/-- `uvmfree`: the user pages below `sz`, then the table. -/
def uvmfree (pt : PageTable) (sz : Nat) : KM Unit := do
  let pt ← if 0 < sz then uvmunmap kend pt 0 (pgRoundUp sz / pgSize) true else pure pt
  freewalk kend pt

/-- `uvmcopy`'s `err:` path: unmap and free the `i / PGSIZE` pages copied. -/
def uvmcopyErr (new : PageTable) (i : Nat) : KM (Int × PageTable) := do
  let new ← uvmunmap kend new 0 (i / pgSize) true
  return (-1, new)

/-- `uvmcopy`'s loop from address `i`: each page of `old` below `sz` copied to a
new page, mapped in `new` with the same flags. -/
def uvmcopyLoop (old : PageTable) (sz : Nat) : PageTable → Nat → Nat → KM (Int × PageTable)
  | new, _, 0 => pure (0, new)
  | new, i, fuel + 1 => do
    if sz ≤ i then return (0, new)
    let (_, some s) ← walk old i false | throw "uvmcopy: pte should exist"
    let pte := old.leaf s
    if !pte.v then throw "uvmcopy: page not present"
    let some mem ← kalloc | uvmcopyErr kend new i
    memmove mem pte.pa pgSize
    let (r, new) ← mappages new i pgSize mem pte.flags
    if r ≠ 0 then
      kfree kend mem
      return ← uvmcopyErr kend new i
    uvmcopyLoop old sz new (i + pgSize) fuel

/-- `uvmcopy`: 0, or -1 with what it mapped freed. -/
def uvmcopy (old new : PageTable) (sz : Nat) : KM (Int × PageTable) :=
  uvmcopyLoop kend old sz new 0 ((sz + pgSize - 1) / pgSize)

/-- `uvmclear`: the entry of `va` loses `PTE_U`. -/
def uvmclear (pt : PageTable) (va : Nat) : KM PageTable := do
  let (pt, some s) ← walk pt va false | throw "uvmclear"
  pure (pt.setLeaf s { pt.leaf s with u := false })

/-- `copyout`'s loop over the pages the bytes `src` go to from `dstva`: -1 at a
page not mapped with `PTE_U` and `PTE_W`. -/
def copyoutLoop (pt : PageTable) : Nat → List UInt8 → Nat → KM Int
  | _, _, 0 => pure 0
  | dstva, src, fuel + 1 => do
    if src.length = 0 then return 0
    let va0 := dstva / pgSize * pgSize
    if maxVA ≤ va0 then return -1
    let (_, some s) ← walk pt va0 false | return -1
    let pte := pt.leaf s
    if !pte.v ∨ !pte.u ∨ !pte.w then return -1
    let n := min (pgSize - (dstva - va0)) src.length
    memmoveFrom (pte.pa + (dstva - va0)) (src.take n)
    copyoutLoop pt (va0 + pgSize) (src.drop n) fuel

/-- `copyout` of the kernel bytes `src` to `dstva`: 0, or -1. -/
def copyout (pt : PageTable) (dstva : Nat) (src : List UInt8) : KM Int :=
  copyoutLoop pt dstva src (src.length + 1)

/-- `copyin`'s loop over the pages of `len` bytes from `srcva`: the result and
the bytes copied into the buffer. -/
def copyinLoop (pt : PageTable) : Nat → Nat → Nat → KM (Int × List UInt8)
  | _, _, 0 => pure (0, [])
  | srcva, len, fuel + 1 => do
    if len = 0 then return (0, [])
    let va0 := srcva / pgSize * pgSize
    let pa0 ← walkaddr pt va0
    if pa0 = 0 then return (-1, [])
    let n := min (pgSize - (srcva - va0)) len
    let bytes := load (← get).mem (pa0 + (srcva - va0)) n
    let (r, rest) ← copyinLoop pt (va0 + pgSize) (len - n) fuel
    return (r, bytes ++ rest)

/-- `copyin` of `len` bytes from `srcva`: 0, or -1; with what it wrote into `dst`. -/
def copyin (pt : PageTable) (srcva len : Nat) : KM (Int × List UInt8) :=
  copyinLoop pt srcva len (len + 1)

/-- `copyinstr`'s inner loop over `n` bytes from `p`: the bytes copied and whether
it met the NUL, which is copied too. -/
def copyinstrPage (mem : Nat → UInt8) (p : Nat) : Nat → List UInt8 × Bool
  | 0 => ([], false)
  | n + 1 =>
    if mem p = 0 then ([0], true)
    else
      let (rest, gotNull) := copyinstrPage mem (p + 1) n
      (mem p :: rest, gotNull)

/-- `copyinstr`'s loop from `srcva` with at most `max` bytes left: the result and
the bytes copied into the buffer. -/
def copyinstrLoop (pt : PageTable) : Nat → Nat → Nat → KM (Int × List UInt8)
  | _, _, 0 => pure (-1, [])
  | srcva, max, fuel + 1 => do
    if max = 0 then return (-1, [])
    let va0 := srcva / pgSize * pgSize
    let pa0 ← walkaddr pt va0
    if pa0 = 0 then return (-1, [])
    let n := min (pgSize - (srcva - va0)) max
    let (bytes, gotNull) := copyinstrPage (← get).mem (pa0 + (srcva - va0)) n
    if gotNull then return (0, bytes)
    let (r, rest) ← copyinstrLoop pt (va0 + pgSize) (max - n) fuel
    return (r, bytes ++ rest)

/-- `copyinstr` of a string of at most `max` bytes from `srcva`: 0, or -1; with
what it wrote into `dst`. -/
def copyinstr (pt : PageTable) (srcva max : Nat) : KM (Int × List UInt8) :=
  copyinstrLoop pt srcva max (max + 1)

end Xv6.Vm
