import Xv6.Virtio.Disk

/-!
Contract: the descriptor bookkeeping of `kernel/virtio_disk.c` over every
interleaving of `virtio_disk_rw`, `virtio_disk_intr` and the device.

`Inv` says where every descriptor is: free, or in exactly one waiting process's
chain (`nodup`, `free`), a chain of three as `virtio_disk_rw` formatted it
(`chained`); and where every request is: the heads in the used ring from
`used_idx`, those the device holds, and those in the avail ring from the
device's position are, each once, the heads of the waiting processes whose
`b->disk` is still 1 (`pending`). The 16-bit counters are each the length of a
history modulo 2^16 (`slot_eq`: `NUM` divides 2^16, so `idx % NUM` survives the
wrap).

`Inv.outcome` is the step lemma: from a state with `Inv`, each event either
cannot happen or happens without a panic and keeps `Inv`. `Reachable.inv` is the
run lemma.

Owns: `World.owned`, `World.pending`, `dataFlags`, `Chained`, `completed`, `Inv`, `Inv.outcome`,
`Reachable.inv`.
-/

namespace Xv6.Virtio

/-! ### 16-bit counters -/

/-- A counter's entry is that of the position it counts: `NUM` divides 2^16. -/
theorem slot_eq {n : UInt16} {k : Nat} (counts : n.toNat = k % 2 ^ 16) : slot n = Ring.cell num k := by
  apply Fin.ext
  simp only [slot, Ring.cell, counts, num]
  omega

theorem counter_succ {n : UInt16} {k : Nat} (counts : n.toNat = k % 2 ^ 16) : (n + 1).toNat = (k + 1) % 2 ^ 16 := by
  rw [UInt16.toNat_add, counts, UInt16.toNat_one]
  omega

/-- Two counters that differ count positions that differ. -/
theorem lt_of_counter_ne {n m : UInt16} {a c : Nat} (na : n.toNat = a % 2 ^ 16) (mc : m.toNat = c % 2 ^ 16)
    (le : a ≤ c) (apart : n ≠ m) : a < c := by
  rcases Nat.lt_or_eq_of_le le with lt | rfl
  · exact lt
  · exact absurd (UInt16.toNat_inj.mp (na.trans mc.symm)) apart

/-- The distance between two counters, fewer than 2^16 apart. -/
theorem counter_sub {n m : UInt16} {a c : Nat} (na : n.toNat = a % 2 ^ 16) (mc : m.toNat = c % 2 ^ 16)
    (le : a ≤ c) (near : c - a < 2 ^ 16) : (m - n).toNat = c - a := by
  rw [UInt16.toNat_sub, na, mc]
  have := Nat.div_add_mod a (2 ^ 16)
  have := Nat.div_add_mod c (2 ^ 16)
  omega

theorem counter_add {n : UInt16} {a : Nat} (na : n.toNat = a % 2 ^ 16) (k : Nat) :
    (n + UInt16.ofNat k).toNat = (a + k) % 2 ^ 16 := by
  rw [UInt16.toNat_add, na, UInt16.toNat_ofNat']
  omega

/-- A descriptor index as a 16-bit `next` field or ring entry, and back. -/
@[simp]
theorem toNat_ofNat_index (i : Fin num) : (UInt16.ofNat i).toNat = i := by
  rw [UInt16.toNat_ofNat']
  have := i.isLt
  simp only [num] at this
  omega

@[simp]
theorem toUInt32_ofNat_index (i : Fin num) : (UInt16.ofNat i).toUInt32 = UInt32.ofNat i := by
  apply UInt32.toNat_inj.mp
  rw [UInt16.toNat_toUInt32, toNat_ofNat_index, UInt32.toNat_ofNat']
  have := i.isLt
  simp only [num] at this
  omega

@[simp]
theorem toNat_ofNat32_index (i : Fin num) : (UInt32.ofNat i).toNat = i := by
  rw [UInt32.toNat_ofNat']
  have := i.isLt
  simp only [num] at this
  omega

/-! ### Chains -/

/-- The descriptors of the waiting processes' chains. -/
def World.owned (w : World) : List (Fin num) :=
  w.waiters.flatMap (·.idx)

/-- The flags `virtio_disk_rw` gives the data descriptor. -/
def dataFlags (write : Bool) : UInt16 :=
  (if write then 0 else vringDescFWrite) ||| vringDescFNext

/-- `r`'s chain as `virtio_disk_rw` formatted it, and `info` at its head. -/
def Chained (d : Disk) (r : Waiter) : Prop :=
  ∃ i0 i1 i2, r.idx = [i0, i1, i2] ∧
    d.desc i0 = ⟨.op i0, blkReqSize, vringDescFNext, UInt16.ofNat i1⟩ ∧
    d.desc i1 = ⟨.data r.b, bSize, dataFlags r.write, UInt16.ofNat i2⟩ ∧
    d.desc i2 = ⟨.status i0, 1, vringDescFWrite, 0⟩ ∧
    (d.info i0).b = some r.b

theorem Chained.head {r : Waiter} {i0 i1 i2 : Fin num} (idx : r.idx = [i0, i1, i2]) : r.head = i0 := by
  simp [Waiter.head, idx]

/-- A chain stays as it was where its descriptors and its `info` entry do. -/
theorem Chained.frame {d d' : Disk} {r : Waiter} (chained : Chained d r)
    (desc : ∀ j ∈ r.idx, d'.desc j = d.desc j) (info : (d'.info r.head).b = (d.info r.head).b) :
    Chained d' r := by
  obtain ⟨i0, i1, i2, idx, desc0, desc1, desc2, info0⟩ := chained
  rw [Chained.head idx] at info
  exact ⟨i0, i1, i2, idx, by rw [desc i0 (by simp [idx]), desc0], by rw [desc i1 (by simp [idx]), desc1],
    by rw [desc i2 (by simp [idx]), desc2], by rw [info, info0]⟩

/-- A descriptor with `VRING_DESC_F_NEXT` links to the one its `next` names. -/
theorem next?_eq {d : Disk} {i j : Fin num} (link : (d.desc i).flags &&& vringDescFNext ≠ 0)
    (next : (d.desc i).next = UInt16.ofNat j) : d.next? i = some j := by
  have fits : (d.desc i).next.toNat < num := by
    rw [next, toNat_ofNat_index]
    exact j.isLt
  rw [Disk.next?, if_pos link, dif_pos fits]
  exact congrArg some (Fin.ext (by simp only [next, toNat_ofNat_index]))

/-- The links the device and `free_chain` follow. -/
theorem Chained.links {d : Disk} {r : Waiter} {i0 i1 i2 : Fin num} (chained : Chained d r)
    (idx : r.idx = [i0, i1, i2]) :
    d.next? i0 = some i1 ∧ d.next? i1 = some i2 ∧ (d.desc i2).flags &&& vringDescFNext = 0 ∧
      (d.desc i2).addr = .status i0 := by
  obtain ⟨j0, j1, j2, idx', desc0, desc1, desc2, -⟩ := chained
  rw [idx] at idx'
  simp only [List.cons.injEq, and_true] at idx'
  obtain ⟨rfl, rfl, rfl⟩ := idx'
  have flags1 : dataFlags r.write &&& vringDescFNext ≠ 0 := by
    cases r.write <;> decide
  refine ⟨next?_eq (by rw [desc0]; exact (by decide : vringDescFNext &&& vringDescFNext ≠ 0)) (by rw [desc0]), next?_eq (by rw [desc1]; exact flags1) (by rw [desc1]),
    by rw [desc2]; exact (by decide : vringDescFWrite &&& vringDescFNext = 0), by rw [desc2]⟩

/-- The device finds the status byte of a chain at `info` of its head. -/
theorem Chained.statusAt {d : Disk} {r : Waiter} (chained : Chained d r) : d.statusAt r.head = some r.head := by
  obtain ⟨i0, i1, i2, idx, -⟩ := id chained
  obtain ⟨next0, next1, last, addr⟩ := chained.links idx
  rw [Chained.head idx, Disk.statusAt, next0]
  simp only [next1, last, ne_eq, not_true_eq_false, if_false, addr]

/-! ### The invariant -/

/-- The heads of the requests not finished: in the used ring from `used_idx`, at
the device, and in the avail ring from the device's position. -/
def World.pending (w : World) : List (Fin num) :=
  w.done.drop w.seen ++ w.processing ++ w.heads.drop w.taken

/-- The bookkeeping of a reachable state. -/
structure Inv (w : World) : Prop where
  nodup : w.owned.Nodup
  free : ∀ i, w.disk.free i = true ↔ i ∉ w.owned
  chained : ∀ r ∈ w.waiters, Chained w.disk r
  bufs : (w.waiters.map (·.b)).Nodup
  idle : ∀ b, w.bufDisk b = true → b ∈ w.waiters.map (·.b)
  availIdx : w.disk.avail.idx.toNat = w.heads.length % 2 ^ 16
  last : w.last.toNat = w.taken % 2 ^ 16
  usedRingIdx : w.disk.used.idx.toNat = w.done.length % 2 ^ 16
  usedIdx : w.disk.usedIdx.toNat = w.seen % 2 ^ 16
  seen_le : w.seen ≤ w.done.length
  taken_le : w.taken ≤ w.heads.length
  avail : Ring.Mirrors w.disk.avail.ring (w.heads.map fun (i : Fin num) => UInt16.ofNat i) w.taken
  used : Ring.Mirrors w.disk.used.ring (w.done.map fun (i : Fin num) => UInt32.ofNat i) w.seen
  pending_nodup : w.pending.Nodup
  pending : ∀ i, i ∈ w.pending ↔ ∃ r ∈ w.waiters, r.head = i ∧ w.bufDisk r.b = true
  status : ∀ i ∈ w.done.drop w.seen, (w.disk.info i).status = 0

theorem inv_init : Inv init := by
  refine ⟨by simp [World.owned, init], by simp [World.owned, init], by simp [init], by simp [init],
    by simp [init], by simp [init], by simp [init], by simp [init], by simp [init], le_rfl, le_rfl,
    ?_, ?_, by simp [World.pending, init], by simp [World.pending, init], by simp [init]⟩
  · intro k lt
    simp [init] at lt
  · intro k lt
    simp [init] at lt

section Inv

variable {w : World}

theorem Inv.waiters_nodup (inv : Inv w) : w.waiters.Nodup :=
  List.Nodup.of_map _ inv.bufs

theorem Inv.length_idx (inv : Inv w) {r : Waiter} (mem : r ∈ w.waiters) : r.idx.length = 3 := by
  obtain ⟨_, _, _, idx, -⟩ := inv.chained r mem
  simp [idx]

theorem length_flatMap_idx : ∀ {l : List Waiter}, (∀ r ∈ l, r.idx.length = 3) →
    (l.flatMap (·.idx)).length = 3 * l.length
  | [], _ => rfl
  | r :: rs, each => by
    rw [List.flatMap_cons, List.length_append, each r List.mem_cons_self,
      length_flatMap_idx fun r' mem => each r' (List.mem_cons_of_mem r mem), List.length_cons]
    ring

/-- Three descriptors each, no two alike, out of eight: at most two processes wait. -/
theorem Inv.waiters_length_le (inv : Inv w) : w.waiters.length ≤ 2 := by
  have owned : w.owned.length = 3 * w.waiters.length := length_flatMap_idx fun r mem => inv.length_idx mem
  have bound := inv.nodup.length_le_card
  rw [owned, Fintype.card_fin] at bound
  simp only [num] at bound
  omega

theorem Inv.head_mem_idx (inv : Inv w) {r : Waiter} (mem : r ∈ w.waiters) : r.head ∈ r.idx := by
  obtain ⟨i0, _, _, idx, -⟩ := inv.chained r mem
  simp [Chained.head idx, idx]

/-- The head of a waiting process is one of its descriptors, so in use. -/
theorem Inv.head_mem_owned (inv : Inv w) {r : Waiter} (mem : r ∈ w.waiters) : r.head ∈ w.owned :=
  List.mem_flatMap.mpr ⟨r, mem, inv.head_mem_idx mem⟩

theorem Inv.busy_of_owned (inv : Inv w) {i : Fin num} (mem : i ∈ w.owned) : w.disk.free i = false := by
  cases isFree : w.disk.free i with
  | false => rfl
  | true => exact absurd mem ((inv.free i).mp isFree)

/-- The chains of the processes other than `r`: those of `w.owned` outside `r`'s. -/
theorem Inv.owned_erase (inv : Inv w) {r : Waiter} (mem : r ∈ w.waiters) :
    ((w.waiters.erase r).flatMap (·.idx)).Nodup ∧
      ∀ j, j ∈ (w.waiters.erase r).flatMap (·.idx) ↔ j ∈ w.owned ∧ j ∉ r.idx := by
  have perm : w.owned.Perm (r.idx ++ (w.waiters.erase r).flatMap (·.idx)) := by
    have := (List.perm_cons_erase mem).flatMap_right (·.idx)
    rwa [List.flatMap_cons] at this
  have split := List.nodup_append.mp (perm.nodup_iff.mp inv.nodup)
  refine ⟨split.2.1, fun j => ⟨fun inRest => ⟨perm.mem_iff.mpr (List.mem_append_right _ inRest),
    fun inChain => split.2.2 j inChain j inRest rfl⟩, fun ⟨inOwned, notChain⟩ => ?_⟩⟩
  rcases List.mem_append.mp (perm.mem_iff.mp inOwned) with inChain | inRest
  · exact absurd inChain notChain
  · exact inRest

/-- A descriptor in the chain of a waiting process other than `r` is not in `r`'s. -/
theorem Inv.apart (inv : Inv w) {r r' : Waiter} (mem : r ∈ w.waiters) (mem' : r' ∈ w.waiters) (other : r' ≠ r)
    {j : Fin num} (inChain : j ∈ r'.idx) : j ∉ r.idx := by
  have inRest : j ∈ (w.waiters.erase r).flatMap (·.idx) :=
    List.mem_flatMap.mpr ⟨r', inv.waiters_nodup.mem_erase_iff.mpr ⟨other, mem'⟩, inChain⟩
  exact (((inv.owned_erase mem).2 j).mp inRest).2

/-- No two waiting processes have one head. -/
theorem Inv.head_inj (inv : Inv w) {r r' : Waiter} (mem : r ∈ w.waiters) (mem' : r' ∈ w.waiters)
    (same : r'.head = r.head) : r' = r := by
  by_contra other
  exact inv.apart mem mem' other (inv.head_mem_idx mem') (same ▸ inv.head_mem_idx mem)

/-- Distinct waiting processes have distinct buffers. -/
theorem Inv.buf_ne (inv : Inv w) {r r' : Waiter} (mem : r ∈ w.waiters) (mem' : r' ∈ w.waiters) (apart : r' ≠ r) :
    r'.b ≠ r.b :=
  fun same => apart (List.inj_on_of_nodup_map inv.bufs mem' mem same)

/-- A head whose request is not finished is the head of a waiting process. -/
theorem Inv.waiter_of_pending (inv : Inv w) {i : Fin num} (mem : i ∈ w.pending) :
    ∃ r ∈ w.waiters, r.head = i ∧ w.bufDisk r.b = true :=
  (inv.pending i).mp mem

theorem Inv.owned_of_pending (inv : Inv w) {i : Fin num} (mem : i ∈ w.pending) : i ∈ w.owned := by
  obtain ⟨r, inWaiters, rfl, -⟩ := inv.waiter_of_pending mem
  exact inv.head_mem_owned inWaiters

/-- At most two requests are not finished, wherever they are. -/
theorem Inv.room (inv : Inv w) :
    w.done.length - w.seen + w.processing.length + (w.heads.length - w.taken) ≤ 2 := by
  have sub : w.pending ⊆ w.waiters.map Waiter.head := by
    intro i mem
    obtain ⟨r, inWaiters, rfl, -⟩ := inv.waiter_of_pending mem
    exact List.mem_map_of_mem inWaiters
  have le := (List.subperm_of_subset inv.pending_nodup sub).length_le
  have bound := inv.waiters_length_le
  simp only [World.pending, List.length_append, List.length_drop, List.length_map] at le
  omega

end Inv

/-! ### `virtio_disk_rw`: three descriptors and a request -/

section Submit

variable (d : Disk) (b blockno : Nat) (write : Bool) {i0 i1 i2 : Fin num}

theorem rwSubmit_free : (rwSubmit d b blockno write [i0, i1, i2]).free = d.free := rfl

theorem rwSubmit_used : (rwSubmit d b blockno write [i0, i1, i2]).used = d.used := rfl

theorem rwSubmit_usedIdx : (rwSubmit d b blockno write [i0, i1, i2]).usedIdx = d.usedIdx := rfl

theorem rwSubmit_avail : (rwSubmit d b blockno write [i0, i1, i2]).avail =
    ⟨d.avail.idx + 1, Function.update d.avail.ring (slot d.avail.idx) (UInt16.ofNat i0)⟩ := rfl

theorem rwSubmit_desc_of_not_mem {j : Fin num} (out : j ∉ [i0, i1, i2]) :
    (rwSubmit d b blockno write [i0, i1, i2]).desc j = d.desc j := by
  simp only [List.mem_cons, List.not_mem_nil, or_false, not_or] at out
  simp [rwSubmit, Function.update_of_ne out.1, Function.update_of_ne out.2.1, Function.update_of_ne out.2.2]

theorem rwSubmit_info_of_ne {j : Fin num} (other : j ≠ i0) :
    (rwSubmit d b blockno write [i0, i1, i2]).info j = d.info j := by
  simp [rwSubmit, Function.update_of_ne other]

/-- The chain `virtio_disk_rw` formats is a chain. -/
theorem rwSubmit_chained (distinct : [i0, i1, i2].Nodup) :
    Chained (rwSubmit d b blockno write [i0, i1, i2]) ⟨b, write, [i0, i1, i2]⟩ := by
  simp only [List.nodup_cons, List.mem_cons, not_or, List.not_mem_nil, not_false_eq_true,
    List.nodup_nil, and_true] at distinct
  obtain ⟨⟨ne01, ne02⟩, ne12⟩ := distinct
  refine ⟨i0, i1, i2, rfl, ?_, ?_, ?_, ?_⟩
  · simp [rwSubmit, Function.update_of_ne ne01, Function.update_of_ne ne02]
  · simp [rwSubmit, Function.update_of_ne ne12, dataFlags]
  · simp [rwSubmit]
  · simp [rwSubmit]

end Submit

section Events

variable {w : World}

/-- **Submit.** Three distinct free descriptors taken, the chain formatted and its
head in the avail ring: the request joins the waiting ones. -/
theorem Inv.submit (inv : Inv w) {b blockno : Nat} {write : Bool} {i0 i1 i2 : Fin num}
    (fresh : b ∉ w.waiters.map (·.b)) (distinct : [i0, i1, i2].Nodup)
    (wereFree : ∀ j ∈ [i0, i1, i2], w.disk.free j = true) :
    Inv { w with disk := rwSubmit ([i0, i1, i2].foldl Disk.take w.disk) b blockno write [i0, i1, i2],
                 bufDisk := Function.update w.bufDisk b true, waiters := w.waiters ++ [⟨b, write, [i0, i1, i2]⟩],
                 heads := w.heads ++ [i0] } := by
  have notOwned : ∀ j ∈ [i0, i1, i2], j ∉ w.owned := fun j mem => (inv.free j).mp (wereFree j mem)
  have headNe : ∀ r ∈ w.waiters, r.head ≠ i0 :=
    fun r mem same => notOwned i0 (by simp) (same ▸ inv.head_mem_owned mem)
  have owned : (w.waiters ++ [(⟨b, write, [i0, i1, i2]⟩ : Waiter)]).flatMap (·.idx) = w.owned ++ [i0, i1, i2] := by
    simp [World.owned]
  have otherBuf : ∀ r ∈ w.waiters, r.b ≠ b := fun r mem same => fresh (same ▸ List.mem_map_of_mem mem)
  -- the new head goes to the end of the avail ring, after what is pending
  have pending : w.done.drop w.seen ++ w.processing ++ (w.heads ++ [i0]).drop w.taken = w.pending ++ [i0] := by
    rw [List.drop_append_of_le_length inv.taken_le, World.pending]
    simp only [List.append_assoc]
  have room := inv.room
  rw [foldl_take]
  constructor <;> try dsimp only
  · rw [World.owned, owned]
    exact List.nodup_append.mpr ⟨inv.nodup, distinct, fun j old k new same => notOwned k new (same ▸ old)⟩
  · intro j
    rw [World.owned, rwSubmit_free, owned, List.mem_append]
    simp [inv.free j]
  · intro r mem
    rcases List.mem_append.mp mem with old | new
    · apply Chained.frame (inv.chained r old)
      · intro j inChain
        have inUse : j ∈ w.owned := List.mem_flatMap.mpr ⟨r, old, inChain⟩
        rw [rwSubmit_desc_of_not_mem _ _ _ _ fun new => notOwned j new inUse]
      · rw [rwSubmit_info_of_ne _ _ _ _ (headNe r old)]
    · rw [List.mem_singleton.mp new]
      exact rwSubmit_chained _ _ _ _ distinct
  · rw [List.map_append]
    exact List.nodup_append.mpr ⟨inv.bufs, by simp, fun c old c' new same => fresh (by simp_all)⟩
  · intro c set
    by_cases same : c = b
    · simp [same]
    · rw [Function.update_of_ne same] at set
      simpa using Or.inl (inv.idle c set)
  · rw [rwSubmit_avail, List.length_append, List.length_singleton]
    exact counter_succ inv.availIdx
  · exact inv.last
  · exact inv.usedRingIdx
  · exact inv.usedIdx
  · exact inv.seen_le
  · simp only [List.length_append, List.length_singleton]
    exact Nat.le_succ_of_le inv.taken_le
  · rw [rwSubmit_avail]
    dsimp only
    rw [List.map_append, List.map_singleton, slot_eq inv.availIdx]
    have fits : (w.heads.map fun (i : Fin num) => UInt16.ofNat i).length < w.taken + num := by
      have eight : num = 8 := rfl
      rw [List.length_map]
      omega
    have pushed := inv.avail.push fits (UInt16.ofNat i0)
    rwa [List.length_map] at pushed
  · exact inv.used
  · simp only [World.pending]
    rw [pending]
    exact List.nodup_append.mpr ⟨inv.pending_nodup, List.nodup_singleton i0,
      fun j old k new same => notOwned k (by simp [List.mem_singleton.mp new]) (same ▸ inv.owned_of_pending old)⟩
  · intro i
    simp only [World.pending]
    rw [pending, List.mem_append, List.mem_singleton]
    constructor
    · rintro (old | rfl)
      · obtain ⟨r, mem, head, busy⟩ := inv.waiter_of_pending old
        exact ⟨r, List.mem_append_left _ mem, head, by rw [Function.update_of_ne (otherBuf r mem)]; exact busy⟩
      · exact ⟨_, List.mem_append_right _ (List.mem_singleton_self _), by simp [Waiter.head], by simp⟩
    · rintro ⟨r, mem, rfl, busy⟩
      rcases List.mem_append.mp mem with old | new
      · rw [Function.update_of_ne (otherBuf r old)] at busy
        exact .inl ((inv.pending _).mpr ⟨r, old, rfl, busy⟩)
      · rw [List.mem_singleton.mp new]
        exact .inr (by simp [Waiter.head])
  · intro i mem
    have other : i ≠ i0 := fun same =>
      notOwned i0 (by simp) (same ▸ inv.owned_of_pending (by simp [World.pending, mem]))
    rw [rwSubmit_info_of_ne _ _ _ _ other]
    exact inv.status i mem

/-- **No three free.** `alloc3_desc` gave back what it took, so only the contents
of free descriptors changed. -/
theorem Inv.rollback (inv : Inv w) {d : Disk} (same : d = { w.disk with desc := d.desc })
    (kept : ∀ j, w.disk.free j = false → d.desc j = w.disk.desc j) : Inv { w with disk := d } := by
  have free : d.free = w.disk.free := by rw [same]
  have info : d.info = w.disk.info := by rw [same]
  have avail : d.avail = w.disk.avail := by rw [same]
  have used : d.used = w.disk.used := by rw [same]
  have usedIdx : d.usedIdx = w.disk.usedIdx := by rw [same]
  constructor <;> try dsimp only
  · exact inv.nodup
  · rw [free]
    exact inv.free
  · intro r mem
    apply Chained.frame (inv.chained r mem)
    · intro j inChain
      exact kept j (inv.busy_of_owned (List.mem_flatMap.mpr ⟨r, mem, inChain⟩))
    · rw [info]
  · exact inv.bufs
  · exact inv.idle
  · rw [avail]
    exact inv.availIdx
  · exact inv.last
  · rw [used]
    exact inv.usedRingIdx
  · rw [usedIdx]
    exact inv.usedIdx
  · exact inv.seen_le
  · exact inv.taken_le
  · rw [avail]
    exact inv.avail
  · rw [used]
    exact inv.used
  · exact inv.pending_nodup
  · exact inv.pending
  · rw [info]
    exact inv.status

/-- **Release.** The process of `r`, woken with `b->disk` at 0, clears `info[idx[0]].b`
and frees its chain: it leaves the waiting ones. -/
theorem Inv.release (inv : Inv w) {r : Waiter} (mem : r ∈ w.waiters) (done : w.bufDisk r.b = false) :
    Inv { w with disk := r.idx.foldl Disk.give
                   { w.disk with info := Function.update w.disk.info r.head { w.disk.info r.head with b := none } },
                 waiters := w.waiters.erase r } := by
  obtain ⟨restNodup, restMem⟩ := inv.owned_erase mem
  have status : ∀ i, ((Function.update w.disk.info r.head { w.disk.info r.head with b := none }) i).status =
      (w.disk.info i).status := by
    intro i
    by_cases same : i = r.head
    · subst same
      simp
    · rw [Function.update_of_ne same]
  rw [foldl_give]
  constructor <;> try dsimp only
  · exact restNodup
  · intro j
    rw [World.owned, restMem j, Bool.or_eq_true, inv.free j, decide_eq_true_iff]
    tauto
  · intro r' inRest
    have old := List.mem_of_mem_erase inRest
    have other : r' ≠ r := fun same => by
      rw [same, inv.waiters_nodup.mem_erase_iff] at inRest
      exact inRest.1 rfl
    have headNe : r'.head ≠ r.head := fun same => other (inv.head_inj mem old same)
    apply Chained.frame (inv.chained r' old)
    · intro j inChain
      simp [inv.apart mem old other inChain]
    · simp [Function.update_of_ne headNe]
  · exact inv.bufs.sublist (List.erase_sublist.map _)
  · intro c set
    obtain ⟨r', old, rfl⟩ := List.mem_map.mp (inv.idle c set)
    have other : r' ≠ r := fun same => by simp [same, done] at set
    exact List.mem_map_of_mem ((inv.waiters_nodup.mem_erase_iff).mpr ⟨other, old⟩)
  · exact inv.availIdx
  · exact inv.last
  · exact inv.usedRingIdx
  · exact inv.usedIdx
  · exact inv.seen_le
  · exact inv.taken_le
  · exact inv.avail
  · exact inv.used
  · exact inv.pending_nodup
  · -- the pending heads are of processes whose `b->disk` is 1, and `r`'s is 0
    intro i
    refine (inv.pending i).trans ⟨?_, fun ⟨r', inRest, head, busy⟩ => ⟨r', List.mem_of_mem_erase inRest, head, busy⟩⟩
    rintro ⟨r', old, head, busy⟩
    have other : r' ≠ r := fun same => by simp [same, done] at busy
    exact ⟨r', inv.waiters_nodup.mem_erase_iff.mpr ⟨other, old⟩, head, busy⟩
  · intro i inCompleted
    rw [status i]
    exact inv.status i inCompleted

/-- The device reads the oldest head it has not read. -/
theorem Inv.deviceFetch_eq (inv : Inv w) (lt : w.taken < w.heads.length) :
    deviceFetch w.disk w.last = .ok (w.heads[w.taken], w.last + 1) := by
  have ring : w.disk.avail.ring (slot w.last) = UInt16.ofNat w.heads[w.taken] := by
    rw [slot_eq inv.last, inv.avail.head (by simpa using lt), List.getElem_map]
  have fits : (UInt16.ofNat w.heads[w.taken]).toNat < num := by
    rw [toNat_ofNat_index]
    exact (w.heads[w.taken]).isLt
  have index : (⟨(UInt16.ofNat w.heads[w.taken]).toNat, fits⟩ : Fin num) = w.heads[w.taken] :=
    Fin.ext (toNat_ofNat_index _)
  unfold deviceFetch
  simp only [ring, dif_pos fits, index]

/-- **Fetch.** The device moves the oldest head of the avail ring to those it holds. -/
theorem Inv.fetch (inv : Inv w) (lt : w.taken < w.heads.length) :
    Inv { w with last := w.last + 1, processing := w.processing ++ [w.heads[w.taken]], taken := w.taken + 1 } := by
  have moved : w.done.drop w.seen ++ (w.processing ++ [w.heads[w.taken]]) ++ w.heads.drop (w.taken + 1) =
      w.pending := by
    rw [World.pending, List.drop_eq_getElem_cons lt]
    simp only [List.append_assoc, List.singleton_append]
  constructor <;> try dsimp only
  · exact inv.nodup
  · exact inv.free
  · exact inv.chained
  · exact inv.bufs
  · exact inv.idle
  · exact inv.availIdx
  · exact counter_succ inv.last
  · exact inv.usedRingIdx
  · exact inv.usedIdx
  · exact inv.seen_le
  · exact lt
  · exact inv.avail.pop
  · exact inv.used
  · simp only [World.pending]
    rw [moved]
    exact inv.pending_nodup
  · intro i
    simp only [World.pending]
    rw [moved]
    exact inv.pending i
  · exact inv.status

/-- The disk after the device completes the chain at `head`. -/
def completed (d : Disk) (head : Fin num) : Disk :=
  { d with info := Function.update d.info head { d.info head with status := 0 },
           used := ⟨d.used.idx + 1, Function.update d.used.ring (slot d.used.idx) (UInt32.ofNat head)⟩ }

/-- A head the device holds is a waiting chain, which it completes. -/
theorem Inv.deviceComplete_eq (inv : Inv w) {head : Fin num} (busy : head ∈ w.processing) :
    deviceComplete w.disk head = .ok (completed w.disk head) := by
  have pending : head ∈ w.pending := by simp [World.pending, busy]
  obtain ⟨r, mem, rfl, -⟩ := inv.waiter_of_pending pending
  simp only [deviceComplete, (inv.chained r mem).statusAt]
  rfl

/-- **Complete.** The device completes a head it holds, in any order: a status of
0 at `info` of the head, and the head in the used ring. -/
theorem Inv.complete (inv : Inv w) {head : Fin num} (busy : head ∈ w.processing) :
    Inv { w with disk := completed w.disk head, processing := w.processing.erase head, done := w.done ++ [head] } := by
  have room := inv.room
  have eight : num = 8 := rfl
  have moved : ((w.done ++ [head]).drop w.seen ++ w.processing.erase head ++ w.heads.drop w.taken).Perm
      w.pending := by
    have perm := ((List.perm_cons_erase busy).append_left (w.done.drop w.seen)).append_right (w.heads.drop w.taken)
    rw [List.drop_append_of_le_length inv.seen_le, World.pending]
    simpa using perm.symm
  have info : ∀ i, i ≠ head → ((completed w.disk head).info i) = w.disk.info i :=
    fun i other => by simp [completed, Function.update_of_ne other]
  constructor <;> try dsimp only
  · exact inv.nodup
  · exact inv.free
  · intro r mem
    refine Chained.frame (inv.chained r mem) (fun _ _ => rfl) ?_
    by_cases same : r.head = head
    · simp [completed, same]
    · rw [info _ same]
  · exact inv.bufs
  · exact inv.idle
  · exact inv.availIdx
  · exact inv.last
  · simp only [completed, List.length_append, List.length_singleton]
    exact counter_succ inv.usedRingIdx
  · exact inv.usedIdx
  · simp only [List.length_append, List.length_singleton]
    exact Nat.le_succ_of_le inv.seen_le
  · exact inv.taken_le
  · exact inv.avail
  · simp only [completed]
    rw [List.map_append, List.map_singleton, slot_eq inv.usedRingIdx]
    have fits : (w.done.map fun (i : Fin num) => UInt32.ofNat i).length < w.seen + num := by
      rw [List.length_map]
      omega
    have pushed := inv.used.push fits (UInt32.ofNat head)
    rwa [List.length_map] at pushed
  · simp only [World.pending]
    exact moved.nodup_iff.mpr inv.pending_nodup
  · intro i
    simp only [World.pending]
    rw [moved.mem_iff]
    exact inv.pending i
  · intro i mem
    rw [List.drop_append_of_le_length inv.seen_le, List.mem_append] at mem
    by_cases same : i = head
    · simp [completed, same]
    · rw [info i same]
      rcases mem with old | new
      · exact inv.status i old
      · exact absurd (List.mem_singleton.mp new) same

/-- The used ring at `used_idx` holds the oldest head `virtio_disk_intr` has not seen. -/
theorem Inv.usedRing_eq (inv : Inv w) (lt : w.seen < w.done.length) :
    w.disk.used.ring (slot w.disk.usedIdx) = UInt32.ofNat w.done[w.seen] := by
  rw [slot_eq inv.usedIdx, inv.used.head (by simpa using lt), List.getElem_map]

/-- The head `virtio_disk_intr` sees next is that of a process whose `b->disk` is 1. -/
theorem Inv.next_seen (inv : Inv w) (lt : w.seen < w.done.length) :
    ∃ r ∈ w.waiters, r.head = w.done[w.seen] ∧ w.bufDisk r.b = true := by
  apply inv.waiter_of_pending
  rw [World.pending, List.drop_eq_getElem_cons lt]
  exact List.mem_append_left _ (List.mem_append_left _ List.mem_cons_self)

/-- The round of `virtio_disk_intr` for the head at `used_idx`: a status of 0, and
the buffer of the process that submitted it. -/
theorem Inv.intrRound_eq (inv : Inv w) (lt : w.seen < w.done.length) {r : Waiter} (mem : r ∈ w.waiters)
    (head : r.head = w.done[w.seen]) :
    intrRound w.disk w.bufDisk = .ok ({ w.disk with usedIdx := w.disk.usedIdx + 1 }, Function.update w.bufDisk r.b false) := by
  have ring : w.disk.used.ring (slot w.disk.usedIdx) = UInt32.ofNat r.head := by
    rw [inv.usedRing_eq lt, head]
  have completed : r.head ∈ w.done.drop w.seen := by
    rw [head, List.drop_eq_getElem_cons lt]
    exact List.mem_cons_self
  obtain ⟨i0, _, _, idx, -, -, -, info⟩ := inv.chained r mem
  rw [← Chained.head idx] at info
  have fits : (UInt32.ofNat r.head).toNat < num := by
    rw [toNat_ofNat32_index]
    exact r.head.isLt
  have index : (⟨(UInt32.ofNat r.head).toNat, fits⟩ : Fin num) = r.head := Fin.ext (toNat_ofNat32_index _)
  unfold intrRound
  simp only [ring, dif_pos fits, index, inv.status _ completed, ne_eq, not_true_eq_false, if_false, info]

/-- **The interrupt.** A round of `virtio_disk_intr` clears `b->disk` of the request
the device completed first among those not yet seen. -/
theorem Inv.see (inv : Inv w) (lt : w.seen < w.done.length) {r : Waiter} (mem : r ∈ w.waiters)
    (head : r.head = w.done[w.seen]) :
    Inv { w with disk := { w.disk with usedIdx := w.disk.usedIdx + 1 }, bufDisk := Function.update w.bufDisk r.b false,
                 seen := w.seen + 1 } := by
  have split : w.pending = r.head :: (w.done.drop (w.seen + 1) ++ w.processing ++ w.heads.drop w.taken) := by
    rw [World.pending, List.drop_eq_getElem_cons lt, head]
    simp only [List.cons_append]
  have rest := List.nodup_cons.mp (split ▸ inv.pending_nodup)
  constructor <;> try dsimp only
  · exact inv.nodup
  · exact inv.free
  · exact inv.chained
  · exact inv.bufs
  · intro c set
    by_cases same : c = r.b
    · simp [same] at set
    · rw [Function.update_of_ne same] at set
      exact inv.idle c set
  · exact inv.availIdx
  · exact inv.last
  · exact inv.usedRingIdx
  · exact counter_succ inv.usedIdx
  · exact lt
  · exact inv.taken_le
  · exact inv.avail
  · exact inv.used.pop
  · simp only [World.pending]
    exact rest.2
  · -- the pending heads lose `r`'s, whose buffer alone has `b->disk` cleared
    intro i
    simp only [World.pending]
    constructor
    · intro inRest
      have apart : i ≠ r.head := fun same => rest.1 (same ▸ inRest)
      obtain ⟨r', mem', rfl, busy⟩ := inv.waiter_of_pending (by rw [split]; exact List.mem_cons_of_mem _ inRest)
      have other : r'.b ≠ r.b := inv.buf_ne mem mem' fun same => apart (congrArg Waiter.head same)
      exact ⟨r', mem', rfl, by rw [Function.update_of_ne other]; exact busy⟩
    · rintro ⟨r', mem', rfl, busy⟩
      have other : r'.b ≠ r.b := fun same => by simp [same] at busy
      rw [Function.update_of_ne other] at busy
      have old := (inv.pending _).mpr ⟨r', mem', rfl, busy⟩
      rw [split] at old
      rcases List.mem_cons.mp old with same | inRest
      · exact absurd (congrArg Waiter.b (inv.head_inj mem mem' same)) other
      · exact inRest
  · intro i inCompleted
    exact inv.status i ((List.drop_sublist_drop_left _ (Nat.le_succ w.seen)).subset inCompleted)

/-- `free_chain` of a waiting process's head frees exactly its chain. -/
theorem Inv.freeChain_eq (inv : Inv w) {r : Waiter} (mem : r ∈ w.waiters) (d : Disk) (desc : d.desc = w.disk.desc)
    (free : d.free = w.disk.free) : freeChain d r.head = .ok (r.idx.foldl Disk.give d) := by
  obtain ⟨i0, i1, i2, idx, desc0, desc1, desc2, -⟩ := inv.chained r mem
  have distinct : [i0, i1, i2].Nodup := by
    rw [← idx]
    exact (List.nodup_flatMap.mp inv.nodup).1 r mem
  have inUse : ∀ j ∈ [i0, i1, i2], d.free j = false := by
    intro j inChain
    rw [free]
    exact inv.busy_of_owned (List.mem_flatMap.mpr ⟨r, mem, idx ▸ inChain⟩)
  have flags1 : dataFlags r.write &&& vringDescFNext ≠ 0 := by
    cases r.write <;> decide
  rw [Chained.head idx, idx]
  apply freeChain_three distinct inUse
  · rw [desc, desc0]
    exact (by decide : vringDescFNext &&& vringDescFNext ≠ 0)
  · rw [desc, desc0, toNat_ofNat_index]
  · rw [desc, desc1]
    exact flags1
  · rw [desc, desc1, toNat_ofNat_index]
  · rw [desc, desc2]
    exact (by decide : vringDescFWrite &&& vringDescFNext = 0)

/-- **Step.** From a state with `Inv`, each event either cannot happen, or happens
without a panic and keeps `Inv`. -/
theorem Inv.outcome (inv : Inv w) (e : Event) :
    outcome w e = none ∨ ∃ w', outcome w e = some (.ok w') ∧ Inv w' := by
  cases e with
  | rw b blockno write =>
    by_cases held : b ∈ w.waiters.map (·.b)
    · exact .inl (by simp [Virtio.outcome, held])
    · right
      -- `alloc3_desc` either takes three descriptors or gives back what it took
      rcases alloc3Desc_spec w.disk with ⟨i0, i1, i2, distinct, wereFree, got⟩ | ⟨d, got, same, kept⟩
      · exact ⟨_, by simp only [Virtio.outcome, if_neg held, got]; rfl, inv.submit held distinct wereFree⟩
      · exact ⟨_, by simp only [Virtio.outcome, if_neg held, got], inv.rollback same kept⟩
  | wake b =>
    cases found : w.waiters.find? (·.b = b) with
    | none => exact .inl (by simp only [Virtio.outcome, found])
    | some r =>
      have mem := List.mem_of_find?_eq_some found
      have named : r.b = b := by simpa using List.find?_some found
      by_cases set : w.bufDisk b = true
      · exact .inl (by simp [Virtio.outcome, found, set])
      · right
        have done : w.bufDisk r.b = false := by simpa [named] using set
        have freed := inv.freeChain_eq mem
          { w.disk with info := Function.update w.disk.info r.head { w.disk.info r.head with b := none } } rfl rfl
        exact ⟨_, by simp only [Virtio.outcome, found, set, freed]; rfl, inv.release mem done⟩
  | fetch =>
    by_cases caughtUp : w.last = w.disk.avail.idx
    · exact .inl (by simp [Virtio.outcome, caughtUp])
    · right
      have lt := lt_of_counter_ne inv.last inv.availIdx inv.taken_le caughtUp
      exact ⟨_, by simp only [Virtio.outcome, if_neg caughtUp, inv.deviceFetch_eq lt]; rfl, inv.fetch lt⟩
  | complete head =>
    by_cases busy : head ∈ w.processing
    · right
      exact ⟨_, by simp only [Virtio.outcome, if_pos busy, inv.deviceComplete_eq busy]; rfl, inv.complete busy⟩
    · exact .inl (by simp [Virtio.outcome, busy])
  | intr =>
    by_cases caughtUp : w.disk.usedIdx = w.disk.used.idx
    · exact .inl (by simp [Virtio.outcome, caughtUp])
    · right
      have lt := lt_of_counter_ne inv.usedIdx inv.usedRingIdx inv.seen_le caughtUp
      obtain ⟨r, mem, head, -⟩ := inv.next_seen lt
      exact ⟨_, by simp only [Virtio.outcome, if_neg caughtUp, inv.intrRound_eq lt mem head]; rfl,
        inv.see lt mem head⟩

end Events

/-- **Run.** Every state of every interleaving has `Inv`. -/
theorem Reachable.inv {w : World} (reachable : Reachable w) : Inv w := by
  apply Machine.Reachable.invariant inv_init _ reachable
  intro w e w' inv stepped
  rcases inv.outcome e with none | ⟨w'', ok, inv'⟩
  · simp [step, none] at stepped
  · simp only [step, ok, Option.bind_some, Except.toOption, Option.some.injEq] at stepped
    exact stepped ▸ inv'

/-! ### The rings between their counters -/

/-- The ring entries from counter `start` up to counter `stop`, read as C reads
them, with 16-bit sums and `% NUM`. -/
theorem window_counters {α : Type} (ring : Fin num → α) {start stop : UInt16} {a c : Nat}
    (sa : start.toNat = a % 2 ^ 16) (sc : stop.toNat = c % 2 ^ 16) (le : a ≤ c) (near : c - a < 2 ^ 16) :
    (List.range (stop - start).toNat).map (fun k => ring (slot (start + UInt16.ofNat k))) =
      Ring.window ring a (c - a) := by
  rw [counter_sub sa sc le near, Ring.window]
  apply List.map_congr_left
  intro k _
  rw [slot_eq (counter_add sa k)]

/-- The used ring from `used_idx` to `used->idx`, the heads the device holds, and
the avail ring from the device's position to `avail->idx`: the pending heads. -/
theorem Inv.windows {w : World} (inv : Inv w) :
    (List.range (w.disk.used.idx - w.disk.usedIdx).toNat).map
        (fun k => (w.disk.used.ring (slot (w.disk.usedIdx + UInt16.ofNat k))).toNat) ++
      w.processing.map Fin.val ++
      (List.range (w.disk.avail.idx - w.last).toNat).map
        (fun k => (w.disk.avail.ring (slot (w.last + UInt16.ofNat k))).toNat) =
      w.pending.map Fin.val := by
  have room := inv.room
  have seenLe := inv.seen_le
  have takenLe := inv.taken_le
  have usedWindow := inv.used.window_eq (by simp only [List.length_map]; omega)
  have availWindow := inv.avail.window_eq (by simp only [List.length_map]; omega)
  simp only [List.length_map, Ring.window] at usedWindow availWindow
  rw [window_counters (fun i => (w.disk.used.ring i).toNat) inv.usedIdx inv.usedRingIdx seenLe (by omega),
    window_counters (fun i => (w.disk.avail.ring i).toNat) inv.last inv.availIdx takenLe (by omega),
    World.pending, List.map_append, List.map_append]
  simp only [Ring.window]
  -- each window is its history from the reader's position, read back as indices
  congr 1
  · congr 1
    have := congrArg (List.map UInt32.toNat) usedWindow
    simp only [List.map_map, Function.comp_def, List.map_drop, toNat_ofNat32_index] at this
    rw [List.map_drop]
    exact this
  · have := congrArg (List.map UInt16.toNat) availWindow
    simp only [List.map_map, Function.comp_def, List.map_drop, toNat_ofNat_index] at this
    rw [List.map_drop]
    exact this

/-- **Counters.** The rings between their 16-bit counters and the heads the device
holds are, each once, the heads of the processes whose `b->disk` is 1. -/
theorem Inv.rings {w : World} (inv : Inv w) :
    ((List.range (w.disk.used.idx - w.disk.usedIdx).toNat).map
        (fun k => (w.disk.used.ring (slot (w.disk.usedIdx + UInt16.ofNat k))).toNat) ++
      w.processing.map Fin.val ++
      (List.range (w.disk.avail.idx - w.last).toNat).map
        (fun k => (w.disk.avail.ring (slot (w.last + UInt16.ofNat k))).toNat)).Perm
      ((w.waiters.filter fun r => w.bufDisk r.b).map fun r => (r.head : Nat)) := by
  rw [inv.windows]
  have filtered : ((w.waiters.filter fun r => w.bufDisk r.b).map fun r => (r.head : Nat)).Nodup := by
    apply (List.filter_sublist.nodup inv.waiters_nodup).map_on
    intro r mem r' mem' same
    exact inv.head_inj (List.mem_of_mem_filter mem') (List.mem_of_mem_filter mem) (Fin.ext same)
  apply (List.perm_ext_iff_of_nodup (inv.pending_nodup.map Fin.val_injective) filtered).mpr
  intro x
  simp only [List.mem_map, List.mem_filter]
  constructor
  · rintro ⟨i, mem, rfl⟩
    obtain ⟨r, inWaiters, rfl, busy⟩ := inv.waiter_of_pending mem
    exact ⟨r, ⟨inWaiters, busy⟩, rfl⟩
  · rintro ⟨r, ⟨inWaiters, busy⟩, rfl⟩
    exact ⟨r.head, (inv.pending _).mpr ⟨r, inWaiters, rfl, busy⟩, rfl⟩

/-- Each descriptor in use is in the chain of exactly one waiting process. -/
theorem Inv.unique_owner {w : World} (inv : Inv w) {i : Fin num} (inUse : w.disk.free i = false) :
    ∃! r, r ∈ w.waiters ∧ i ∈ r.idx := by
  have owned : i ∈ w.owned := by
    by_contra out
    simp [(inv.free i).mpr out] at inUse
  obtain ⟨r, mem, inChain⟩ := List.mem_flatMap.mp owned
  refine ⟨r, ⟨mem, inChain⟩, fun r' ⟨mem', inChain'⟩ => ?_⟩
  by_contra other
  exact inv.apart mem mem' other inChain' inChain

theorem virtio_descriptor_bookkeeping {w : World} (reachable : Reachable w) :
    (∀ i, (w.disk.free i = true ∧ ∀ r ∈ w.waiters, i ∉ r.idx) ∨
      (w.disk.free i = false ∧ ∃! r, r ∈ w.waiters ∧ i ∈ r.idx)) ∧
    (∀ r ∈ w.waiters, ∃ i0 i1 i2, r.idx = [i0, i1, i2] ∧ [i0, i1, i2].Nodup ∧
      w.disk.next? i0 = some i1 ∧ w.disk.next? i1 = some i2 ∧ (w.disk.desc i2).flags &&& vringDescFNext = 0) ∧
    ((∃ i0 i1 i2 d, [i0, i1, i2].Nodup ∧ (∀ j ∈ [i0, i1, i2], w.disk.free j = true) ∧
        alloc3Desc w.disk = .ok (d, some [i0, i1, i2]) ∧
        ∀ j, d.free j = (w.disk.free j && !decide (j ∈ [i0, i1, i2]))) ∨
      ∃ d, alloc3Desc w.disk = .ok (d, none) ∧ d.free = w.disk.free) ∧
    (∀ r ∈ w.waiters, ∃ d, freeChain w.disk r.head = .ok d ∧ ∀ j, d.free j = (w.disk.free j || decide (j ∈ r.idx))) ∧
    (∀ e msg, outcome w e ≠ some (.error msg)) ∧
    (w.disk.usedIdx ≠ w.disk.used.idx → ∃ r ∈ w.waiters,
      (w.disk.used.ring (slot w.disk.usedIdx)).toNat = r.head ∧ (w.disk.info r.head).b = some r.b ∧
      intrRound w.disk w.bufDisk =
        .ok ({ w.disk with usedIdx := w.disk.usedIdx + 1 }, Function.update w.bufDisk r.b false)) ∧
    ((List.range (w.disk.used.idx - w.disk.usedIdx).toNat).map
        (fun k => (w.disk.used.ring (slot (w.disk.usedIdx + UInt16.ofNat k))).toNat) ++
      w.processing.map Fin.val ++
      (List.range (w.disk.avail.idx - w.last).toNat).map
        (fun k => (w.disk.avail.ring (slot (w.last + UInt16.ofNat k))).toNat)).Perm
      ((w.waiters.filter fun r => w.bufDisk r.b).map fun r => (r.head : Nat)) ∧
    (w.waiters.filter fun r => w.bufDisk r.b).length ≤ 2 := by
  have inv := reachable.inv
  refine ⟨?_, ?_, ?_, ?_, ?_, ?_, inv.rings, ?_⟩
  · intro i
    cases isFree : w.disk.free i with
    | true =>
      refine .inl ⟨rfl, fun r mem inChain => (inv.free i).mp isFree ?_⟩
      exact List.mem_flatMap.mpr ⟨r, mem, inChain⟩
    | false => exact .inr ⟨rfl, inv.unique_owner isFree⟩
  · intro r mem
    obtain ⟨i0, i1, i2, idx, -⟩ := id (inv.chained r mem)
    obtain ⟨next0, next1, last, -⟩ := (inv.chained r mem).links idx
    exact ⟨i0, i1, i2, idx, idx ▸ (List.nodup_flatMap.mp inv.nodup).1 r mem, next0, next1, last⟩
  · rcases alloc3Desc_spec w.disk with ⟨i0, i1, i2, distinct, wereFree, got⟩ | ⟨d, got, same, -⟩
    · exact .inl ⟨i0, i1, i2, _, distinct, wereFree, got, fun j => by rw [foldl_take]⟩
    · exact .inr ⟨d, got, by rw [same]⟩
  · intro r mem
    exact ⟨_, inv.freeChain_eq mem w.disk rfl rfl, fun j => by rw [foldl_give]⟩
  · intro e msg
    rcases inv.outcome e with none | ⟨w', ok, -⟩
    · rw [none]
      simp
    · rw [ok]
      simp
  · intro caughtUp
    have lt := lt_of_counter_ne inv.usedIdx inv.usedRingIdx inv.seen_le caughtUp
    obtain ⟨r, mem, head, -⟩ := inv.next_seen lt
    obtain ⟨i0, _, _, idx, -, -, -, info⟩ := inv.chained r mem
    refine ⟨r, mem, by rw [inv.usedRing_eq lt, ← head, toNat_ofNat32_index], ?_, inv.intrRound_eq lt mem head⟩
    rw [Chained.head idx]
    exact info
  · exact (List.length_filter_le _ _).trans inv.waiters_length_le

/-- Two processes submit a read and a write; the device reads both, completes the
second first, and `virtio_disk_intr` sees it. -/
theorem virtio_descriptor_bookkeeping_two_requests :
    let w := (Machine.run step init [.rw 1 7 false, .rw 2 9 true, .fetch, .fetch, .complete 3, .intr]).getD init
    Reachable w ∧
      ((∀ i, (w.disk.free i = true ∧ ∀ r ∈ w.waiters, i ∉ r.idx) ∨
        (w.disk.free i = false ∧ ∃! r, r ∈ w.waiters ∧ i ∈ r.idx)) ∧
      (∀ r ∈ w.waiters, ∃ i0 i1 i2, r.idx = [i0, i1, i2] ∧ [i0, i1, i2].Nodup ∧
        w.disk.next? i0 = some i1 ∧ w.disk.next? i1 = some i2 ∧ (w.disk.desc i2).flags &&& vringDescFNext = 0) ∧
      ((∃ i0 i1 i2 d, [i0, i1, i2].Nodup ∧ (∀ j ∈ [i0, i1, i2], w.disk.free j = true) ∧
          alloc3Desc w.disk = .ok (d, some [i0, i1, i2]) ∧
          ∀ j, d.free j = (w.disk.free j && !decide (j ∈ [i0, i1, i2]))) ∨
        ∃ d, alloc3Desc w.disk = .ok (d, none) ∧ d.free = w.disk.free) ∧
      (∀ r ∈ w.waiters, ∃ d, freeChain w.disk r.head = .ok d ∧ ∀ j, d.free j = (w.disk.free j || decide (j ∈ r.idx))) ∧
      (∀ e msg, outcome w e ≠ some (.error msg)) ∧
      (w.disk.usedIdx ≠ w.disk.used.idx → ∃ r ∈ w.waiters,
        (w.disk.used.ring (slot w.disk.usedIdx)).toNat = r.head ∧ (w.disk.info r.head).b = some r.b ∧
        intrRound w.disk w.bufDisk =
          .ok ({ w.disk with usedIdx := w.disk.usedIdx + 1 }, Function.update w.bufDisk r.b false)) ∧
      ((List.range (w.disk.used.idx - w.disk.usedIdx).toNat).map
          (fun k => (w.disk.used.ring (slot (w.disk.usedIdx + UInt16.ofNat k))).toNat) ++
        w.processing.map Fin.val ++
        (List.range (w.disk.avail.idx - w.last).toNat).map
          (fun k => (w.disk.avail.ring (slot (w.last + UInt16.ofNat k))).toNat)).Perm
        ((w.waiters.filter fun r => w.bufDisk r.b).map fun r => (r.head : Nat)) ∧
      (w.waiters.filter fun r => w.bufDisk r.b).length ≤ 2) := by
  intro w
  have ran : Machine.run step init [.rw 1 7 false, .rw 2 9 true, .fetch, .fetch, .complete 3, .intr] = some w := rfl
  have reachable : Reachable w := Machine.reachable_of_run Relation.ReflTransGen.refl ran
  exact ⟨reachable, virtio_descriptor_bookkeeping reachable⟩

end Xv6.Virtio
