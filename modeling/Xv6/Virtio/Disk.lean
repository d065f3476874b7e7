import Xv6.Param
import Xv6.Lib.Ring
import Xv6.Lib.Machine
import Xv6.Virtio.Alloc

/-!
Contract: `virtio_disk_rw` and `virtio_disk_intr` of `kernel/virtio_disk.c`, the
disk device they drive, and the system of every interleaving of their stretches.

`virtio_disk_rw` holds `vdisk_lock` from `acquire` to a `sleep`, so it runs in
stretches: the loop of `alloc3_desc`, which sleeps on `&disk.free[0]` until three
descriptors are free and then formats the chain and puts its head in the avail
ring (`rwSubmit`); and, once `virtio_disk_intr` has cleared `b->disk`, the
release of the chain (`wake`). A process asleep in the first loop holds nothing,
so its retry is one more `rw` event. `virtio_disk_intr` holds the lock through its
loop, but the device adds to the used ring at any time, so each round of the
loop is an event (`intrRound`).

The device is not code of the repository: it reads the chain heads of the avail
ring in order, each once (`deviceFetch`), and completes those it has read in any
order: it walks the chain by `VRING_DESC_F_NEXT`, writes a status of 0 where the
last descriptor points, and puts the head in the used ring (`deviceComplete`). A
chain it cannot walk is an error of the model, as are the accesses C leaves
undefined: an `info` index out of range and a null `b`.

`World` adds what the proof needs and the C code does not keep: the processes
waiting in `virtio_disk_rw` (their local `b`, `write` and `idx`), the heads
written to the avail ring and to the used ring, and how many of each the device
and `virtio_disk_intr` have read.

Owns: `slot`, `rwSubmit`, `Disk.next?`, `Disk.statusAt`, `deviceFetch`, `deviceComplete`,
`intrRound`, `Waiter`, `World`, `Event`, `outcome`, `step`, `init`, `Reachable`.
-/

namespace Xv6.Virtio

/-- The ring entry a 16-bit counter names: `idx % NUM`. -/
def slot (n : UInt16) : Fin num :=
  Ring.cell num n.toNat

/-- `sizeof(struct virtio_blk_req)`. -/
def blkReqSize : Nat := 16

/-- `VIRTIO_BLK_T_IN`: read the disk. -/
def virtioBlkTIn : UInt32 := 0

/-- `VIRTIO_BLK_T_OUT`: write the disk. -/
def virtioBlkTOut : UInt32 := 1

/-- What `virtio_disk_rw` writes once `alloc3_desc` has given it `idx`: the
request header in `ops[idx[0]]`, the three descriptors, `info[idx[0]]`, and the
head in the avail ring, after which it bumps `avail->idx`. `b->disk` is the
buffer's and set by the caller of this. -/
def rwSubmit (d : Disk) (b blockno : Nat) (write : Bool) (idx : List (Fin num)) : Disk :=
  let i0 := idx.getD 0 0
  let i1 := idx.getD 1 0
  let i2 := idx.getD 2 0
  let ops := Function.update d.ops i0
    ⟨if write then virtioBlkTOut else virtioBlkTIn, 0, blockno * (bSize / 512)⟩
  let desc := Function.update d.desc i0 ⟨.op i0, blkReqSize, vringDescFNext, UInt16.ofNat i1⟩
  let desc := Function.update desc i1
    ⟨.data b, bSize, (if write then 0 else vringDescFWrite) ||| vringDescFNext, UInt16.ofNat i2⟩
  let info := Function.update d.info i0 { d.info i0 with status := 0xff }
  let desc := Function.update desc i2 ⟨.status i0, 1, vringDescFWrite, 0⟩
  let info := Function.update info i0 { info i0 with b := some b }
  { d with ops, desc, info,
           avail := ⟨d.avail.idx + 1, Function.update d.avail.ring (slot d.avail.idx) (UInt16.ofNat i0)⟩ }

/-! ### The device -/

/-- The descriptor that `i`'s `next` names, if `i` has `VRING_DESC_F_NEXT`. -/
def Disk.next? (d : Disk) (i : Fin num) : Option (Fin num) :=
  if (d.desc i).flags &&& vringDescFNext ≠ 0 then
    if h : (d.desc i).next.toNat < num then some ⟨_, h⟩ else none
  else none

/-- The device's walk of the chain at `head`: two links, a last descriptor
without `VRING_DESC_F_NEXT`, and the status byte it points at. -/
def Disk.statusAt (d : Disk) (head : Fin num) : Option (Fin num) :=
  match d.next? head with
  | none => none
  | some i1 =>
    match d.next? i1 with
    | none => none
    | some i2 =>
      if (d.desc i2).flags &&& vringDescFNext ≠ 0 then none
      else
        match (d.desc i2).addr with
        | .status j => some j
        | _ => none

/-- The device reads the chain head at its position `last` in the avail ring. -/
def deviceFetch (d : Disk) (last : UInt16) : Except String (Fin num × UInt16) :=
  let head := d.avail.ring (slot last)
  if h : head.toNat < num then .ok (⟨_, h⟩, last + 1) else .error "virtio: head"

/-- The device completes the chain at `head`: a status of 0 where the chain says,
and `head` in the used ring. -/
def deviceComplete (d : Disk) (head : Fin num) : Except String Disk :=
  match d.statusAt head with
  | none => .error "virtio: chain"
  | some j =>
    .ok { d with info := Function.update d.info j { d.info j with status := 0 },
                 used := ⟨d.used.idx + 1, Function.update d.used.ring (slot d.used.idx) (UInt32.ofNat head)⟩ }

/-! ### The interrupt -/

/-- One round of the loop of `virtio_disk_intr`, run while `used_idx != used->idx`:
the buffer `info[id].b` of the completed head `id` gets `b->disk = 0`. -/
def intrRound (d : Disk) (bufDisk : Nat → Bool) : Except String (Disk × (Nat → Bool)) :=
  let id := d.used.ring (slot d.usedIdx)
  if h : id.toNat < num then
    if (d.info ⟨_, h⟩).status ≠ 0 then .error "virtio_disk_intr status"
    else
      match (d.info ⟨_, h⟩).b with
      | some b => .ok ({ d with usedIdx := d.usedIdx + 1 }, Function.update bufDisk b false)
      | none => .error "virtio: null buf"
  else .error "virtio: info index"

/-! ### Every interleaving -/

/-- A process asleep in `virtio_disk_rw` until `b->disk` is 0: its locals. -/
structure Waiter where
  b : Nat
  write : Bool
  idx : List (Fin num)
deriving DecidableEq, Repr

/-- The head of a waiter's chain, `idx[0]`. -/
def Waiter.head (r : Waiter) : Fin num :=
  r.idx.getD 0 0

/-- The driver, the device (its position in the avail ring and the heads it has
read and not completed), each buffer's `disk` flag, and the history: the heads
written to the avail ring, how many the device has read, the heads it has put in
the used ring, and how many `virtio_disk_intr` has seen. -/
structure World where
  disk : Disk
  bufDisk : Nat → Bool
  last : UInt16
  processing : List (Fin num)
  waiters : List Waiter
  heads : List (Fin num)
  taken : Nat
  done : List (Fin num)
  seen : Nat

/-- One stretch of a call, or one step of the device. -/
inductive Event where
  | rw (b blockno : Nat) (write : Bool)
  | wake (b : Nat)
  | fetch
  | complete (head : Fin num)
  | intr

/-- What an event does: `none` if it cannot happen, an error if it panics. A
process calls `virtio_disk_rw` on a buffer that no other process has in a
request, since the caller holds its sleep-lock. -/
def outcome (w : World) : Event → Option (Except String World)
  | .rw b blockno write =>
    if b ∈ w.waiters.map (·.b) then none
    else some <|
      match alloc3Desc w.disk with
      | .error e => .error e
      | .ok (d, none) => .ok { w with disk := d }
      | .ok (d, some idx) =>
        .ok { w with disk := rwSubmit d b blockno write idx, bufDisk := Function.update w.bufDisk b true,
                     waiters := w.waiters ++ [⟨b, write, idx⟩], heads := w.heads ++ [idx.getD 0 0] }
  | .wake b =>
    match w.waiters.find? (·.b = b) with
    | none => none
    | some r =>
      if w.bufDisk b then none
      else
        let d := { w.disk with info := Function.update w.disk.info r.head { w.disk.info r.head with b := none } }
        some <| (freeChain d r.head).map fun d => { w with disk := d, waiters := w.waiters.erase r }
  | .fetch =>
    if w.last = w.disk.avail.idx then none
    else some <| (deviceFetch w.disk w.last).map fun (head, last) =>
      { w with last, processing := w.processing ++ [head], taken := w.taken + 1 }
  | .complete head =>
    if head ∈ w.processing then
      some <| (deviceComplete w.disk head).map fun d =>
        { w with disk := d, processing := w.processing.erase head, done := w.done ++ [head] }
    else none
  | .intr =>
    if w.disk.usedIdx = w.disk.used.idx then none
    else some <| (intrRound w.disk w.bufDisk).map fun (d, bufDisk) => { w with disk := d, bufDisk, seen := w.seen + 1 }

/-- An event that happens and does not panic. -/
def step (w : World) (e : Event) : Option World :=
  (outcome w e).bind Except.toOption

/-- After `virtio_disk_init`: the rings zeroed, every descriptor free, no request. -/
def init : World where
  disk := ⟨fun _ => Desc.zero, ⟨0, fun _ => 0⟩, ⟨0, fun _ => 0⟩, fun _ => true, 0, fun _ => ⟨none, 0⟩,
    fun _ => ⟨0, 0, 0⟩⟩
  bufDisk := fun _ => false
  last := 0
  processing := []
  waiters := []
  heads := []
  taken := 0
  done := []
  seen := 0

/-- The states of every interleaving after `virtio_disk_init`. -/
def Reachable (w : World) : Prop :=
  Machine.Reachable step init w

end Xv6.Virtio
