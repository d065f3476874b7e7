import Xv6.Fs.DataView
import Xv6.Fs.Syscall
import Xv6.Lib.Machine

/-!
Contract: one `struct file` on an inode that processes share after `fork` or `dup`,
and every interleaving of `fileread` and `filewrite` (kernel/file.c) on it.

`f->off` is read and moved only between `ilock` and `iunlock` of the file's inode,
whose sleep-lock lets one such section run at a time; what a call does outside its
sections (`begin_op`, `end_op`, the loop's counters) reads neither the offset nor
the inode's data. An interleaving of the calls is therefore an interleaving of
their sections, one event each: `fileread` is one section, `filewrite` one for each
chunk of at most `writeChunk` bytes.

The inode is seen through its data, its bytes and its size (`View`). `readi`
returns at most the bytes from the offset to the size (`readiCount`), fewer at a
hole or when the copy out fails; a `writei` that passes its checks puts its bytes
at the offset and grows the size over them. Every `writei` succeeds, and nothing
truncates the inode. `readi_count` and `writei_view` prove both of the model of
`kernel/fs.c`, and `chunk_agrees` says that a chunk step is what `writei` does to
the inode's data.

The world keeps the sections that ran, oldest first.

Owns: `View`, `readiCount`, `writeiFits`, `Section`, `Writing`, `World`, `Event`,
`step`, `Reachable`, `Tiles`, the invariant `Good` with its step and run lemmas,
`inodeView`, `View.Agrees`, `readi_count`, `writei_view`, `chunk_agrees`.
-/

namespace Xv6.Fs.Shared

/-! ### The inode's data -/

/-- The inode's data as the sections see it. -/
structure View where
  bytes : Nat → UInt8
  size : Nat

/-- The most `readi(ip, 1, dst, off, n)` returns: nothing past the size or when the
`uint` sum wraps, else the bytes up to the size. -/
def readiCount (size off n : Nat) : Nat :=
  if size < off ∨ (off + n) % 2 ^ 32 < off then 0
  else if size < off + n then size - off else n

/-- `writei`'s checks: the offset inside the file, no `uint` wrap, and the end within
`MAXFILE` blocks. -/
def writeiFits (size off n : Nat) : Prop :=
  ¬ (size < off ∨ (off + n) % 2 ^ 32 < off) ∧ ¬ maxFile * bSize < off + n

instance (size off n : Nat) : Decidable (writeiFits size off n) :=
  inferInstanceAs (Decidable (_ ∧ _))

/-- The data after a `writei` of `src` at `off` that writes every byte. -/
def View.write (v : View) (off : Nat) (src : List UInt8) : View where
  bytes p := if off ≤ p ∧ p < off + src.length then src.getD (p - off) 0 else v.bytes p
  size := max v.size (off + src.length)

theorem View.write_of_outside (v : View) {off p : Nat} {src : List UInt8}
    (outside : p < off ∨ off + src.length ≤ p) : (v.write off src).bytes p = v.bytes p := by
  simp only [View.write]
  rw [if_neg (by omega)]

theorem View.write_at (v : View) (off : Nat) {src : List UInt8} {k : Nat} (inSrc : k < src.length) :
    (v.write off src).bytes (off + k) = src[k] := by
  simp only [View.write]
  rw [if_pos (by omega), Nat.add_sub_cancel_left, List.getD_eq_getElem?_getD, List.getElem?_eq_getElem inSrc,
    Option.getD_some]

/-! ### The calls and their sections -/

/-- A section that ran, by process `p` at offset `off`: a read of `len` bytes, or a
write of `bytes`. -/
inductive Section (P : Type) where
  | read (p : P) (off len : Nat)
  | write (p : P) (off : Nat) (bytes : List UInt8)
  deriving DecidableEq, Repr

def Section.off {P : Type} : Section P → Nat
  | .read _ off _ => off
  | .write _ off _ => off

def Section.len {P : Type} : Section P → Nat
  | .read _ _ len => len
  | .write _ _ bytes => bytes.length

/-- A `filewrite` between chunks: its source, of which the first `done` bytes are
written. -/
structure Writing where
  src : List UInt8
  done : Nat
  deriving DecidableEq, Repr

/-- The shared file, the `filewrite` each process is in, and the sections that ran. -/
structure World (P : Type) where
  readable : Bool
  writable : Bool
  off : Nat
  view : View
  calls : P → Option Writing
  past : List (Section P)

/-- What a process does: a `fileread` of `n` bytes whose `readi` returns `got`, entering
a `filewrite` of `src`, or the next chunk of its `filewrite`. -/
inductive Event (P : Type) where
  | fileread (p : P) (n : Int) (got : Nat)
  | filewrite (p : P) (src : List UInt8)
  | chunk (p : P)
  deriving DecidableEq, Repr

section Calls

variable {P : Type} [DecidableEq P]

/-- One event, if it can happen. A process makes one call at a time; a file not
open for reading or for writing returns -1 at once, and `filewrite` of nothing
returns 0 without a chunk. A chunk is `filewrite`'s loop body: `writei` at `f->off`,
then `f->off += r`, and the loop goes on while bytes are left. -/
def step (w : World P) : Event P → Option (World P)
  | .fileread p n got =>
    if (w.calls p).isSome then none
    else if !w.readable then some w
    else if readiCount w.view.size w.off (n % 2 ^ 32).toNat < got then none
    else some { w with
      off := if 0 < got then w.off + got else w.off
      past := w.past ++ [.read p w.off got] }
  | .filewrite p src =>
    if (w.calls p).isSome then none
    else if !w.writable then some w
    else if src = [] then some w
    else some { w with calls := Function.update w.calls p (some ⟨src, 0⟩) }
  | .chunk p =>
    match w.calls p with
    | none => none
    | some ⟨src, i⟩ =>
      let n1 := min (src.length - i) writeChunk
      if writeiFits w.view.size w.off n1 then
        let bytes := (src.drop i).take n1
        some { w with
          off := w.off + n1
          view := w.view.write w.off bytes
          calls := Function.update w.calls p (if i + n1 < src.length then some ⟨src, i + n1⟩ else none)
          past := w.past ++ [.write p w.off bytes] }
      -- `writei` returns -1 and the loop breaks
      else some { w with calls := Function.update w.calls p none }

/-- The worlds every interleaving reaches from the file opened with `readable` and
`writable`, at offset `start`, over the data `v`, with no call running. -/
def Reachable (readable writable : Bool) (start : Nat) (v : View) (w : World P) : Prop :=
  Machine.Reachable step ⟨readable, writable, start, v, fun _ => none, []⟩ w

end Calls

variable {P : Type}

/-! ### Sections one after another -/

/-- The sections ran one after another from the offset `start` to `stop`, each where
the one before it ended. -/
def Tiles : Nat → List (Section P) → Nat → Prop
  | start, [], stop => start = stop
  | start, s :: rest, stop => s.off = start ∧ Tiles (start + s.len) rest stop

variable {start stop : Nat}

theorem Tiles.append {l : List (Section P)} (tiles : Tiles start l stop) (s : Section P) (starts : s.off = stop) :
    Tiles start (l ++ [s]) (stop + s.len) := by
  induction l generalizing start with
  | nil =>
    simp only [Tiles] at tiles
    subst tiles
    simp only [List.nil_append, Tiles, and_true]
    exact starts
  | cons t rest ih =>
    simp only [Tiles] at tiles
    simp only [List.cons_append, Tiles]
    exact ⟨tiles.1, ih tiles.2⟩

theorem Tiles.within {l : List (Section P)} (tiles : Tiles start l stop) :
    start ≤ stop ∧ ∀ s ∈ l, start ≤ s.off ∧ s.off + s.len ≤ stop := by
  induction l generalizing start with
  | nil =>
    simp only [Tiles] at tiles
    exact ⟨tiles.le, fun _ none => absurd none List.not_mem_nil⟩
  | cons t rest ih =>
    simp only [Tiles] at tiles
    obtain ⟨below, later⟩ := ih tiles.2
    refine ⟨by omega, fun s mem => ?_⟩
    rcases List.mem_cons.1 mem with rfl | mem
    · omega
    · have := later s mem
      omega

theorem Tiles.stop_eq {l : List (Section P)} (tiles : Tiles start l stop) :
    stop = start + (l.map Section.len).sum := by
  induction l generalizing start with
  | nil =>
    simp only [Tiles] at tiles
    simp [tiles]
  | cons t rest ih =>
    simp only [Tiles] at tiles
    rw [ih tiles.2, List.map_cons, List.sum_cons]
    omega

theorem Tiles.off_eq {pre post : List (Section P)} {s : Section P} (tiles : Tiles start (pre ++ s :: post) stop) :
    s.off = start + (pre.map Section.len).sum := by
  induction pre generalizing start with
  | nil =>
    simp only [List.nil_append, Tiles] at tiles
    simp [tiles.1]
  | cons t rest ih =>
    simp only [List.cons_append, Tiles] at tiles
    rw [ih tiles.2, List.map_cons, List.sum_cons]
    omega

theorem Tiles.pairwise {l : List (Section P)} (tiles : Tiles start l stop) :
    l.Pairwise fun s t => s.off + s.len ≤ t.off := by
  induction l generalizing start with
  | nil => exact .nil
  | cons t rest ih =>
    simp only [Tiles] at tiles
    refine List.pairwise_cons.2 ⟨fun u mem => ?_, ih tiles.2⟩
    have := (tiles.2.within.2 u mem).1
    omega

/-! ### The invariant -/

/-- The sections tile the offsets from `start` to `f->off`, and every write's bytes
are in the file where it put them. -/
structure Good (start : Nat) (w : World P) : Prop where
  tiles : Tiles start w.past w.off
  written : ∀ p o bytes, Section.write p o bytes ∈ w.past →
    o + bytes.length ≤ w.view.size ∧ ∀ k (inBytes : k < bytes.length), w.view.bytes (o + k) = bytes[k]

theorem Good.init (readable writable : Bool) (v : View) :
    Good start (⟨readable, writable, start, v, fun _ => none, []⟩ : World P) :=
  ⟨rfl, fun _ _ _ none => absurd none List.not_mem_nil⟩

variable [DecidableEq P] {w w' : World P}

theorem Good.fileread (good : Good start w) {p : P} {n : Int} {got : Nat}
    (stepped : step w (.fileread p n got) = some w') : Good start w' := by
  simp only [step] at stepped
  -- `f->off += r` only for `r > 0`, which moves it by `r` all the same
  have advance : ∀ off : Nat, (if 0 < got then off + got else off) = off + got := fun off => by
    split <;> omega
  simp only [advance] at stepped
  split_ifs at stepped with busy closed many
  · cases stepped
    exact good
  · cases stepped
    refine ⟨good.tiles.append (.read p w.off got) rfl, fun q o bytes mem => ?_⟩
    rcases List.mem_append.1 mem with old | new
    · exact good.written q o bytes old
    · simp at new

theorem Good.filewrite (good : Good start w) {p : P} {src : List UInt8}
    (stepped : step w (.filewrite p src) = some w') : Good start w' := by
  simp only [step] at stepped
  split_ifs at stepped <;> cases stepped
  all_goals exact ⟨good.tiles, good.written⟩

theorem Good.chunk (good : Good start w) {p : P} (stepped : step w (.chunk p) = some w') : Good start w' := by
  simp only [step] at stepped
  split at stepped
  · cases stepped
  rename_i src i _
  by_cases fits : writeiFits w.view.size w.off (min (src.length - i) writeChunk)
  · rw [if_pos fits] at stepped
    cases stepped
    -- the chunk is `n1` bytes, where `f->off` stood
    have length : ((src.drop i).take (min (src.length - i) writeChunk)).length = min (src.length - i) writeChunk := by
      simp only [List.length_take, List.length_drop]
      omega
    refine ⟨?_, fun q o bytes mem => ?_⟩
    · have := good.tiles.append (.write p w.off ((src.drop i).take (min (src.length - i) writeChunk))) rfl
      simp only [Section.len, length] at this
      exact this
    · rcases List.mem_append.1 mem with old | new
      · -- an earlier write ended at or before `f->off`, so this chunk misses it
        obtain ⟨inside, was⟩ := good.written q o bytes old
        have ended := (good.tiles.within.2 _ old).2
        simp only [Section.off, Section.len] at ended
        refine ⟨le_trans inside (le_max_left _ _), fun k inBytes => ?_⟩
        rw [View.write_of_outside _ (.inl (by omega)), was k inBytes]
      · simp only [List.mem_singleton, Section.write.injEq] at new
        obtain ⟨-, rfl, rfl⟩ := new
        exact ⟨le_max_right _ _, fun k inBytes => View.write_at _ _ inBytes⟩
  · rw [if_neg fits] at stepped
    cases stepped
    exact ⟨good.tiles, good.written⟩

/-- **Step lemma.** -/
theorem Good.step (good : Good start w) {e : Event P} (stepped : step w e = some w') : Good start w' := by
  cases e with
  | fileread p n got => exact good.fileread stepped
  | filewrite p src => exact good.filewrite stepped
  | chunk p => exact good.chunk stepped

/-- **Run lemma.** -/
theorem Reachable.good {readable writable : Bool} {v : View} (reachable : Reachable readable writable start v w) :
    Good start w :=
  Machine.Reachable.invariant (Good.init readable writable v) (fun _ _ _ good stepped => good.step stepped)
    reachable

/-- Every interleaving of `fileread` and `filewrite` on the shared file: each section
ran at the offset the sections before it left, so each chunk was written where
`f->off` stood when its process locked the inode; the sections' byte ranges follow
one another without overlap; `f->off` is the first offset with every byte written
and read added; and the file holds the bytes of every chunk where it wrote them. -/
theorem shared_file_offset {readable writable : Bool} {v : View} (reachable : Reachable readable writable start v w) :
    (∀ pre s post, w.past = pre ++ s :: post → s.off = start + (pre.map Section.len).sum) ∧
      w.past.Pairwise (fun s t => s.off + s.len ≤ t.off) ∧
      w.off = start + (w.past.map Section.len).sum ∧
      ∀ p o bytes, Section.write p o bytes ∈ w.past →
        o + bytes.length ≤ w.view.size ∧ ∀ k (inBytes : k < bytes.length), w.view.bytes (o + k) = bytes[k] := by
  have good := reachable.good
  refine ⟨fun pre s post split => ?_, good.tiles.pairwise, good.tiles.stop_eq, good.written⟩
  have tiles := good.tiles
  rw [split] at tiles
  exact tiles.off_eq

/-- Two processes enter `filewrite` in one order and lock the inode in the other, and
a third reads at the end of the file in between. -/
theorem shared_file_offset_two_writers :
    let w := (Machine.run step (⟨true, true, 0, ⟨fun _ => 0, 0⟩, fun _ => none, []⟩ : World (Fin 3))
      [.filewrite 0 [1, 2], .filewrite 1 [3, 4, 5], .chunk 1, .fileread 2 10 0, .chunk 0]).getD
        ⟨true, true, 0, ⟨fun _ => 0, 0⟩, fun _ => none, []⟩
    w.off = 5 ∧
    (∀ pre s post, w.past = pre ++ s :: post → s.off = 0 + (pre.map Section.len).sum) ∧
      w.past.Pairwise (fun s t => s.off + s.len ≤ t.off) ∧
      w.off = 0 + (w.past.map Section.len).sum ∧
      ∀ p o bytes, Section.write p o bytes ∈ w.past →
        o + bytes.length ≤ w.view.size ∧ ∀ k (inBytes : k < bytes.length), w.view.bytes (o + k) = bytes[k] := by
  intro w
  have ran : Machine.run step (⟨true, true, 0, ⟨fun _ => 0, 0⟩, fun _ => none, []⟩ : World (Fin 3))
      [.filewrite 0 [1, 2], .filewrite 1 [3, 4, 5], .chunk 1, .fileread 2 10 0, .chunk 0] = some w := rfl
  exact ⟨rfl, shared_file_offset (Machine.reachable_of_run Relation.ReflTransGen.refl ran)⟩

/-! ### The sections over the model of `kernel/fs.c` -/

/-- The data of inode-table entry `ip`: the bytes of its blocks, and its size. -/
def inodeView (fs : FileSys) (ip : Fin nInode) : View :=
  ⟨fs.disk.byteAt (fs.itable ip).din, (fs.itable ip).din.size⟩

/-- Over a file with no hole below its size, with room for every byte, `readi` returns
`readiCount` bytes and changes nothing. -/
theorem readi_count {fs : FileSys} {ip : Fin nInode} {room off n : Nat}
    (roomy : readiCount (fs.itable ip).din.size off n ≤ room)
    (present : ∀ o, o < (fs.itable ip).din.size → fs.disk.blockOf (fs.itable ip).din (o / bSize) ≠ 0) :
    ∃ bytes, (readi ip room off n).run fs =
      (pure (((readiCount (fs.itable ip).din.size off n : Int), bytes), fs) : Except String _) := by
  unfold readiCount at roomy ⊢
  by_cases outside : (fs.itable ip).din.size < off ∨ (off + n) % 2 ^ 32 < off
  · rw [if_pos outside]
    refine ⟨[], ?_⟩
    simp only [readi, StateT.run_bind, StateT.run_get, pure_bind, if_pos outside]
    rfl
  rw [if_neg outside] at roomy ⊢
  -- the count clipped to the size, all of it inside the file
  have inside : off + (if (fs.itable ip).din.size < off + n then (fs.itable ip).din.size - off else n) ≤
      (fs.itable ip).din.size := by
    split <;> omega
  simp only [readi, StateT.run_bind, StateT.run_get, pure_bind, if_neg outside]
  exact ⟨_, readLoop_bytes roomy _ 0 off [] (Nat.zero_le _) (by omega) fun o _ before => present o (by omega)⟩

/-- Two views of one file: one size, and the same bytes below it. -/
def View.Agrees (v v' : View) : Prop :=
  v.size = v'.size ∧ ∀ p < v.size, v.bytes p = v'.bytes p

theorem View.Agrees.trans {v v' v'' : View} (first : v.Agrees v') (second : v'.Agrees v'') : v.Agrees v'' :=
  ⟨first.1.trans second.1, fun p below => (first.2 p below).trans (second.2 p (first.1 ▸ below))⟩

/-- A write at an offset inside the file keeps two views agreeing. -/
theorem View.Agrees.write {v v' : View} (agrees : v.Agrees v') {off : Nat} (inside : off ≤ v.size)
    (src : List UInt8) : (v.write off src).Agrees (v'.write off src) := by
  refine ⟨by simp only [View.write, agrees.1], fun p below => ?_⟩
  simp only [View.write] at below ⊢
  split_ifs with within
  · rfl
  · exact agrees.2 p (by omega)

/-- A `writei` that returns the length it was given passed its checks. -/
theorem writei_fits {fs0 fs : FileSys} {ip : Fin nInode} {src : List UInt8} {off n : Nat}
    (ran : (writei ip src off n).run fs0 = .ok ((n : Int), fs)) : writeiFits (fs0.itable ip).din.size off n := by
  by_cases first : (fs0.itable ip).din.size < off ∨ (off + n) % 2 ^ 32 < off
  · simp only [writei, StateT.run_bind, StateT.run_get, pure_bind, if_pos first] at ran
    cases ran
  by_cases second : maxFile * bSize < off + n
  · simp only [writei, StateT.run_bind, StateT.run_get, pure_bind, if_neg first, if_pos second] at ran
    cases ran
  exact ⟨first, second⟩

/-- Over a file with no hole below its size and its blocks kept apart, a `writei`
that writes every byte leaves the data `View.write` says, below the new size. -/
theorem writei_view {fs0 fs : FileSys} {ip : Fin nInode} {src : List UInt8} {off : Nat}
    (separate : Separate fs0.disk (fs0.itable ip).din)
    (present : ∀ o, o < (fs0.itable ip).din.size → fs0.disk.blockOf (fs0.itable ip).din (o / bSize) ≠ 0)
    (ran : (writei ip src off src.length).run fs0 = .ok ((src.length : Int), fs)) :
    (inodeView fs ip).Agrees ((inodeView fs0 ip).write off src) := by
  have inside : off ≤ (fs0.itable ip).din.size := by
    have first := (writei_fits ran).1
    omega
  have post := writei_written fs0 ip src off separate fs0 rfl
  rw [ran, Hoare.holds_ok] at post
  obtain ⟨written, ⟨addrs, table⟩, -, -⟩ := post rfl
  have size : (fs.itable ip).din.size = max (fs0.itable ip).din.size (off + src.length) := by
    rw [table, Function.update_self]
  refine ⟨size, fun p below => ?_⟩
  simp only [inodeView, View.write] at below ⊢
  split_ifs with inW
  · obtain ⟨k, rfl⟩ : ∃ k, p = off + k := ⟨p - off, by omega⟩
    rw [written.bytes k (by omega), Nat.add_sub_cancel_left, List.getD_eq_getElem?_getD,
      List.getElem?_eq_getElem (by omega), Option.getD_some]
  · have old : p < (fs0.itable ip).din.size := by
      rw [size] at below
      omega
    exact written.others p (by omega) (present p old)

/-- **A chunk over the model of `kernel/fs.c`.** A process's next chunk, over an
inode whose data the world's agrees with, with no hole below its size and its
blocks kept apart: when `writei` of the chunk's bytes at `f->off` returns their
number, the chunk step writes, and the inode's data after `writei` agrees with
the world's after the step. -/
theorem chunk_agrees {w w' : World P} {p : P} {src : List UInt8} {i : Nat}
    {fs0 fs : FileSys} {ip : Fin nInode} (calling : w.calls p = some ⟨src, i⟩)
    (stepped : step w (.chunk p) = some w') (agrees : (inodeView fs0 ip).Agrees w.view)
    (separate : Separate fs0.disk (fs0.itable ip).din)
    (present : ∀ o, o < (fs0.itable ip).din.size → fs0.disk.blockOf (fs0.itable ip).din (o / bSize) ≠ 0)
    (ran : (writei ip ((src.drop i).take (min (src.length - i) writeChunk)) w.off
      ((src.drop i).take (min (src.length - i) writeChunk)).length).run fs0 =
        .ok ((((src.drop i).take (min (src.length - i) writeChunk)).length : Int), fs)) :
    (inodeView fs ip).Agrees w'.view := by
  have length : ((src.drop i).take (min (src.length - i) writeChunk)).length = min (src.length - i) writeChunk := by
    simp only [List.length_take, List.length_drop]
    omega
  -- `writei` passed its checks over the inode's size, which is the world's
  have fits := writei_fits ran
  have inside : w.off ≤ (inodeView fs0 ip).size := by
    have first := fits.1
    simp only [inodeView]
    omega
  rw [length] at fits
  have fits' : writeiFits w.view.size w.off (min (src.length - i) writeChunk) := agrees.1 ▸ fits
  simp only [step, calling, if_pos fits'] at stepped
  cases stepped
  exact (writei_view separate present ran).trans (agrees.write inside _)

end Xv6.Fs.Shared
