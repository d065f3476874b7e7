import Xv6.Fs.DataView

/-!
Contract: a directory as a finite map from names, up to `namecmp`, to inode
numbers, and `dirlookup` and `dirlink` as its lookup and insertion.

The map is read off the data view of the directory's inode (`Disk.direntAt`):
`dirFind` is the first live entry `namecmp` matches, `dirSlot` the first free
entry or the end. Over a directory of whole entries (`Shaped`) with no block
missing (`Readable`), `dirlookup` returns what `dirFind` finds, referenced
through `iget`, and changes nothing. Where a block is missing, its `readi` has
`bmap` put a zeroed block there, so the directory reads as before
(`dirlookup_filled`), and the lookups of every other name still find what
`dirFind` finds (`dirlookup_other`).

`dirlink` of a name that some live entry of a directory with no block missing
matches returns -1 and leaves the directory as it was; of any other name, holes
or not, when its `writei` succeeds, it stores the entry at `dirSlot`, after
which the lookups of the names `namecmp` matches with it find the new entry and
all other lookups find what they found before.

An entry keeps its inode number in 16 bits: `dirlink` stores `inum % 65536`,
so an inode number from 65536 on is stored as another one, 65536 itself as a
free entry. The other conditions are needed too (`dirlink_beyond_map`): a
missing block is allocated by the lookup that finds a name past it; with no
free entry in the inode table `iget` panics, and with the directory's own entry
unreferenced `iget` takes it; a block of the directory free in the bitmap, or
kept at two places, ends up under two offsets.

Owns: `Disk.direntAt`, `Disk.dirFind`, `Disk.dirSlot`, `Shaped`, `Readable`,
`Distinct`, the equations of `readDirent`, `dirlookup` and `dirlinkSlot`, the
lookups through holes, and the finite-map theorem of `dirlink`.

Does not own: `dirlookup` and `dirlink` themselves (`Xv6.Fs.Dir`), the data
view and `Filled` (`Xv6.Fs.DataView`).
-/

namespace Xv6.Fs

/-! ### The entries of a directory -/

/-- The entry at byte offset `off` of the data of `din`. -/
def Disk.direntAt (d : Disk) (din : Dinode) (off : Nat) : Dirent :=
  Dirent.ofBytes ((List.range direntSize).map fun i => d.byteAt din (off + i))

/-- The entry at `off` is live and `namecmp` matches it with `name`. -/
def Disk.matchesAt (d : Disk) (din : Dinode) (name : List UInt8) (off : Nat) : Bool :=
  (d.direntAt din off).inum != 0 && namecmp name (d.direntAt din off).name == 0

/-- The first live entry of `din` that `namecmp` matches with `name`: its inode
number and its offset. -/
def Disk.dirFind (d : Disk) (din : Dinode) (name : List UInt8) : Option (Nat × Nat) :=
  ((direntOffsets 0 din.size).find? (d.matchesAt din name)).map fun off => ((d.direntAt din off).inum, off)

/-- The offset of the first free entry of `din`, else the end of its entries. -/
def Disk.dirSlot (d : Disk) (din : Dinode) : Nat :=
  ((direntOffsets 0 din.size).find? fun off => (d.direntAt din off).inum == 0).getD (direntEnd 0 din.size)

/-- A directory `dirlookup` walks entry by entry: a whole number of entries, in a
size that a `uint` holds. -/
structure Shaped (din : Dinode) : Prop where
  isDir : din.type = .dir
  whole : din.size % direntSize = 0
  small : din.size < 2 ^ 32

/-- A directory `dirlookup` reads without allocating: no block missing below its
size. -/
structure Readable (d : Disk) (din : Dinode) : Prop extends Shaped din where
  present : ∀ o, o < din.size → d.blockOf din (o / bSize) ≠ 0

/-- The live entries of `din` have names `namecmp` tells apart. -/
def Distinct (d : Disk) (din : Dinode) : Prop :=
  ∀ o ∈ direntOffsets 0 din.size, ∀ o' ∈ direntOffsets 0 din.size,
    (d.direntAt din o).inum ≠ 0 → (d.direntAt din o').inum ≠ 0 →
    namecmp (d.direntAt din o).name (d.direntAt din o').name = 0 → o = o'

/-! ### Offsets -/

/-- Over a whole number of entries, the loops visit the entry offsets below the size. -/
theorem mem_direntOffsets {size o : Nat} (whole : size % direntSize = 0) :
    o ∈ direntOffsets 0 size ↔ o % direntSize = 0 ∧ o < size := by
  simp only [direntOffsets, List.mem_map, List.mem_range, Nat.sub_zero, Nat.zero_add, direntSize] at whole ⊢
  constructor
  · rintro ⟨k, below, rfl⟩
    omega
  · rintro ⟨aligned, below⟩
    exact ⟨o / 16, by omega, by omega⟩

theorem direntEnd_eq {size : Nat} (whole : size % direntSize = 0) : direntEnd 0 size = size := by
  simp only [direntEnd, direntSize] at whole ⊢
  omega

/-- One entry more at the end. -/
theorem direntOffsets_succ {size : Nat} (whole : size % direntSize = 0) :
    direntOffsets 0 (size + direntSize) = direntOffsets 0 size ++ [size] := by
  have count : (size + direntSize - 0 + direntSize - 1) / direntSize =
      (size - 0 + direntSize - 1) / direntSize + 1 := by
    simp only [direntSize] at whole ⊢
    omega
  rw [direntOffsets, count, List.range_succ, List.map_append, direntOffsets]
  simp only [List.map_cons, List.map_nil, Nat.zero_add, List.append_cancel_left_eq, List.cons.injEq, and_true]
  simp only [direntSize] at whole ⊢
  omega

/-! ### Reading entries -/

/-- `readDirent` of an entry of a readable directory: the entry, nothing changed. -/
theorem readDirent_eq {fs : FileSys} {dp : Fin nInode} (readable : Readable fs.disk (fs.itable dp).din)
    {off : Nat} (member : off ∈ direntOffsets 0 (fs.itable dp).din.size) (msg : String) :
    (readDirent dp off msg).run fs = pure (fs.disk.direntAt (fs.itable dp).din off, fs) := by
  obtain ⟨aligned, below⟩ := (mem_direntOffsets readable.whole).mp member
  have inside : off + direntSize ≤ (fs.itable dp).din.size := by
    have := readable.whole
    simp only [direntSize] at aligned this ⊢
    omega
  have read := readi_bytes inside (lt_of_le_of_lt inside readable.small) (le_refl direntSize) readable.present
  simp only [readDirent, StateT.run_bind, read, pure_bind, ne_eq, not_true_eq_false, if_false]
  rfl

theorem matchesAt_iff (d : Disk) (din : Dinode) (name : List UInt8) (off : Nat) :
    d.matchesAt din name off = true ↔
      (d.direntAt din off).inum ≠ 0 ∧ namecmp name (d.direntAt din off).name = 0 := by
  simp [Disk.matchesAt]

section Lookup

variable {fs : FileSys} {dp : Fin nInode} {name : List UInt8}

/-- `dirlookup`'s loop over offsets with no matching entry: nothing found,
nothing changed. -/
theorem dirlookupAt_none (readable : Readable fs.disk (fs.itable dp).din) :
    ∀ offs, (∀ o ∈ offs, o ∈ direntOffsets 0 (fs.itable dp).din.size) →
      offs.find? (fs.disk.matchesAt (fs.itable dp).din name) = none →
      (dirlookupAt dp name offs).run fs = pure (none, fs)
  | [] => fun _ _ => rfl
  | off :: rest => fun inDir missing => by
    have notHere : ¬ fs.disk.matchesAt (fs.itable dp).din name off = true := by
      intro here
      rw [List.find?_cons_of_pos here] at missing
      cases missing
    rw [List.find?_cons_of_neg notHere] at missing
    rw [matchesAt_iff] at notHere
    simp only [dirlookupAt, StateT.run_bind, readDirent_eq readable (inDir off List.mem_cons_self), pure_bind,
      if_neg notHere]
    exact dirlookupAt_none readable rest (fun o member => inDir o (List.mem_cons_of_mem off member)) missing

/-- `dirlookup`'s loop over offsets whose first matching entry is at `off`:
`iget` of that entry's inode number. -/
theorem dirlookupAt_some (readable : Readable fs.disk (fs.itable dp).din) {off : Nat} :
    ∀ offs, (∀ o ∈ offs, o ∈ direntOffsets 0 (fs.itable dp).din.size) →
      offs.find? (fs.disk.matchesAt (fs.itable dp).din name) = some off →
      (dirlookupAt dp name offs).run fs =
        (do let ip ← iget (fs.disk.direntAt (fs.itable dp).din off).inum; pure (some (ip, off))).run fs
  | [] => fun _ found => by cases found
  | o :: rest => fun inDir found => by
    by_cases here : fs.disk.matchesAt (fs.itable dp).din name o = true
    · rw [List.find?_cons_of_pos here] at found
      rw [← Option.some.inj found]
      rw [matchesAt_iff] at here
      simp only [dirlookupAt, StateT.run_bind, readDirent_eq readable (inDir o List.mem_cons_self), pure_bind,
        if_pos here]
    · rw [List.find?_cons_of_neg here] at found
      rw [matchesAt_iff] at here
      simp only [dirlookupAt, StateT.run_bind, readDirent_eq readable (inDir o List.mem_cons_self), pure_bind,
        if_neg here]
      exact dirlookupAt_some readable rest (fun o' member => inDir o' (List.mem_cons_of_mem o member)) found

/-- `dirlookup` of a name no live entry matches: nothing found, nothing changed. -/
theorem dirlookup_none (readable : Readable fs.disk (fs.itable dp).din)
    (missing : fs.disk.dirFind (fs.itable dp).din name = none) :
    (dirlookup dp name).run fs = pure (none, fs) := by
  have isDir : ¬ (fs.itable dp).din.type ≠ .dir := not_not.mpr readable.isDir
  simp only [Disk.dirFind, Option.map_eq_none_iff] at missing
  simp only [dirlookup, StateT.run_bind, StateT.run_get, pure_bind, if_neg isDir]
  exact dirlookupAt_none readable _ (fun _ member => member) missing

/-- `dirlookup` of a name whose first matching entry names `inum` at `off`:
`iget inum`, with `off`. -/
theorem dirlookup_some (readable : Readable fs.disk (fs.itable dp).din) {inum off : Nat}
    (found : fs.disk.dirFind (fs.itable dp).din name = some (inum, off)) :
    (dirlookup dp name).run fs = (do let ip ← iget inum; pure (some (ip, off))).run fs := by
  have isDir : ¬ (fs.itable dp).din.type ≠ .dir := not_not.mpr readable.isDir
  simp only [Disk.dirFind, Option.map_eq_some_iff, Prod.mk.injEq] at found
  obtain ⟨o, first, rfl, rfl⟩ := found
  simp only [dirlookup, StateT.run_bind, StateT.run_get, pure_bind, if_neg isDir]
  exact dirlookupAt_some readable _ (fun _ member => member) first

end Lookup

/-! ### `iget` and `iput` -/

/-- The entry `iget inum` leaves at `ip`: one more reference to an entry that
held `inum`, or a free entry taken for it. -/
def Inode.got (e : Inode) (inum : Nat) : Inode :=
  if 0 < e.ref then { e with ref := e.ref + 1 } else { e with inum, ref := 1, valid := false }

/-- With a free entry in the table, `iget` returns an entry for `inum`. -/
theorem iget_room {fs : FileSys} (inum : Nat) (room : ∃ ip, (fs.itable ip).ref = 0) :
    ∃ ip, (iget inum).run fs =
        pure (ip, { fs with itable := Function.update fs.itable ip ((fs.itable ip).got inum) }) ∧
      (0 < (fs.itable ip).ref → (fs.itable ip).inum = inum) := by
  simp only [iget, StateT.run_bind, StateT.run_get, pure_bind]
  cases held : (List.finRange nInode).find? (fun ip => 0 < (fs.itable ip).ref ∧ (fs.itable ip).inum = inum) with
  | some ip =>
    have holds := List.find?_some held
    simp only [decide_eq_true_eq] at holds
    refine ⟨ip, ?_, fun _ => holds.2⟩
    simp [setInode, Inode.got, holds.1]
  | none =>
    cases free : (List.finRange nInode).find? (fun ip => (fs.itable ip).ref = 0) with
    | none =>
      obtain ⟨ip, zero⟩ := room
      have := List.find?_eq_none.mp free ip (List.mem_finRange ip)
      simp [zero] at this
    | some ip =>
      have zero := List.find?_some free
      simp only [decide_eq_true_eq] at zero
      refine ⟨ip, ?_, fun pos => absurd zero (Nat.pos_iff_ne_zero.mp pos)⟩
      simp [setInode, Inode.got, zero]

/-- `iput` of the entry `iget` just gave: the reference is dropped again. -/
theorem iput_got {fs : FileSys} {ip : Fin nInode} (inum : Nat) :
    (iput ip).run { fs with itable := Function.update fs.itable ip ((fs.itable ip).got inum) } =
      pure ((), { fs with
        itable := Function.update fs.itable ip { (fs.itable ip).got inum with ref := (fs.itable ip).ref } }) := by
  -- the entry `iget` leaves holds one reference more, or is a fresh one not yet valid
  have notLast : ¬ (((fs.itable ip).got inum).ref = 1 ∧ ((fs.itable ip).got inum).valid = true ∧
      ((fs.itable ip).got inum).din.nlink = 0) := by
    unfold Inode.got
    split
    · dsimp only
      omega
    · simp
  have dropped : ((fs.itable ip).got inum).ref - 1 = (fs.itable ip).ref := by
    unfold Inode.got
    split <;> dsimp only <;> omega
  simp only [iput, setInode, StateT.run_bind, StateT.run_get, pure_bind, Function.update_self, if_neg notLast,
    StateT.run_modify, Function.update_idem, dropped]

/-- After `iget` and `iput`, an entry that was in use is as it was. -/
theorem got_dropped_of_held {e : Inode} {inum : Nat} (held : 0 < e.ref) :
    { e.got inum with ref := e.ref } = e := by
  simp [Inode.got, held]

theorem got_inum {e : Inode} {inum : Nat} (held : 0 < e.ref → e.inum = inum) : (e.got inum).inum = inum := by
  unfold Inode.got
  split
  · exact held ‹_›
  · rfl

/-- What a `dirlookup` result tells its caller: the inode number of the entry it
returned, and the offset. -/
def lookedUp (fs : FileSys) (r : Option (Fin nInode × Nat)) : Option (Nat × Nat) :=
  r.map fun found => ((fs.itable found.1).inum, found.2)

/-- With a free entry in the inode table, `dirlookup` over a readable directory
returns, and what it returns is what `dirFind` finds. -/
theorem dirlookup_finds {fs : FileSys} {dp : Fin nInode} (name : List UInt8)
    (readable : Readable fs.disk (fs.itable dp).din) (room : ∃ ip, (fs.itable ip).ref = 0) :
    ∃ r fs', (dirlookup dp name).run fs = .ok (r, fs') ∧
      lookedUp fs' r = fs.disk.dirFind (fs.itable dp).din name := by
  cases found : fs.disk.dirFind (fs.itable dp).din name with
  | none => exact ⟨none, fs, dirlookup_none readable found, rfl⟩
  | some entry =>
    obtain ⟨inum, off⟩ := entry
    obtain ⟨ip, got, held⟩ := iget_room inum room
    refine ⟨some (ip, off), { fs with itable := Function.update fs.itable ip ((fs.itable ip).got inum) }, ?_, ?_⟩
    · rw [dirlookup_some readable found, StateT.run_bind, got]
      rfl
    · simp [lookedUp, got_inum held]

/-! ### Lookups through holes

A `dirlookup` that reads a hole has `bmap` allocate a zeroed block there, so the
directory reads as it did, now with the block in place (`Filled`). -/

namespace Filled

variable {fs fs' : FileSys} {dp : Fin nInode}

/-- Blocks put into holes leave every entry as it was. -/
theorem direntAt (filled : Filled dp fs fs') (off : Nat) :
    fs'.disk.direntAt (fs'.itable dp).din off = fs.disk.direntAt (fs.itable dp).din off := by
  simp only [Disk.direntAt, filled.view]

theorem matchesAt_eq (filled : Filled dp fs fs') (name : List UInt8) :
    fs'.disk.matchesAt (fs'.itable dp).din name = fs.disk.matchesAt (fs.itable dp).din name :=
  funext fun off => by simp only [Disk.matchesAt, filled.direntAt]

theorem dirFind (filled : Filled dp fs fs') (name : List UInt8) :
    fs'.disk.dirFind (fs'.itable dp).din name = fs.disk.dirFind (fs.itable dp).din name := by
  unfold Disk.dirFind
  rw [filled.matchesAt_eq, filled.only.size]
  simp only [filled.direntAt]

theorem dirSlot (filled : Filled dp fs fs') :
    fs'.disk.dirSlot (fs'.itable dp).din = fs.disk.dirSlot (fs.itable dp).din := by
  unfold Disk.dirSlot
  rw [filled.only.size]
  simp only [filled.direntAt]

theorem distinct (filled : Filled dp fs fs') (distinct : Distinct fs.disk (fs.itable dp).din) :
    Distinct fs'.disk (fs'.itable dp).din := by
  intro o member o' member'
  rw [filled.only.size] at member member'
  simp only [filled.direntAt]
  exact distinct o member o' member'

theorem shaped (filled : Filled dp fs fs') (shaped : Shaped (fs.itable dp).din) :
    Shaped (fs'.itable dp).din := by
  obtain ⟨addrs, din⟩ := filled.only.din
  rw [din]
  exact ⟨shaped.isDir, shaped.whole, shaped.small⟩

/-- Filling holes takes no entry of the inode table. -/
theorem room (filled : Filled dp fs fs') (room : ∃ ip, (fs.itable ip).ref = 0) :
    ∃ ip, (fs'.itable ip).ref = 0 := by
  obtain ⟨ip, zero⟩ := room
  exact ⟨ip, (filled.only.ref ip).trans zero⟩

end Filled

/-- A directory with the block of every entry there has no block missing below
its size. -/
theorem Readable.of_entries {d : Disk} {din : Dinode} (shaped : Shaped din)
    (entries : ∀ o ∈ direntOffsets 0 din.size, d.blockOf din (o / bSize) ≠ 0) : Readable d din := by
  refine ⟨shaped, fun o below => ?_⟩
  -- byte `o` lies in the block of the entry it belongs to
  have sameBlock : (o - o % direntSize) / bSize = o / bSize := by
    simp only [direntSize, bSize]
    omega
  have entry : o - o % direntSize ∈ direntOffsets 0 din.size := by
    rw [mem_direntOffsets shaped.whole]
    simp only [direntSize] at below ⊢
    omega
  rw [← sameBlock]
  exact entries _ entry

/-- `readDirent` of an entry of a directory that may have holes: the entry, with
at most a block put into a hole, and the entry's block there after. -/
theorem readDirent_filled (fs0 : FileSys) {dp : Fin nInode} (shaped : Shaped (fs0.itable dp).din)
    (separate : Separate fs0.disk (fs0.itable dp).din) {off : Nat}
    (member : off ∈ direntOffsets 0 (fs0.itable dp).din.size) {msg : String} (allowed : Allowed msg) :
    Hoare.Triple (· = fs0) (readDirent dp off msg) (fun de fs =>
      de = fs0.disk.direntAt (fs0.itable dp).din off ∧ Filled dp fs0 fs ∧
        fs.disk.blockOf (fs.itable dp).din (off / bSize) ≠ 0) Allowed := by
  obtain ⟨aligned, below⟩ := (mem_direntOffsets shaped.whole).mp member
  have inside : off + direntSize ≤ (fs0.itable dp).din.size := by
    have := shaped.whole
    simp only [direntSize] at aligned this ⊢
    omega
  have oneBlock : off % bSize + direntSize ≤ bSize := by
    simp only [bSize, direntSize] at aligned ⊢
    omega
  intro s pre
  subst pre
  simp only [readDirent, StateT.run_bind]
  refine (readi_filled s dp separate inside (lt_of_le_of_lt inside shaped.small) oneBlock (by decide) s rfl).bind
    fun result s1 read => ?_
  obtain ⟨r, bytes⟩ := result
  dsimp only
  split
  · rw [StateT.run_bind, Hoare.run_throw, Hoare.error_bind, Hoare.holds_error]
    exact allowed
  · rename_i full
    rw [StateT.run_pure, Hoare.holds_pure]
    obtain ⟨read, filled, there⟩ := read (not_not.mp full)
    dsimp only at read
    exact ⟨by rw [read]; rfl, filled, there⟩

/-- **`dirlookup`'s loop through holes.** Over entries no live one of which matches
`name`: nothing found, blocks put only into holes, and the block of every entry
read there after. -/
theorem dirlookupAt_filled {dp : Fin nInode} (name : List UInt8) :
    ∀ (offs : List Nat) (fs0 : FileSys), Shaped (fs0.itable dp).din → Separate fs0.disk (fs0.itable dp).din →
      (∀ o ∈ offs, o ∈ direntOffsets 0 (fs0.itable dp).din.size) →
      (∀ o ∈ offs, fs0.disk.matchesAt (fs0.itable dp).din name o = false) →
      Hoare.Triple (· = fs0) (dirlookupAt dp name offs) (fun r fs => r = none ∧ Filled dp fs0 fs ∧
        ∀ o ∈ offs, fs.disk.blockOf (fs.itable dp).din (o / bSize) ≠ 0) Allowed
  | [], _, _, separate, _, _ => by
    intro s pre
    subst pre
    simp only [dirlookupAt, StateT.run_pure, Hoare.holds_pure, true_and]
    exact ⟨Filled.refl separate, fun _ member => absurd member List.not_mem_nil⟩
  | off :: rest, _, shaped, separate, inDir, fresh => by
    intro s pre
    subst pre
    simp only [dirlookupAt, StateT.run_bind]
    refine (readDirent_filled s shaped separate (inDir off List.mem_cons_self) (by decide) s rfl).bind
      fun de s1 read => ?_
    obtain ⟨rfl, filled, there⟩ := read
    have notHere : ¬ ((s.disk.direntAt (s.itable dp).din off).inum ≠ 0 ∧
        namecmp name (s.disk.direntAt (s.itable dp).din off).name = 0) := by
      rw [← matchesAt_iff, fresh off List.mem_cons_self]
      exact Bool.false_ne_true
    dsimp only
    rw [if_neg notHere]
    -- the rest of the loop, from the state the read left, where the entries read the same
    have later := dirlookupAt_filled name rest s1 (filled.shaped shaped) filled.separate
      (fun o member => by rw [filled.only.size]; exact inDir o (List.mem_cons_of_mem off member))
      (fun o member => by rw [filled.matchesAt_eq]; exact fresh o (List.mem_cons_of_mem off member)) s1 rfl
    refine later.mono fun r fs ⟨nothing, filled', present⟩ => ⟨nothing, filled.trans filled', fun o member => ?_⟩
    rcases List.mem_cons.mp member with rfl | further
    · exact filled'.present _ there
    · exact present o further

/-- `dirlookup` of a name no live entry matches, in a directory that may have
holes: nothing found, the holes filled, and the directory readable after. -/
theorem dirlookup_filled (fs0 : FileSys) {dp : Fin nInode} {name : List UInt8}
    (shaped : Shaped (fs0.itable dp).din) (separate : Separate fs0.disk (fs0.itable dp).din)
    (fresh : ∀ o ∈ direntOffsets 0 (fs0.itable dp).din.size, fs0.disk.matchesAt (fs0.itable dp).din name o = false) :
    Hoare.Triple (· = fs0) (dirlookup dp name) (fun r fs => r = none ∧ Filled dp fs0 fs ∧
      Readable fs.disk (fs.itable dp).din) Allowed := by
  intro s pre
  subst pre
  have isDir : ¬ (s.itable dp).din.type ≠ .dir := not_not.mpr shaped.isDir
  simp only [dirlookup, StateT.run_bind, StateT.run_get, pure_bind, if_neg isDir]
  refine (dirlookupAt_filled name _ s shaped separate (fun _ member => member) fresh s rfl).mono
    fun r fs ⟨nothing, filled, present⟩ => ⟨nothing, filled, Readable.of_entries (filled.shaped shaped) ?_⟩
  rw [filled.only.size]
  exact present

/-- **Lookups of other names.** Where `dirlookup`'s loop for `name` went through
every entry, its loop for any `name2` returns too, with the first entry that
matches `name2`, given a free inode-table entry for its `iget`. -/
theorem dirlookupAt_other {dp : Fin nInode} {name : List UInt8} (name2 : List UInt8) :
    ∀ (offs : List Nat) (fs fs1 : FileSys), Shaped (fs.itable dp).din → Separate fs.disk (fs.itable dp).din →
      (∀ o ∈ offs, o ∈ direntOffsets 0 (fs.itable dp).din.size) → (∃ ip, (fs.itable ip).ref = 0) →
      (dirlookupAt dp name offs).run fs = .ok (none, fs1) →
      ∃ r2 fs2, (dirlookupAt dp name2 offs).run fs = .ok (r2, fs2) ∧
        lookedUp fs2 r2 = (offs.find? (fs.disk.matchesAt (fs.itable dp).din name2)).map
          fun off => ((fs.disk.direntAt (fs.itable dp).din off).inum, off)
  | [], fs, _, _, _, _, _, _ => ⟨none, fs, rfl, rfl⟩
  | off :: rest, fs, fs1, shaped, separate, inDir, room, ran => by
    have read := readDirent_filled fs shaped separate (inDir off List.mem_cons_self)
      (by decide : Allowed "dirlookup read") fs rfl
    simp only [dirlookupAt, StateT.run_bind] at ran ⊢
    -- the read is the same for both names, and returned in the run for `name`
    cases readRun : (readDirent dp off "dirlookup read").run fs with
    | error e =>
      rw [readRun] at ran
      cases ran
    | ok result =>
      obtain ⟨de, fsA⟩ := result
      rw [readRun, Hoare.holds_ok] at read
      obtain ⟨rfl, filled, -⟩ := read
      rw [readRun, Hoare.ok_bind] at ran
      rw [Hoare.ok_bind]
      dsimp only at ran ⊢
      have roomA := filled.room room
      by_cases here : (fs.disk.direntAt (fs.itable dp).din off).inum ≠ 0 ∧
          namecmp name (fs.disk.direntAt (fs.itable dp).din off).name = 0
      · -- `name` matched here: its run would have returned the entry, not nothing
        rw [if_pos here, StateT.run_bind] at ran
        cases got : (iget (fs.disk.direntAt (fs.itable dp).din off).inum).run fsA with
        | error e =>
          rw [got] at ran
          cases ran
        | ok result =>
          rw [got] at ran
          cases ran
      rw [if_neg here] at ran
      have matchesHere := matchesAt_iff fs.disk (fs.itable dp).din name2 off
      by_cases here2 : (fs.disk.direntAt (fs.itable dp).din off).inum ≠ 0 ∧
          namecmp name2 (fs.disk.direntAt (fs.itable dp).din off).name = 0
      · -- `name2` matches here: `iget` of the entry's inode
        obtain ⟨ip, got, held⟩ := iget_room (fs.disk.direntAt (fs.itable dp).din off).inum roomA
        rw [if_pos here2, StateT.run_bind, got]
        refine ⟨_, _, rfl, ?_⟩
        rw [List.find?_cons_of_pos (matchesHere.mpr here2)]
        simp [lookedUp, got_inum held]
      · -- neither matches: the rest of the loop, from the state the read left
        rw [if_neg here2]
        obtain ⟨r2, fs2, ran2, looked⟩ := dirlookupAt_other name2 rest fsA fs1 (filled.shaped shaped)
          filled.separate (fun o member => by rw [filled.only.size]; exact inDir o (List.mem_cons_of_mem off member))
          roomA ran
        refine ⟨r2, fs2, ran2, ?_⟩
        rw [looked, filled.matchesAt_eq, List.find?_cons_of_neg (fun holds => here2 (matchesHere.mp holds))]
        simp only [filled.direntAt]

/-- `dirlookup` of any name, where a `dirlookup` went through every entry: it
returns what `dirFind` finds. -/
theorem dirlookup_other {fs fs1 : FileSys} {dp : Fin nInode} {name : List UInt8} (shaped : Shaped (fs.itable dp).din)
    (separate : Separate fs.disk (fs.itable dp).din) (room : ∃ ip, (fs.itable ip).ref = 0)
    (ran : (dirlookup dp name).run fs = .ok (none, fs1)) (name2 : List UInt8) :
    ∃ r2 fs2, (dirlookup dp name2).run fs = .ok (r2, fs2) ∧
      lookedUp fs2 r2 = fs.disk.dirFind (fs.itable dp).din name2 := by
  have isDir : ¬ (fs.itable dp).din.type ≠ .dir := not_not.mpr shaped.isDir
  simp only [dirlookup, StateT.run_bind, StateT.run_get, pure_bind, if_neg isDir] at ran ⊢
  exact dirlookupAt_other name2 _ fs fs1 shaped separate (fun _ member => member) room ran

/-! ### Names -/

theorem cstr_cons {c : UInt8} (nonzero : c ≠ 0) (l : List UInt8) : cstr (c :: l) = c :: cstr l := by
  simp [cstr, nonzero]

/-- `strncpy` keeps the C string of the first `n` bytes. -/
theorem cstr_strncpy (t : List UInt8) (n : Nat) : cstr (strncpy t n) = cstr (t.take n) := by
  induction n generalizing t with
  | zero => cases t <;> rfl
  | succ n ih =>
    cases t with
    | nil => simp [strncpy, cstr, List.replicate_succ]
    | cons c t =>
      by_cases zero : c = 0
      · simp [strncpy, cstr, zero, List.replicate_succ]
      · rw [strncpy, if_neg zero, List.take_succ_cons, cstr_cons zero, cstr_cons zero, ih]

theorem namecmp_eq_zero_iff (s t : List UInt8) :
    namecmp s t = 0 ↔ cstr (s.take dirSiz) = cstr (t.take dirSiz) :=
  strncmp_eq_zero_iff s t dirSiz

theorem namecmp_comm {s t : List UInt8} : namecmp s t = 0 ↔ namecmp t s = 0 := by
  simp only [namecmp_eq_zero_iff]
  exact eq_comm

theorem namecmp_trans {s t u : List UInt8} (st : namecmp s t = 0) (tu : namecmp t u = 0) :
    namecmp s u = 0 := by
  rw [namecmp_eq_zero_iff] at st tu ⊢
  exact st.trans tu

/-- The name `dirlink` stores compares as the name it was given. -/
theorem namecmp_strncpy (s t : List UInt8) : namecmp (strncpy s dirSiz) t = 0 ↔ namecmp s t = 0 := by
  have whole : (strncpy s dirSiz).take dirSiz = strncpy s dirSiz := List.take_of_length_le (by simp)
  rw [namecmp_eq_zero_iff, namecmp_eq_zero_iff, whole, cstr_strncpy]

/-! ### Storing one entry -/

/-- No live entry matching `name`: `dirFind` finds nothing. -/
theorem dirFind_of_fresh {d : Disk} {din : Dinode} {name : List UInt8}
    (fresh : ∀ o ∈ direntOffsets 0 din.size, d.matchesAt din name o = false) : d.dirFind din name = none := by
  simp only [Disk.dirFind, Option.map_eq_none_iff, List.find?_eq_none]
  intro o member
  rw [fresh o member]
  exact Bool.false_ne_true

/-- A live entry matching `name`: `dirFind` finds one. -/
theorem dirFind_ne_none {d : Disk} {din : Dinode} {name : List UInt8} {off : Nat}
    (member : off ∈ direntOffsets 0 din.size) (matched : d.matchesAt din name off = true) :
    d.dirFind din name ≠ none := by
  intro missing
  simp only [Disk.dirFind, Option.map_eq_none_iff] at missing
  exact List.find?_eq_none.mp missing off member matched

/-- A live entry that matches a name `namecmp` equates with `name` matches `name`. -/
theorem fresh_of_namecmp {d : Disk} {din : Dinode} {name name2 : List UInt8} (same : namecmp name name2 = 0)
    (fresh : ∀ o ∈ direntOffsets 0 din.size, d.matchesAt din name o = false) :
    ∀ o ∈ direntOffsets 0 din.size, d.matchesAt din name2 o = false := by
  intro o member
  rw [← Bool.not_eq_true, matchesAt_iff]
  rintro ⟨live, like⟩
  have matched : d.matchesAt din name o = true := (matchesAt_iff _ _ _ _).mpr ⟨live, namecmp_trans same like⟩
  rw [fresh o member] at matched
  cases matched

theorem find?_of_unique {α : Type} {p : α → Bool} {a : α} :
    ∀ {l : List α}, a ∈ l → p a = true → (∀ b ∈ l, p b = true → b = a) → l.find? p = some a
  | b :: l, member, holds, unique => by
    by_cases here : p b = true
    · rw [List.find?_cons_of_pos here, unique b List.mem_cons_self here]
    · rw [List.find?_cons_of_neg here]
      rcases List.mem_cons.mp member with rfl | later
      · exact absurd holds here
      · exact find?_of_unique later holds fun c inTail holdsC => unique c (List.mem_cons_of_mem b inTail) holdsC

/-- The entries of a directory after `de` is stored at `slot`, a free entry or
the one past the end: every other entry as it was. -/
structure Stored (d : Disk) (din : Dinode) (d' : Disk) (din' : Dinode) (slot : Nat) (de : Dirent) : Prop where
  entry : d'.direntAt din' slot = de
  others : ∀ o ∈ direntOffsets 0 din.size, o ≠ slot → d'.direntAt din' o = d.direntAt din o
  free : slot ∈ direntOffsets 0 din.size → (d.direntAt din slot).inum = 0
  placed : slot ∈ direntOffsets 0 din'.size
  offsets : direntOffsets 0 din'.size = direntOffsets 0 din.size ∨
    direntOffsets 0 din'.size = direntOffsets 0 din.size ++ [slot]

namespace Stored

variable {d d' : Disk} {din din' : Dinode} {slot : Nat} {de : Dirent}

theorem mem_offsets (stored : Stored d din d' din' slot de) {o : Nat} (member : o ∈ direntOffsets 0 din'.size)
    (other : o ≠ slot) : o ∈ direntOffsets 0 din.size := by
  rcases stored.offsets with same | appended
  · rwa [same] at member
  · rw [appended, List.mem_append, List.mem_singleton] at member
    exact member.resolve_right other

theorem matchesAt_slot (stored : Stored d din d' din' slot de) (name : List UInt8) :
    d'.matchesAt din' name slot = (de.inum != 0 && namecmp name de.name == 0) := by
  simp only [Disk.matchesAt, stored.entry]

/-- Where the new entry does not match, every entry of the old directory matches
after as it did before. -/
theorem matchesAt_eq (stored : Stored d din d' din' slot de) {name : List UInt8}
    (unlike : ¬ (de.inum ≠ 0 ∧ namecmp name de.name = 0)) :
    ∀ o ∈ direntOffsets 0 din.size, d'.matchesAt din' name o = d.matchesAt din name o := by
  intro o member
  by_cases at_slot : o = slot
  · subst at_slot
    -- the slot was free before, and holds a non-matching entry after
    have wasFree : ¬ ((d.direntAt din o).inum ≠ 0 ∧ namecmp name (d.direntAt din o).name = 0) :=
      fun live => live.1 (stored.free member)
    rw [Bool.eq_iff_iff, matchesAt_iff, matchesAt_iff, stored.entry]
    exact iff_of_false unlike wasFree
  · simp only [Disk.matchesAt, stored.others o member at_slot]

/-- A name the new entry does not match is found where it was found before. -/
theorem dirFind_other (stored : Stored d din d' din' slot de) {name : List UInt8}
    (unlike : ¬ (de.inum ≠ 0 ∧ namecmp name de.name = 0)) :
    d'.dirFind din' name = d.dirFind din name := by
  have agree := stored.matchesAt_eq unlike
  have notSlot : d'.matchesAt din' name slot = false := by
    rw [← Bool.not_eq_true, matchesAt_iff, stored.entry]
    exact unlike
  have first : (direntOffsets 0 din'.size).find? (d'.matchesAt din' name) =
      (direntOffsets 0 din.size).find? (d.matchesAt din name) := by
    rcases stored.offsets with same | appended
    · rw [same]
      exact List.find?_congr agree
    · rw [appended, List.find?_append, List.find?_congr agree, List.find?_singleton, notSlot]
      simp
  unfold Disk.dirFind
  rw [first]
  cases found : (direntOffsets 0 din.size).find? (d.matchesAt din name) with
  | none => rfl
  | some o =>
    have member := List.mem_of_find?_eq_some found
    have moved : o ≠ slot := by
      rintro rfl
      have holds := List.find?_some found
      rw [← agree o member, notSlot] at holds
      cases holds
    simp only [Option.map_some, stored.others o member moved]

/-- A name that the new entry matches, and no old live entry does, is found at
the slot. -/
theorem dirFind_same (stored : Stored d din d' din' slot de) {name : List UInt8}
    (fresh : ∀ o ∈ direntOffsets 0 din.size, d.matchesAt din name o = false)
    (like : de.inum ≠ 0 ∧ namecmp name de.name = 0) :
    d'.dirFind din' name = some (de.inum, slot) := by
  have matched : d'.matchesAt din' name slot = true := by
    rw [matchesAt_iff, stored.entry]
    exact like
  have unique : ∀ o ∈ direntOffsets 0 din'.size, d'.matchesAt din' name o = true → o = slot := by
    intro o member holds
    by_contra moved
    have old := stored.mem_offsets member moved
    rw [Disk.matchesAt, stored.others o old moved, ← Disk.matchesAt, fresh o old] at holds
    cases holds
  simp only [Disk.dirFind, find?_of_unique stored.placed matched unique, Option.map_some, stored.entry]

/-- Storing an entry whose name no old live entry has keeps the live names apart. -/
theorem distinct (stored : Stored d din d' din' slot de) (distinct : Distinct d din)
    (fresh : ∀ o ∈ direntOffsets 0 din.size, (d.direntAt din o).inum ≠ 0 → namecmp de.name (d.direntAt din o).name ≠ 0) :
    Distinct d' din' := by
  intro o member o' member' live live' same
  by_cases at_slot : o = slot <;> by_cases at_slot' : o' = slot
  · rw [at_slot, at_slot']
  · -- the new entry against an old one
    have old' := stored.mem_offsets member' at_slot'
    rw [at_slot, stored.entry, stored.others o' old' at_slot'] at same
    rw [stored.others o' old' at_slot'] at live'
    exact absurd same (fresh o' old' live')
  · have old := stored.mem_offsets member at_slot
    rw [at_slot', stored.entry, stored.others o old at_slot] at same
    rw [stored.others o old at_slot] at live
    exact absurd (namecmp_comm.mp same) (fresh o old live)
  · have old := stored.mem_offsets member at_slot
    have old' := stored.mem_offsets member' at_slot'
    rw [stored.others o old at_slot] at live same
    rw [stored.others o' old' at_slot'] at live' same
    exact distinct o old o' old' live live' same

/-- The finite map after the store: the names `namecmp` equates with `name` map
to the new entry, all others to what they mapped to before. -/
theorem dirFind_eq (stored : Stored d din d' din' slot de) {name : List UInt8}
    (fresh : ∀ o ∈ direntOffsets 0 din.size, d.matchesAt din name o = false) (live : de.inum ≠ 0)
    (named : ∀ t, namecmp de.name t = 0 ↔ namecmp name t = 0) (name2 : List UInt8) :
    d'.dirFind din' name2 = if namecmp name name2 = 0 then some (de.inum, slot) else d.dirFind din name2 := by
  by_cases same : namecmp name name2 = 0
  · rw [if_pos same]
    exact stored.dirFind_same (fresh_of_namecmp same fresh) ⟨live, namecmp_comm.mp ((named name2).mpr same)⟩
  · rw [if_neg same]
    exact stored.dirFind_other fun like => same ((named name2).mp (namecmp_comm.mp like.2))

end Stored

/-! ### The slot `dirlink` writes -/

/-- `dirlink`'s slot is a free entry of the directory, or its end. -/
theorem dirSlot_cases {d : Disk} {din : Dinode} (whole : din.size % direntSize = 0) :
    (d.dirSlot din ∈ direntOffsets 0 din.size ∧ (d.direntAt din (d.dirSlot din)).inum = 0) ∨
      d.dirSlot din = din.size := by
  unfold Disk.dirSlot
  cases found : (direntOffsets 0 din.size).find? (fun off => (d.direntAt din off).inum == 0) with
  | none => exact .inr (direntEnd_eq whole)
  | some o =>
    have free := List.find?_some found
    simp only [beq_iff_eq] at free
    exact .inl ⟨List.mem_of_find?_eq_some found, free⟩

theorem dirSlot_aligned {d : Disk} {din : Dinode} (whole : din.size % direntSize = 0) :
    d.dirSlot din % direntSize = 0 ∧ d.dirSlot din ≤ din.size := by
  rcases dirSlot_cases whole with ⟨member, -⟩ | atEnd
  · obtain ⟨aligned, below⟩ := (mem_direntOffsets whole).mp member
    exact ⟨aligned, below.le⟩
  · rw [atEnd]
    exact ⟨whole, le_rfl⟩

/-- `dirlinkSlot` over the entries of a readable directory finds `dirSlot`'s
offset and changes nothing. -/
theorem dirlinkSlot_eq {fs : FileSys} {dp : Fin nInode} (readable : Readable fs.disk (fs.itable dp).din)
    (endOff : Nat) :
    ∀ offs, (∀ o ∈ offs, o ∈ direntOffsets 0 (fs.itable dp).din.size) →
      (dirlinkSlot dp endOff offs).run fs =
        pure ((offs.find? fun off => (fs.disk.direntAt (fs.itable dp).din off).inum == 0).getD endOff, fs)
  | [] => fun _ => rfl
  | o :: rest => fun inDir => by
    by_cases free : (fs.disk.direntAt (fs.itable dp).din o).inum = 0
    · have first : (fs.disk.direntAt (fs.itable dp).din o).inum == 0 := beq_iff_eq.mpr free
      simp only [dirlinkSlot, StateT.run_bind, readDirent_eq readable (inDir o List.mem_cons_self), pure_bind,
        if_pos free, List.find?_cons, first]
      rfl
    · have later : ¬ (fs.disk.direntAt (fs.itable dp).din o).inum == 0 := by
        rwa [beq_iff_eq]
      simp only [dirlinkSlot, StateT.run_bind, readDirent_eq readable (inDir o List.mem_cons_self), pure_bind,
        if_neg free, List.find?_cons, later]
      exact dirlinkSlot_eq readable endOff rest fun o' member => inDir o' (List.mem_cons_of_mem o member)

/-! ### The write -/

/-- Below the size every block is there, so a readable directory ends within the
blocks an inode maps. -/
theorem Readable.size_le {d : Disk} {din : Dinode} (readable : Readable d din) : din.size ≤ maxFile * bSize := by
  by_contra past
  have mapped := Disk.lt_maxFile_of_blockOf (readable.present (maxFile * bSize) (by omega))
  rw [Nat.mul_div_cancel _ (by decide : 0 < bSize)] at mapped
  exact lt_irrefl _ mapped

section Write

variable {fs fs' : FileSys} {dp : Fin nInode}

/-- An entry written at `dirlink`'s slot is stored there, with every other entry kept. -/
theorem stored_of_written {de : Dirent} (readable : Readable fs.disk (fs.itable dp).din)
    (fits : de.inum < 65536) (named : de.name.length = dirSiz)
    (written : Written dp de.toBytes (fs.disk.dirSlot (fs.itable dp).din) fs fs')
    (sized : (fs'.itable dp).din.size =
      max (fs.itable dp).din.size (fs.disk.dirSlot (fs.itable dp).din + direntSize)) :
    Stored fs.disk (fs.itable dp).din fs'.disk (fs'.itable dp).din (fs.disk.dirSlot (fs.itable dp).din) de := by
  have length : de.toBytes.length = direntSize := by
    simp [named, dirSiz, direntSize]
  have whole := readable.whole
  obtain ⟨aligned, within⟩ := dirSlot_aligned (d := fs.disk) whole
  have whole' : (fs'.itable dp).din.size % direntSize = 0 := by
    rw [sized]
    simp only [direntSize] at whole aligned ⊢
    omega
  refine ⟨?_, ?_, ?_, ?_, ?_⟩
  · -- the 16 bytes read back are the entry's
    have bytes : (List.range direntSize).map (fun i => fs'.disk.byteAt (fs'.itable dp).din
        (fs.disk.dirSlot (fs.itable dp).din + i)) = de.toBytes := by
      apply List.ext_getElem (by simp [length])
      intro i inRange inBytes
      rw [List.getElem_map, List.getElem_range]
      exact written.bytes i inBytes
    rw [Disk.direntAt, bytes, Dirent.ofBytes_toBytes fits named]
  · -- another entry lies wholly before or after the slot
    intro o member moved
    obtain ⟨alignedO, below⟩ := (mem_direntOffsets whole).mp member
    unfold Disk.direntAt
    congr 1
    apply List.map_congr_left
    intro i inRange
    rw [List.mem_range] at inRange
    apply written.others
    · rw [length]
      simp only [direntSize] at alignedO aligned inRange ⊢
      omega
    · apply readable.present
      simp only [direntSize] at alignedO whole inRange
      omega
  · intro member
    rcases dirSlot_cases (d := fs.disk) whole with ⟨-, free⟩ | atEnd
    · exact free
    · have := ((mem_direntOffsets whole).mp member).2
      omega
  · rw [mem_direntOffsets whole', sized]
    exact ⟨aligned, by simp only [direntSize]; omega⟩
  · rcases dirSlot_cases (d := fs.disk) whole with ⟨member, -⟩ | atEnd
    · -- a free entry: the size stays
      have inside : fs.disk.dirSlot (fs.itable dp).din + direntSize ≤ (fs.itable dp).din.size := by
        have := ((mem_direntOffsets whole).mp member).2
        simp only [direntSize] at whole aligned this ⊢
        omega
      left
      rw [sized, max_eq_left inside]
    · -- the end: one entry more
      right
      rw [sized, atEnd, max_eq_right (Nat.le_add_right _ _), direntOffsets_succ whole]

/-- After an entry is written at `dirlink`'s slot, the directory is still readable. -/
theorem readable_of_written {src : List UInt8} (readable : Readable fs.disk (fs.itable dp).din)
    (written : Written dp src (fs.disk.dirSlot (fs.itable dp).din) fs fs') (entrySized : src.length = direntSize)
    (typed : (fs'.itable dp).din.type = (fs.itable dp).din.type)
    (sized : (fs'.itable dp).din.size =
      max (fs.itable dp).din.size (fs.disk.dirSlot (fs.itable dp).din + direntSize)) :
    Readable fs'.disk (fs'.itable dp).din := by
  have whole := readable.whole
  have bounded := readable.size_le
  obtain ⟨aligned, within⟩ := dirSlot_aligned (d := fs.disk) whole
  have room : maxFile * bSize + direntSize < 2 ^ 32 := by decide
  refine ⟨⟨typed ▸ readable.isDir, ?_, ?_⟩, ?_⟩
  · rw [sized]
    simp only [direntSize] at whole aligned ⊢
    omega
  · rw [sized]
    omega
  · intro o below
    by_cases same : o / bSize = fs.disk.dirSlot (fs.itable dp).din / bSize
    · rw [same]
      simpa using written.covered 0 (by rw [entrySized]; decide)
    · apply written.present
      apply readable.present
      -- past the old size lies only the new entry, inside the slot's block
      rw [sized] at below
      simp only [bSize, direntSize] at same aligned below
      omega

end Write

/-! ### `dirlink` -/

section Link

variable {fs : FileSys} {dp : Fin nInode} {name : List UInt8} {inum : Nat}

/-- `dirlink` of a name some live entry matches returns -1, having only taken and
dropped a reference to that entry's inode. -/
theorem dirlink_of_found (readable : Readable fs.disk (fs.itable dp).din) (room : ∃ ip, (fs.itable ip).ref = 0)
    {found : Nat × Nat} (matched : fs.disk.dirFind (fs.itable dp).din name = some found) :
    ∃ ip, (dirlink dp name inum).run fs = .ok (-1, { fs with
      itable := Function.update fs.itable ip { (fs.itable ip).got found.1 with ref := (fs.itable ip).ref } }) := by
  obtain ⟨ip, got, -⟩ := iget_room found.1 room
  refine ⟨ip, ?_⟩
  simp only [dirlink, StateT.run_bind, dirlookup_some readable matched, got, pure_bind]
  simp only [StateT.run_pure, pure_bind, StateT.run_bind, iput_got]
  rfl

/-- `dirlink` of a name no live entry matches: the `writei` of the entry at
`dirSlot`, and 0 when it writes the whole entry. -/
theorem dirlink_of_missing (readable : Readable fs.disk (fs.itable dp).din)
    (missing : fs.disk.dirFind (fs.itable dp).din name = none) :
    (dirlink dp name inum).run fs = (do
      let n ← writei dp (⟨inum % 65536, strncpy name dirSiz⟩ : Dirent).toBytes (fs.disk.dirSlot (fs.itable dp).din)
        direntSize
      if n ≠ direntSize then return -1
      return 0).run fs := by
  simp only [dirlink, StateT.run_bind, dirlookup_none readable missing, pure_bind, StateT.run_get,
    dirlinkSlot_eq readable _ _ (fun _ member => member)]
  rfl

/-- When `dirlink` of a name no live entry matches returns 0, its `writei` wrote
the whole entry at `dirSlot`, changing only `dp`'s addresses and size. -/
theorem dirlink_written (readable : Readable fs.disk (fs.itable dp).din) (separate : Separate fs.disk (fs.itable dp).din)
    (missing : fs.disk.dirFind (fs.itable dp).din name = none) {r : Int} {fs' : FileSys}
    (ran : (dirlink dp name inum).run fs = .ok (r, fs')) (zero : r = 0) :
    Written dp (⟨inum % 65536, strncpy name dirSiz⟩ : Dirent).toBytes (fs.disk.dirSlot (fs.itable dp).din) fs fs' ∧
      ∃ addrs, fs'.itable = Function.update fs.itable dp { fs.itable dp with
        din := { (fs.itable dp).din with
          addrs
          size := max (fs.itable dp).din.size (fs.disk.dirSlot (fs.itable dp).din + direntSize) } } := by
  have length : (⟨inum % 65536, strncpy name dirSiz⟩ : Dirent).toBytes.length = direntSize := by
    simp [dirSiz, direntSize]
  have post := writei_written fs dp (⟨inum % 65536, strncpy name dirSiz⟩ : Dirent).toBytes
    (fs.disk.dirSlot (fs.itable dp).din) separate fs rfl
  rw [length] at post
  rw [dirlink_of_missing readable missing, StateT.run_bind] at ran
  cases wrote : (writei dp (⟨inum % 65536, strncpy name dirSiz⟩ : Dirent).toBytes
      (fs.disk.dirSlot (fs.itable dp).din) direntSize).run fs with
  | error e =>
    rw [wrote] at ran
    cases ran
  | ok result =>
    obtain ⟨n, fs2⟩ := result
    rw [wrote, Hoare.ok_bind] at ran
    rw [wrote, Hoare.holds_ok] at post
    by_cases short : n ≠ direntSize
    · -- a short write returns -1
      rw [if_pos short, StateT.run_pure] at ran
      cases ran
      cases zero
    · rw [if_neg short, StateT.run_pure] at ran
      cases ran
      obtain ⟨written, table, -, -⟩ := post (not_not.mp short)
      exact ⟨written, table⟩

/-- `dirlink` goes on from the state its `dirlookup` leaves. -/
theorem dirlink_run_congr {fs fs1 : FileSys} (same : (dirlookup dp name).run fs = (dirlookup dp name).run fs1) :
    (dirlink dp name inum).run fs = (dirlink dp name inum).run fs1 := by
  simp only [dirlink, StateT.run_bind, same]

/-- The store of `dirlink` into a directory with no block missing, when it returns
0: the size covers the slot, the entry is there, `dirlookup` after finds the new
entry for the names `namecmp` equates with `name` and what `dirFind` found before
for the others, and the live names stay apart. -/
theorem dirlink_stores (readable : Readable fs.disk (fs.itable dp).din)
    (separate : Separate fs.disk (fs.itable dp).din) (distinct : Distinct fs.disk (fs.itable dp).din)
    (room : ∃ ip, (fs.itable ip).ref = 0) (live : inum ≠ 0) (fits : inum < 65536)
    (fresh : ∀ off ∈ direntOffsets 0 (fs.itable dp).din.size, fs.disk.matchesAt (fs.itable dp).din name off = false)
    {r : Int} {fs' : FileSys} (ran : (dirlink dp name inum).run fs = .ok (r, fs')) (zero : r = 0) :
    (fs'.itable dp).din.size = max (fs.itable dp).din.size (fs.disk.dirSlot (fs.itable dp).din + direntSize) ∧
      fs'.disk.direntAt (fs'.itable dp).din (fs.disk.dirSlot (fs.itable dp).din) = ⟨inum, strncpy name dirSiz⟩ ∧
      (∀ name2, ∃ r2 fs2, (dirlookup dp name2).run fs' = .ok (r2, fs2) ∧
        lookedUp fs2 r2 = if namecmp name name2 = 0 then some (inum, fs.disk.dirSlot (fs.itable dp).din)
          else fs.disk.dirFind (fs.itable dp).din name2) ∧
      Distinct fs'.disk (fs'.itable dp).din := by
  obtain ⟨written, addrs, table⟩ := dirlink_written readable separate (dirFind_of_fresh fresh) ran zero
  have entry := congrFun table dp
  rw [Function.update_self] at entry
  have sized : (fs'.itable dp).din.size =
      max (fs.itable dp).din.size (fs.disk.dirSlot (fs.itable dp).din + direntSize) := by
    rw [entry]
  have kept : ∀ ip, (fs'.itable ip).ref = (fs.itable ip).ref := by
    intro ip
    rw [table]
    by_cases same : ip = dp
    · rw [same, Function.update_self]
    · rw [Function.update_of_ne same]
  have stored := stored_of_written readable (Nat.mod_lt inum (by decide)) (strncpy_length name dirSiz) written sized
  have readable' := readable_of_written readable written (by simp [dirSiz, direntSize]) (by rw [entry]) sized
  have room' : ∃ ip, (fs'.itable ip).ref = 0 := by
    obtain ⟨ip, zero⟩ := room
    exact ⟨ip, (kept ip).trans zero⟩
  rw [Nat.mod_eq_of_lt fits] at stored
  refine ⟨sized, stored.entry, fun name2 => ?_, stored.distinct distinct fun o member live' like => ?_⟩
  · obtain ⟨r2, fs2, run2, view2⟩ := dirlookup_finds name2 readable' room'
    exact ⟨r2, fs2, run2, by rw [view2]; exact stored.dirFind_eq fresh live (namecmp_strncpy name) name2⟩
  · have matched := (matchesAt_iff _ _ _ _).mpr ⟨live', (namecmp_strncpy name _).mp like⟩
    rw [fresh o member] at matched
    cases matched

/-- `dirlink` on a directory read as a finite map from names, up to `namecmp`, to
inode numbers, for an inode number below 65536: a name already there, in a
directory with no block missing, gives -1 and leaves the directory as it was;
any other name, holes or not, when the write succeeds, is stored at `dirSlot`,
after which `dirlookup` finds the new entry for exactly the names `namecmp`
equates with it, finds what it found before for all others, and the live names
stay apart. -/
theorem dirlink_finite_map (fs : FileSys) (dp : Fin nInode) (name : List UInt8) (inum : Nat)
    (shaped : Shaped (fs.itable dp).din) (separate : Separate fs.disk (fs.itable dp).din)
    (distinct : Distinct fs.disk (fs.itable dp).din) (held : 0 < (fs.itable dp).ref)
    (room : ∃ ip, (fs.itable ip).ref = 0) (live : inum ≠ 0) (fits : inum < 65536) :
    ((∀ o, o < (fs.itable dp).din.size → fs.disk.blockOf (fs.itable dp).din (o / bSize) ≠ 0) →
      (∃ off ∈ direntOffsets 0 (fs.itable dp).din.size, fs.disk.matchesAt (fs.itable dp).din name off = true) →
      ∃ fs', (dirlink dp name inum).run fs = .ok (-1, fs') ∧ fs'.disk = fs.disk ∧ fs'.itable dp = fs.itable dp) ∧
    ((∀ off ∈ direntOffsets 0 (fs.itable dp).din.size, fs.disk.matchesAt (fs.itable dp).din name off = false) →
      ∀ r fs', (dirlink dp name inum).run fs = .ok (r, fs') → r = 0 →
        (fs'.itable dp).din.size = max (fs.itable dp).din.size (fs.disk.dirSlot (fs.itable dp).din + direntSize) ∧
        fs'.disk.direntAt (fs'.itable dp).din (fs.disk.dirSlot (fs.itable dp).din) = ⟨inum, strncpy name dirSiz⟩ ∧
        (∀ name2, ∃ r1 fs1 r2 fs2, (dirlookup dp name2).run fs = .ok (r1, fs1) ∧
          (dirlookup dp name2).run fs' = .ok (r2, fs2) ∧
          lookedUp fs2 r2 =
            if namecmp name name2 = 0 then some (inum, fs.disk.dirSlot (fs.itable dp).din) else lookedUp fs1 r1) ∧
        Distinct fs'.disk (fs'.itable dp).din) := by
  refine ⟨fun present ⟨off, member, matched⟩ => ?_, fun fresh r fs' ran zero => ?_⟩
  · -- a live entry matches: `dirlookup` finds it and `dirlink` gives up
    have readable : Readable fs.disk (fs.itable dp).din := ⟨shaped, present⟩
    obtain ⟨found, first⟩ := Option.ne_none_iff_exists'.mp (dirFind_ne_none member matched)
    obtain ⟨ip, ran⟩ := @dirlink_of_found fs dp name inum readable room found first
    refine ⟨_, ran, rfl, ?_⟩
    by_cases same : dp = ip
    · subst same
      simp only [Function.update_self, got_dropped_of_held held]
    · simp only [Function.update_of_ne same]
  · -- no live entry matches: `dirlookup` goes through every entry, filling the
    -- holes, and `dirlink` stores from the readable directory it leaves
    have lookup := dirlookup_filled fs shaped separate fresh fs rfl
    cases looked : (dirlookup dp name).run fs with
    | error e =>
      simp only [dirlink, StateT.run_bind, looked, Hoare.error_bind] at ran
      cases ran
    | ok result =>
      obtain ⟨r1, fs1⟩ := result
      rw [looked, Hoare.holds_ok] at lookup
      obtain ⟨rfl, filled, readable⟩ := lookup
      have fresh1 : ∀ off ∈ direntOffsets 0 (fs1.itable dp).din.size,
          fs1.disk.matchesAt (fs1.itable dp).din name off = false := by
        rw [filled.only.size, filled.matchesAt_eq]
        exact fresh
      have again : (dirlookup dp name).run fs1 = .ok (none, fs1) :=
        dirlookup_none readable (dirFind_of_fresh fresh1)
      rw [dirlink_run_congr (looked.trans again.symm)] at ran
      obtain ⟨sized, entry, lookups, distinct'⟩ := dirlink_stores readable filled.separate
        (filled.distinct distinct) (filled.room room) live fits fresh1 ran zero
      rw [filled.dirSlot, filled.only.size] at sized
      rw [filled.dirSlot] at entry
      refine ⟨sized, entry, fun name2 => ?_, distinct'⟩
      obtain ⟨r1, fs1', run1, view1⟩ := dirlookup_other shaped separate room looked name2
      obtain ⟨r2, fs2, run2, view2⟩ := lookups name2
      refine ⟨r1, fs1', r2, fs2, run1, run2, ?_⟩
      rw [view2, view1, filled.dirSlot, filled.dirFind]

/-- The system booted inside a transaction, with an empty directory held at entry
0 of the inode table and the metadata blocks marked in use. -/
def emptyRoot : FileSys :=
  { boot ⟨fun _ => Dinode.zero, fun b => decide (b < nMeta), fun _ => Block.zero⟩ with
    itable := Function.update (boot ⟨fun _ => Dinode.zero, fun _ => false, fun _ => Block.zero⟩).itable 0
      ⟨rootIno, 1, true, { Dinode.zero with type := .dir }⟩
    trans := some [] }

/-- Linking a name into the empty directory: when `dirlink` returns 0, the entry
is the first of the directory. -/
theorem dirlink_into_empty_root :
    Readable emptyRoot.disk (emptyRoot.itable 0).din ∧ Separate emptyRoot.disk (emptyRoot.itable 0).din ∧
      Distinct emptyRoot.disk (emptyRoot.itable 0).din ∧
      ∀ r fs', (dirlink 0 [97] 1).run emptyRoot = .ok (r, fs') → r = 0 →
        fs'.disk.direntAt (fs'.itable 0).din 0 = ⟨1, strncpy [97] dirSiz⟩ := by
  have readable : Readable emptyRoot.disk (emptyRoot.itable 0).din :=
    ⟨⟨rfl, by decide, by decide⟩, fun o below => absurd below (Nat.not_lt_zero o)⟩
  have separate : Separate emptyRoot.disk (emptyRoot.itable 0).din := by
    -- no address is set, so no place holds a block
    have unset : ∀ p, (emptyRoot.itable 0).din.blockAt emptyRoot.disk.blocks p = 0 := by
      intro p
      cases p <;> rfl
    exact ⟨fun p nz => absurd (unset p) nz, fun p _ nz => absurd (unset p) nz⟩
  have empty : direntOffsets 0 (emptyRoot.itable 0).din.size = [] := rfl
  have distinct : Distinct emptyRoot.disk (emptyRoot.itable 0).din := by
    intro o member
    rw [empty] at member
    cases member
  obtain ⟨-, stores⟩ := dirlink_finite_map emptyRoot 0 [97] 1 readable.toShaped separate distinct (by decide) ⟨1, rfl⟩
    (by decide) (by decide)
  refine ⟨readable, separate, distinct, fun r fs' ran zero => ?_⟩
  obtain ⟨-, entry, -⟩ := stores (fun o member => by rw [empty] at member; cases member) r fs' ran zero
  exact entry

/-- Block 100 of the directories below: the entry `a`, naming inode 2, at its start. -/
def entryBlock : Block :=
  Block.zero.write 0 (⟨2, strncpy [97] dirSiz⟩ : Dirent).toBytes

/-- The disk of the directories below: the metadata blocks and block 100 in use. -/
def entryDisk : Disk :=
  ⟨fun _ => Dinode.zero, fun b => decide (b < nMeta ∨ b = 100), Function.update (fun _ => Block.zero) 100 entryBlock⟩

/-- A directory held at entry 0 of the inode table, inside a transaction, whose first
block is missing and whose second, block 100, starts with the entry `a`. -/
def holeyDir : FileSys :=
  { boot entryDisk with
    itable := Function.update (boot entryDisk).itable 0
      ⟨rootIno, 1, true, ⟨.dir, 0, 0, 1, bSize + direntSize, Function.update (fun _ => 0) 1 100⟩⟩
    trans := some [] }

/-- A directory whose only entry, in block 100, is `a`, held at entry 0 of an inode
table whose every entry is referenced, none by inode 2. -/
def fullTable : FileSys :=
  { boot entryDisk with
    itable := fun ip =>
      if ip = 0 then ⟨rootIno, 1, true, ⟨.dir, 0, 0, 1, direntSize, Function.update (fun _ => 0) 0 100⟩⟩
      else ⟨10 + ip.val, 1, false, Dinode.zero⟩
    trans := some [] }

/-- The disk of `unmarkedDir`: block 100 holds the entry `a` but is free in the
bitmap, the first free block. -/
def unmarkedDisk : Disk :=
  { entryDisk with bitmap := fun b => decide (b < 100) }

/-- A directory held at entry 0, inside a transaction, whose first block is missing
and whose second is block 100, not marked in use. -/
def unmarkedDir : FileSys :=
  { boot unmarkedDisk with
    itable := Function.update (boot unmarkedDisk).itable 0
      ⟨rootIno, 1, true, ⟨.dir, 0, 0, 1, bSize + direntSize, Function.update (fun _ => 0) 1 100⟩⟩
    trans := some [] }

/-- A directory held at entry 0, inside a transaction, whose first two blocks are
one block, 100, marked in use and all zeros. -/
def sharedDir : FileSys :=
  { boot ⟨fun _ => Dinode.zero, fun b => decide (b < nMeta ∨ b = 100), fun _ => Block.zero⟩ with
    itable := Function.update (boot ⟨fun _ => Dinode.zero, fun _ => false, fun _ => Block.zero⟩).itable 0
      ⟨rootIno, 1, true,
        ⟨.dir, 0, 0, 1, bSize + direntSize, Function.update (Function.update (fun _ => 0) 0 100) 1 100⟩⟩
    trans := some [] }

/-- The directory of `fullTable`'s entry 0, with the entry `a` in block 100, held at
an entry of the inode table with no reference. -/
def unheldDir : FileSys :=
  { boot entryDisk with
    itable := Function.update (boot entryDisk).itable 0
      ⟨rootIno, 0, true, ⟨.dir, 0, 0, 1, direntSize, Function.update (fun _ => 0) 0 100⟩⟩
    trans := some [] }

/-- What the run of `dirlink` into a directory whose entries at offsets 0 and
`BSIZE` should come out one live entry, named `namecmp`-equal, is checked for. -/
def twoOffsets (fs' : FileSys) : Bool :=
  (fs'.itable 0).din.size == bSize + direntSize && (fs'.disk.direntAt (fs'.itable 0).din 0).inum == 5 &&
    (fs'.disk.direntAt (fs'.itable 0).din bSize).inum == 5 &&
    namecmp (fs'.disk.direntAt (fs'.itable 0).din 0).name (fs'.disk.direntAt (fs'.itable 0).din bSize).name == 0

/-- The runs of `dirlink` the examples below rest on, evaluated by the kernel in one
go. -/
theorem dirlink_example_runs :
    returnsWith (dirlink 0 [97] 65536) emptyRoot
        (fun r fs' => r == 0 && returnsWith (dirlookup 0 [97]) fs' fun found _ => found.isNone) = true ∧
      holeyDir.disk.matchesAt (holeyDir.itable 0).din [97] bSize = true ∧
      returnsWith (dirlink 0 [97] 5) holeyDir
        (fun r fs' => r == -1 && (fs'.itable 0).din.addrs 0 != 0 && fs'.disk.bitmap nMeta) = true ∧
      fullTable.disk.matchesAt (fullTable.itable 0).din [97] 0 = true ∧
      panicsWith (dirlink 0 [97] 5) fullTable "iget: no inodes" = true ∧
      returnsWith (dirlink 0 [98] 5) unmarkedDir (fun r fs' => r == 0 && twoOffsets fs') = true ∧
      returnsWith (dirlink 0 [97] 5) sharedDir (fun r fs' => r == 0 && twoOffsets fs') = true ∧
      unheldDir.disk.matchesAt (unheldDir.itable 0).din [97] 0 = true ∧
      returnsWith (dirlink 0 [97] 5) unheldDir (fun r fs' => r == -1 && (fs'.itable 0).inum == 2) = true := by
  decide +kernel

/-- An inode number from 65536 on does not fit the entry's 16 bits: linking
65536 into the empty directory returns 0, having stored a free entry, and the
name is not found after. -/
theorem dirlink_wraps_inum :
    ∃ fs', (dirlink 0 [97] 65536).run emptyRoot = .ok (0, fs') ∧
      ∃ fs2, (dirlookup 0 [97]).run fs' = .ok (none, fs2) := by
  obtain ⟨r, fs', ran, checked⟩ := exists_of_returnsWith dirlink_example_runs.1
  rw [Bool.and_eq_true, beq_iff_eq] at checked
  obtain ⟨rfl, looked⟩ := checked
  obtain ⟨found, fs2, lookup, missing⟩ := exists_of_returnsWith looked
  rw [Option.isNone_iff_eq_none] at missing
  subst missing
  exact ⟨fs', ran, fs2, lookup⟩

/-- `dirlink` of the name `a` into `holeyDir`: the name is there, so `dirlink` returns
-1, but `dirlookup`'s `readi` has allocated the missing block on its way to the
entry, so `dp`'s first address and the bitmap have changed. -/
theorem dirlink_fills_hole :
    (holeyDir.itable 0).din.type = .dir ∧ (holeyDir.itable 0).din.size % direntSize = 0 ∧
      holeyDir.disk.matchesAt (holeyDir.itable 0).din [97] bSize = true ∧
      ∃ fs', (dirlink 0 [97] 5).run holeyDir = .ok (-1, fs') ∧
        (fs'.itable 0).din.addrs 0 ≠ (holeyDir.itable 0).din.addrs 0 ∧ fs'.disk.bitmap nMeta ≠ holeyDir.disk.bitmap nMeta := by
  obtain ⟨-, matched, passes, -⟩ := dirlink_example_runs
  obtain ⟨r, fs', ran, checked⟩ := exists_of_returnsWith passes
  simp only [Bool.and_eq_true, beq_iff_eq, bne_iff_ne] at checked
  obtain ⟨⟨rfl, moved⟩, marked⟩ := checked
  refine ⟨rfl, by decide, matched, fs', ran, fun same => moved (same.trans rfl), ?_⟩
  rw [marked]
  decide

/-- `dirlink` of the name `a` into `fullTable`: `dirlookup` finds the entry, and its
`iget` of inode 2 finds no free entry of the inode table and panics. -/
theorem dirlink_table_full :
    (fullTable.itable 0).din.type = .dir ∧ (fullTable.itable 0).din.size % direntSize = 0 ∧
      fullTable.disk.matchesAt (fullTable.itable 0).din [97] 0 = true ∧
      (dirlink 0 [97] 5).run fullTable = .error "iget: no inodes" := by
  obtain ⟨-, -, -, matched, panics, -⟩ := dirlink_example_runs
  exact ⟨rfl, by decide, matched, run_eq_error_of_panicsWith panics⟩

/-- Two live entries at two offsets that `namecmp` equates break `Distinct`. -/
theorem not_distinct_of_namecmp {d : Disk} {din : Dinode} {o o' : Nat} (other : o ≠ o')
    (member : o ∈ direntOffsets 0 din.size) (member' : o' ∈ direntOffsets 0 din.size)
    (live : (d.direntAt din o).inum ≠ 0) (live' : (d.direntAt din o').inum ≠ 0)
    (same : namecmp (d.direntAt din o).name (d.direntAt din o').name = 0) : ¬ Distinct d din :=
  fun distinct => other (distinct o member o' member' live live' same)

/-- Where the entries at offsets 0 and `BSIZE` are one live entry, the live names
are not apart. -/
theorem not_distinct_of_twoOffsets {fs' : FileSys} (checked : twoOffsets fs' = true) :
    ¬ Distinct fs'.disk (fs'.itable 0).din := by
  simp only [twoOffsets, Bool.and_eq_true, beq_iff_eq] at checked
  obtain ⟨⟨⟨sized, atStart⟩, atBlock⟩, same⟩ := checked
  have whole : (fs'.itable 0).din.size % direntSize = 0 := by rw [sized]; decide
  have inDir : ∀ o, o % direntSize = 0 → o < bSize + direntSize → o ∈ direntOffsets 0 (fs'.itable 0).din.size :=
    fun o aligned below => (mem_direntOffsets whole).mpr ⟨aligned, sized ▸ below⟩
  exact not_distinct_of_namecmp (by decide) (inDir 0 rfl (by decide)) (inDir bSize rfl (by decide))
    (by rw [atStart]; decide) (by rw [atBlock]; decide) same

/-- A run checked to return 0 with one live entry at offsets 0 and `BSIZE`. -/
theorem not_distinct_of_returnsWith {m : FsM Int} {fs : FileSys}
    (passes : returnsWith m fs (fun r fs' => r == 0 && twoOffsets fs') = true) :
    ∃ fs', m.run fs = .ok (0, fs') ∧ ¬ Distinct fs'.disk (fs'.itable 0).din := by
  obtain ⟨r, fs', ran, checked⟩ := exists_of_returnsWith passes
  rw [Bool.and_eq_true, beq_iff_eq] at checked
  obtain ⟨rfl, two⟩ := checked
  exact ⟨fs', ran, not_distinct_of_twoOffsets two⟩

/-- `dirlink` of the name `b` into `unmarkedDir`: `dirlookup`'s `readi` fills the
missing first block with block 100, the first free one, wiping the entry `a`, and
the entry written at offset 0 shows at offset `BSIZE` too. -/
theorem dirlink_reuses_unmarked :
    (unmarkedDir.itable 0).din.blockAt unmarkedDir.disk.blocks (.direct ⟨1, by decide⟩) = 100 ∧
      unmarkedDir.disk.bitmap 100 = false ∧
      ∃ fs', (dirlink 0 [98] 5).run unmarkedDir = .ok (0, fs') ∧ ¬ Distinct fs'.disk (fs'.itable 0).din := by
  obtain ⟨-, -, -, -, -, passes, -⟩ := dirlink_example_runs
  exact ⟨rfl, rfl, not_distinct_of_returnsWith passes⟩

/-- `dirlink` of the name `a` into `sharedDir`: the entry written at offset 0 shows
at offset `BSIZE` too. -/
theorem dirlink_shared_block :
    (sharedDir.itable 0).din.blockAt sharedDir.disk.blocks (.direct ⟨0, by decide⟩) = 100 ∧
      (sharedDir.itable 0).din.blockAt sharedDir.disk.blocks (.direct ⟨1, by decide⟩) = 100 ∧
      ∃ fs', (dirlink 0 [97] 5).run sharedDir = .ok (0, fs') ∧ ¬ Distinct fs'.disk (fs'.itable 0).din := by
  obtain ⟨-, -, -, -, -, -, passes, -⟩ := dirlink_example_runs
  exact ⟨rfl, rfl, not_distinct_of_returnsWith passes⟩

/-- `dirlink` of the name `a` into `unheldDir`: `dirlookup`'s `iget` of inode 2 takes
the first entry with no reference, the directory's own, and `dirlink` returns -1
with that entry naming inode 2. -/
theorem dirlink_unheld_entry :
    (unheldDir.itable 0).ref = 0 ∧ unheldDir.disk.matchesAt (unheldDir.itable 0).din [97] 0 = true ∧
      ∃ fs', (dirlink 0 [97] 5).run unheldDir = .ok (-1, fs') ∧ fs'.itable 0 ≠ unheldDir.itable 0 := by
  obtain ⟨-, -, -, -, -, -, -, matched, passes⟩ := dirlink_example_runs
  obtain ⟨r, fs', ran, checked⟩ := exists_of_returnsWith passes
  simp only [Bool.and_eq_true, beq_iff_eq] at checked
  obtain ⟨rfl, renamed⟩ := checked
  refine ⟨rfl, matched, fs', ran, fun same => ?_⟩
  rw [same] at renamed
  cases renamed

/-- Where `dirlink` leaves the finite map: an inode number past 16 bits; a block
missing before the entry found; an inode table with no free entry; a block of the
directory free in the bitmap; one block at two places of the directory; and a
directory at an entry of the inode table with no reference. -/
theorem dirlink_beyond_map :
    (∃ fs', (dirlink 0 [97] 65536).run emptyRoot = .ok (0, fs') ∧
      ∃ fs2, (dirlookup 0 [97]).run fs' = .ok (none, fs2)) ∧
    ((holeyDir.itable 0).din.type = .dir ∧ (holeyDir.itable 0).din.size % direntSize = 0 ∧
      holeyDir.disk.matchesAt (holeyDir.itable 0).din [97] bSize = true ∧
      ∃ fs', (dirlink 0 [97] 5).run holeyDir = .ok (-1, fs') ∧
        (fs'.itable 0).din.addrs 0 ≠ (holeyDir.itable 0).din.addrs 0 ∧
        fs'.disk.bitmap nMeta ≠ holeyDir.disk.bitmap nMeta) ∧
    ((fullTable.itable 0).din.type = .dir ∧ (fullTable.itable 0).din.size % direntSize = 0 ∧
      fullTable.disk.matchesAt (fullTable.itable 0).din [97] 0 = true ∧
      (dirlink 0 [97] 5).run fullTable = .error "iget: no inodes") ∧
    ((unmarkedDir.itable 0).din.blockAt unmarkedDir.disk.blocks (.direct ⟨1, by decide⟩) = 100 ∧
      unmarkedDir.disk.bitmap 100 = false ∧
      ∃ fs', (dirlink 0 [98] 5).run unmarkedDir = .ok (0, fs') ∧ ¬ Distinct fs'.disk (fs'.itable 0).din) ∧
    ((sharedDir.itable 0).din.blockAt sharedDir.disk.blocks (.direct ⟨0, by decide⟩) = 100 ∧
      (sharedDir.itable 0).din.blockAt sharedDir.disk.blocks (.direct ⟨1, by decide⟩) = 100 ∧
      ∃ fs', (dirlink 0 [97] 5).run sharedDir = .ok (0, fs') ∧ ¬ Distinct fs'.disk (fs'.itable 0).din) ∧
    ((unheldDir.itable 0).ref = 0 ∧ unheldDir.disk.matchesAt (unheldDir.itable 0).din [97] 0 = true ∧
      ∃ fs', (dirlink 0 [97] 5).run unheldDir = .ok (-1, fs') ∧ fs'.itable 0 ≠ unheldDir.itable 0) :=
  ⟨dirlink_wraps_inum, dirlink_fills_hole, dirlink_table_full, dirlink_reuses_unmarked, dirlink_shared_block,
    dirlink_unheld_entry⟩

end Link

end Xv6.Fs
