import Xv6.Console.Console
import Xv6.Lib.Machine

/-!
Contract: the console's input is a line discipline in front of a FIFO. Whatever the
order in which characters arrive and the stretches of a reader's `consoleread` run,
and however far the 32-bit indices have wrapped, the cells from `r` to `w` hold the
committed bytes not yet read and those from `w` to `e` the line being edited, with
`e - r` at most `INPUT_BUF_SIZE`; and a reader whose copies succeed reads the
committed bytes in order, without the `^D`s.

The specification is over lists. `discipline` is what a typed character does to the
committed bytes and the line; `takeLine` is what a read takes from the committed
bytes not yet read: up to a newline, stopping at a `^D`, which it passes only when it
is the first byte the read sees.

`Lines` relates the ring to that history, as `Pipes.Fifo` does for a pipe: each index
is its position in the history modulo 2^32, and the cells mirror the committed bytes
followed by the line (`Ring.Mirrors`). Each edit keeps it (`Lines.commit`, `Lines.push`,
`Lines.erase`, `Lines.kill`, `Lines.pop`), so `consoleintr` does
(`consoleintr_lines`), and a read stretch does what `takeLine` says
(`consolereadLoop_take`).

A run records the history next to the ring (`World`), and a reader: a call asleep,
with its target and the bytes it has still to read.

Owns: `discipline`, `takeLine`, `Lines`, `World`, `Event`, `step`, `Reachable`.
-/

namespace Xv6.Console

/-! ### The specification -/

/-- The line discipline on a typed character `c`, over the committed bytes `stream`,
`taken` of which are read, and the line being edited. `^U` empties the line,
backspace and delete drop its last byte, and another byte but 0 joins it while fewer
than `INPUT_BUF_SIZE` bytes are pending (`\r` as `\n`); a newline, a `^D` or a full
buffer commits the line. -/
def discipline (taken : Nat) (stream line : List UInt8) (c : UInt8) : List UInt8 × List UInt8 :=
  if c = ctrl 'P' then (stream, line)
  else if c = ctrl 'U' then (stream, [])
  else if c = ctrl 'H' ∨ c = '\x7f'.toUInt8 then (stream, line.dropLast)
  else if c ≠ 0 ∧ stream.length + line.length < taken + inputBufSize then
    let c := if c = '\r'.toUInt8 then '\n'.toUInt8 else c
    if c = '\n'.toUInt8 ∨ c = ctrl 'D' ∨ stream.length + line.length + 1 = taken + inputBufSize then
      (stream ++ (line ++ [c]), [])
    else (stream, line ++ [c])
  else (stream, line)

/-- A read with `n` bytes left of `target`, on the committed bytes it has not read:
how its stretch ends, the bytes it returns and how many it passes. It returns after a
newline; a `^D` ends it, passed only when it is the first byte the read sees; it waits
when the committed bytes run out. -/
def takeLine (target : Nat) : Nat → List UInt8 → Outcome × List UInt8 × Nat
  | 0, _ => (.returns target, [], 0)
  | n + 1, [] => (.sleeps (n + 1), [], 0)
  | n + 1, c :: rest =>
    if c = ctrl 'D' then (.returns ↑(target - (n + 1)), [], if n + 1 < target then 0 else 1)
    else if c = '\n'.toUInt8 then (.returns ↑(target - n), [c], 1)
    else
      let (stop, bytes, passed) := takeLine target n rest
      (stop, c :: bytes, passed + 1)

section Take

variable (target : Nat)

/-- A newline is not a `^D`. -/
@[simp] theorem newline_ne_eof : '\n'.toUInt8 ≠ ctrl 'D' := by decide

theorem takeLine_passed_le : ∀ n pending, (takeLine target n pending).2.2 ≤ pending.length
  | 0, _ => Nat.zero_le _
  | _ + 1, [] => le_rfl
  | n + 1, c :: rest => by
    have more := takeLine_passed_le n rest
    by_cases eof : c = ctrl 'D'
    · simp only [takeLine, eof, if_true, List.length_cons]
      split_ifs <;> omega
    by_cases newline : c = '\n'.toUInt8
    · simp [takeLine, newline]
    · simp [takeLine, eof, newline]
      omega

/-- A read returns the bytes it passes, without the `^D`s. -/
theorem takeLine_bytes : ∀ n pending,
    (takeLine target n pending).2.1 = (pending.take (takeLine target n pending).2.2).filter (· ≠ ctrl 'D')
  | 0, _ => rfl
  | _ + 1, [] => rfl
  | n + 1, c :: rest => by
    by_cases eof : c = ctrl 'D'
    · simp only [takeLine, eof, if_true]
      split_ifs <;> simp
    by_cases newline : c = '\n'.toUInt8
    · simp [takeLine, newline]
    · simp [takeLine, eof, newline, takeLine_bytes n rest]

/-- A read never goes past a newline: only its last byte can be one. -/
theorem takeLine_newline : ∀ n pending, '\n'.toUInt8 ∉ (takeLine target n pending).2.1.dropLast
  | 0, _ => by simp [takeLine]
  | _ + 1, [] => by simp [takeLine]
  | n + 1, c :: rest => by
    by_cases eof : c = ctrl 'D'
    · simp [takeLine, eof]
    by_cases newline : c = '\n'.toUInt8
    · simp [takeLine, newline]
    · have later := takeLine_newline n rest
      simp only [takeLine, eof, newline, if_false]
      -- the first byte is not a newline, and the rest is the shorter read
      cases bytes : (takeLine target n rest).2.1 with
      | nil => simp
      | cons b more =>
        rw [bytes] at later
        simp only [List.dropLast_cons_cons, List.mem_cons, not_or] at later ⊢
        exact ⟨Ne.symm newline, later⟩

/-- A `^D` that is the first byte of a read makes it return 0, and it is passed. -/
theorem takeLine_eof_first {rest : List UInt8} (pos : 0 < target) :
    takeLine target target (ctrl 'D' :: rest) = (.returns 0, [], 1) := by
  obtain ⟨n, rfl⟩ : ∃ n, target = n + 1 := ⟨target - 1, by omega⟩
  simp [takeLine]

/-- A `^D` after the first byte ends the read and is left to the next. -/
theorem takeLine_eof_later {n : Nat} {rest : List UInt8} (later : n < target) :
    takeLine target n (ctrl 'D' :: rest) = (.returns ↑(target - n), [], 0) := by
  cases n with
  | zero => simp [takeLine]
  | succ n => simp [takeLine, later]

end Take

/-! ### The ring against its history -/

/-- `stream` holds every byte committed (moved below `w`), `taken` of them read, and
`line` the bytes of the line being edited; the cells from `r` hold the committed bytes
not yet read and then the line. -/
structure Lines (cons : Cons) (stream line : List UInt8) (taken : Nat) : Prop where
  read : taken ≤ stream.length
  room : stream.length + line.length ≤ taken + inputBufSize
  r : cons.r.toNat = taken % 2 ^ 32
  w : cons.w.toNat = stream.length % 2 ^ 32
  e : cons.e.toNat = (stream.length + line.length) % 2 ^ 32
  mirrors : Ring.Mirrors cons.buf (stream ++ line) taken
  newline : '\n'.toUInt8 ∉ line

/-- An index's slot is that of the position it counts: `INPUT_BUF_SIZE` divides 2^32. -/
theorem slot_eq {i : UInt32} {k : Nat} (counts : i.toNat = k % 2 ^ 32) :
    slot i = Ring.cell inputBufSize k := by
  apply Fin.ext
  simp only [slot, Ring.cell, counts, inputBufSize]
  omega

theorem inputBufSize_toUInt32_toNat : inputBufSize.toUInt32.toNat = inputBufSize := by decide

namespace Lines

variable {cons : Cons} {stream line : List UInt8} {taken : Nat}

/-- `r == w` tests exactly that every committed byte is read. -/
theorem empty_iff (lines : Lines cons stream line taken) : cons.r = cons.w ↔ taken = stream.length := by
  have read := lines.read
  have room := lines.room
  rw [← UInt32.toNat_inj, lines.r, lines.w]
  simp only [inputBufSize] at room
  omega

/-- `e == w` tests exactly an empty line. -/
theorem edited_iff (lines : Lines cons stream line taken) : cons.e = cons.w ↔ line = [] := by
  have read := lines.read
  have room := lines.room
  rw [← UInt32.toNat_inj, lines.e, lines.w, ← List.length_eq_zero_iff]
  simp only [inputBufSize] at room
  omega

/-- `e - r` counts the pending bytes, committed or not. -/
theorem pending_eq (lines : Lines cons stream line taken) :
    (cons.e - cons.r).toNat = stream.length + line.length - taken := by
  have read := lines.read
  have room := lines.room
  rw [UInt32.toNat_sub, lines.e, lines.r]
  simp only [inputBufSize] at room
  omega

/-- `w - r` counts the committed bytes not yet read. -/
theorem committed_eq (lines : Lines cons stream line taken) :
    (cons.w - cons.r).toNat = stream.length - taken := by
  have read := lines.read
  have room := lines.room
  rw [UInt32.toNat_sub, lines.w, lines.r]
  simp only [inputBufSize] at room
  omega

/-- `e - w` counts the bytes of the line. -/
theorem edit_eq (lines : Lines cons stream line taken) : (cons.e - cons.w).toNat = line.length := by
  have read := lines.read
  have room := lines.room
  rw [UInt32.toNat_sub, lines.e, lines.w]
  simp only [inputBufSize] at room
  omega

/-- **Commit.** `w = e` moves the line to the committed bytes. -/
theorem commit (lines : Lines cons stream line taken) :
    Lines { cons with w := cons.e } (stream ++ line) [] taken := by
  refine ⟨?_, ?_, lines.r, ?_, ?_, ?_, List.not_mem_nil⟩
  · simp only [List.length_append]
    exact Nat.le_add_right_of_le lines.read
  · simpa using lines.room
  · simpa using lines.e
  · simpa using lines.e
  · simpa using lines.mirrors

/-- **Kill.** `e = w` drops the line. -/
theorem kill (lines : Lines cons stream line taken) : Lines { cons with e := cons.w } stream [] taken := by
  refine ⟨lines.read, ?_, lines.r, lines.w, ?_, ?_, List.not_mem_nil⟩
  · have room := lines.room
    simp only [List.length_nil, Nat.add_zero]
    omega
  · simpa using lines.w
  · simpa using Ring.Mirrors.of_prefix lines.mirrors (List.prefix_append stream line)

/-- **Push.** Storing `c` at `e++` with room for it puts it at the end of the line. -/
theorem push (lines : Lines cons stream line taken)
    (room : stream.length + line.length < taken + inputBufSize) (c : UInt8) (plain : c ≠ '\n'.toUInt8) :
    Lines { cons with buf := Function.update cons.buf (slot cons.e) c, e := cons.e + 1 } stream (line ++ [c])
      taken := by
  refine ⟨lines.read, ?_, lines.r, lines.w, ?_, ?_, ?_⟩
  · simp only [List.length_append, List.length_singleton]
    omega
  · simp only [UInt32.toNat_add, lines.e, List.length_append, List.length_singleton]
    simp
    omega
  · have pushed := Ring.Mirrors.push lines.mirrors (by simpa using room) c
    rw [slot_eq lines.e, ← List.length_append, ← List.append_assoc]
    exact pushed
  · simp only [List.mem_append, List.mem_singleton, not_or]
    exact ⟨lines.newline, Ne.symm plain⟩

/-- **Push and commit.** Storing `c` at `e++` and then `w = e` commits the line with `c`. -/
theorem pushCommit (lines : Lines cons stream line taken)
    (room : stream.length + line.length < taken + inputBufSize) (c : UInt8) :
    Lines { cons with buf := Function.update cons.buf (slot cons.e) c, e := cons.e + 1, w := cons.e + 1 }
      (stream ++ (line ++ [c])) [] taken := by
  refine ⟨?_, ?_, lines.r, ?_, ?_, ?_, List.not_mem_nil⟩
  · simp only [List.length_append]
    exact Nat.le_add_right_of_le lines.read
  · simp only [List.length_append, List.length_singleton, List.length_nil]
    omega
  · simp only [UInt32.toNat_add, lines.e, List.length_append, List.length_singleton]
    simp
    omega
  · simp only [UInt32.toNat_add, lines.e, List.length_append, List.length_singleton]
    simp
    omega
  · have pushed := Ring.Mirrors.push lines.mirrors (by simpa using room) c
    rw [slot_eq lines.e, List.append_nil, ← List.length_append, ← List.append_assoc]
    exact pushed

/-- **Erase.** `e--` on a line that is not empty drops its last byte. -/
theorem erase (lines : Lines cons stream line taken) (edited : line ≠ []) :
    Lines { cons with e := cons.e - 1 } stream line.dropLast taken := by
  have long : 0 < line.length := List.length_pos_iff.2 edited
  refine ⟨lines.read, ?_, lines.r, lines.w, ?_, ?_, ?_⟩
  · have room := lines.room
    simp only [List.length_dropLast]
    omega
  · have e := lines.e
    simp only [UInt32.toNat_sub, e, List.length_dropLast, UInt32.toNat_one]
    omega
  · exact Ring.Mirrors.of_prefix lines.mirrors
      ((List.prefix_append_right_inj stream).2 (List.dropLast_prefix line))
  · exact fun member => lines.newline (List.mem_of_mem_dropLast member)

/-- The byte before `e` is the last of a line that is not empty. -/
theorem last (lines : Lines cons stream line taken) (edited : line ≠ []) :
    cons.buf (slot (cons.e - 1)) = line.getLast edited := by
  have long : 0 < line.length := List.length_pos_iff.2 edited
  have read := lines.read
  have before : (cons.e - 1).toNat = (stream.length + line.length - 1) % 2 ^ 32 := by
    have e := lines.e
    simp only [UInt32.toNat_sub, e, UInt32.toNat_one]
    omega
  have within : stream.length + line.length - 1 < (stream ++ line).length := by
    simp only [List.length_append]
    omega
  rw [slot_eq before, lines.mirrors _ within (by omega), List.getLast_eq_getElem,
    List.getElem_append_right (by omega)]
  congr 1
  omega

/-- **Pop.** The byte at `r` is the first committed byte not yet read. -/
theorem head (lines : Lines cons stream line taken) (pending : taken < stream.length) :
    cons.buf (slot cons.r) = stream[taken] := by
  rw [slot_eq lines.r, Ring.Mirrors.head lines.mirrors (by simp only [List.length_append]; omega),
    List.getElem_append_left pending]

theorem pop (lines : Lines cons stream line taken) (pending : taken < stream.length) :
    Lines { cons with r := cons.r + 1 } stream line (taken + 1) := by
  refine ⟨pending, ?_, ?_, lines.w, lines.e, Ring.Mirrors.pop lines.mirrors, lines.newline⟩
  · have room := lines.room
    omega
  · simp only [UInt32.toNat_add, lines.r, UInt32.toNat_one]
    omega

/-- The reads between two states of the invariant moved `r` by the bytes they passed. -/
theorem advance_eq {cons' : Cons} {k : Nat} (lines : Lines cons stream line taken)
    (lines' : Lines cons' stream line (taken + k)) : (cons'.r - cons.r).toNat = k := by
  have read := lines'.read
  have room := lines.room
  rw [UInt32.toNat_sub, lines'.r, lines.r]
  simp only [inputBufSize] at room
  omega

/-- The reads between two states of the invariant moved `r` on by the bytes they passed. -/
theorem r_eq {cons' : Cons} {k : Nat} (lines : Lines cons stream line taken)
    (lines' : Lines cons' stream line (taken + k)) : cons'.r = cons.r + k.toUInt32 := by
  have moved := advance_eq lines lines'
  have small : k < 2 ^ 32 := by
    have read := lines'.read
    have room := lines.room
    simp only [inputBufSize] at room
    omega
  have difference : cons'.r - cons.r = k.toUInt32 := by
    rw [← UInt32.toNat_inj, moved, Nat.toUInt32, UInt32.toNat_ofNat', Nat.mod_eq_of_lt small]
  rw [← difference, add_sub_cancel]

end Lines

/-! ### `consoleintr` -/

section Intr

variable {stream : List UInt8} {taken : Nat}

/-- Under the invariant the kill-line loop runs down to `w`: no byte of the line is a
newline, so only `e == w` stops it. -/
theorem killLine_eq : ∀ fuel {cons : Cons} {line : List UInt8}, Lines cons stream line taken →
    line.length = fuel → killLine fuel cons = { cons with e := cons.w }
  | 0, cons, line, lines, empty => by
    have same : cons.e = cons.w := lines.edited_iff.2 (List.length_eq_zero_iff.1 empty)
    cases cons
    dsimp only at same ⊢
    rw [same]
    rfl
  | fuel + 1, cons, line, lines, long => by
    have edited : line ≠ [] := List.ne_nil_of_length_eq_add_one long
    have moved : cons.e ≠ cons.w := fun same => edited (lines.edited_iff.1 same)
    have plain : cons.buf (slot (cons.e - 1)) ≠ '\n'.toUInt8 := by
      rw [lines.last edited]
      exact fun isNewline => lines.newline (isNewline ▸ List.getLast_mem edited)
    rw [killLine, if_pos ⟨moved, plain⟩,
      killLine_eq fuel (lines.erase edited) (by rw [List.length_dropLast, long]; rfl)]

/-- `consoleintr` is the line discipline on the ring. -/
theorem consoleintr_lines {cons : Cons} {line : List UInt8} (lines : Lines cons stream line taken)
    (c : UInt8) :
    Lines (consoleintr cons c) (discipline taken stream line c).1 (discipline taken stream line c).2 taken := by
  unfold consoleintr discipline
  by_cases procdump : c = ctrl 'P'
  · simpa only [procdump, if_true] using lines
  rw [if_neg procdump, if_neg procdump]
  by_cases killing : c = ctrl 'U'
  · rw [if_pos killing, if_pos killing, lines.edit_eq, killLine_eq line.length lines rfl]
    exact lines.kill
  rw [if_neg killing, if_neg killing]
  by_cases erasing : c = ctrl 'H' ∨ c = '\x7f'.toUInt8
  · rw [if_pos erasing, if_pos erasing]
    by_cases edited : line = []
    · rw [if_neg (not_not.2 (lines.edited_iff.2 edited))]
      simpa [edited] using lines
    · rw [if_pos (fun same => edited (lines.edited_iff.1 same))]
      exact lines.erase edited
  rw [if_neg erasing, if_neg erasing]
  have read := lines.read
  have pending := lines.pending_eq
  -- the 32-bit tests on `e - r` are the tests on the pending bytes
  have roomIff : cons.e - cons.r < inputBufSize.toUInt32 ↔
      stream.length + line.length < taken + inputBufSize := by
    rw [UInt32.lt_iff_toNat_lt, pending, inputBufSize_toUInt32_toNat]
    omega
  by_cases storing : c ≠ 0 ∧ stream.length + line.length < taken + inputBufSize
  · rw [if_pos ⟨storing.1, roomIff.2 storing.2⟩, if_pos storing]
    have fullIff : cons.e + 1 - cons.r = inputBufSize.toUInt32 ↔
        stream.length + line.length + 1 = taken + inputBufSize := by
      have e := lines.e
      have r := lines.r
      have room := storing.2
      rw [← UInt32.toNat_inj, UInt32.toNat_sub, UInt32.toNat_add, e, r, inputBufSize_toUInt32_toNat]
      simp only [inputBufSize, UInt32.toNat_one] at room ⊢
      omega
    generalize (if c = '\r'.toUInt8 then '\n'.toUInt8 else c) = c'
    dsimp only
    by_cases commits : c' = '\n'.toUInt8 ∨ c' = ctrl 'D' ∨
        stream.length + line.length + 1 = taken + inputBufSize
    · rw [if_pos (by rwa [fullIff]), if_pos commits]
      exact lines.pushCommit storing.2 c'
    · rw [if_neg (by rwa [fullIff]), if_neg commits]
      exact lines.push storing.2 c' (fun isNewline => commits (Or.inl isNewline))
  · rw [if_neg (fun test => storing ⟨test.1, roomIff.1 test.2⟩), if_neg storing]
    exact lines

/-- Typing only adds to the committed bytes. -/
theorem discipline_keeps_stream (line : List UInt8) (c : UInt8) :
    stream <+: (discipline taken stream line c).1 := by
  unfold discipline
  -- only a commit changes the committed bytes, and it appends the line to them
  dsimp only
  repeat' split
  all_goals simp

end Intr

/-! ### `consoleread` -/

section Read

variable {stream line : List UInt8} (target : Nat)

/-- A read stretch moves `r` over some of the committed bytes not yet read, whatever its
copies do and whether its caller is killed. -/
theorem consolereadLoop_lines (killed : Bool) : ∀ n {cons : Cons} {taken : Nat} (copyOk : List Bool),
    Lines cons stream line taken →
      ∃ k, Lines (consolereadLoop killed target n cons copyOk).2.1 stream line (taken + k)
  | 0, cons, taken, _, lines => ⟨0, lines⟩
  | n + 1, cons, taken, copyOk, lines => by
    by_cases done : cons.r = cons.w
    · refine ⟨0, ?_⟩
      cases killed <;> simpa [consolereadLoop, done] using lines
    have pending : taken < stream.length :=
      lt_of_le_of_ne lines.read (fun same => done (lines.empty_iff.2 same))
    have popped := lines.pop pending
    simp only [consolereadLoop, if_neg done]
    split_ifs with eof
    · exact ⟨0, by simpa using lines⟩
    · exact ⟨1, popped⟩
    · exact ⟨1, popped⟩
    · exact ⟨1, popped⟩
    · obtain ⟨k, rest⟩ := consolereadLoop_lines killed n copyOk.tail popped
      exact ⟨k + 1, by rw [← Nat.add_assoc, Nat.add_right_comm]; exact rest⟩

/-- Whether the caller is killed decides only how a stretch that finds nothing to read
ends: `consoleread` checks `killed` only while it waits, so the bytes it takes and copies
out are those of a caller that is not killed. -/
theorem consolereadLoop_killed : ∀ n (cons : Cons) (copyOk : List Bool),
    (consolereadLoop true target n cons copyOk).2 = (consolereadLoop false target n cons copyOk).2
  | 0, _, _ => rfl
  | n + 1, cons, copyOk => by
    by_cases done : cons.r = cons.w
    · simp [consolereadLoop, done]
    · simp only [consolereadLoop, if_neg done]
      split_ifs
      all_goals try rfl
      -- the byte goes out, and the rest of the stretch agrees
      have rest := consolereadLoop_killed n { cons with r := cons.r + 1 } copyOk.tail
      dsimp only
      rw [Prod.mk.injEq]
      exact ⟨congrArg Prod.fst rest, congrArg (List.cons _) (congrArg Prod.snd rest)⟩

/-- Under the invariant, a read stretch whose copies succeed, for a caller that is not
killed, returns what `takeLine` gives on the committed bytes not yet read, and passes
the bytes it counts. -/
theorem consolereadLoop_take : ∀ n {cons : Cons} {taken : Nat} {copyOk : List Bool},
    Lines cons stream line taken → (∀ b ∈ copyOk, b = true) →
      ∃ cons', consolereadLoop false target n cons copyOk =
          ((takeLine target n (stream.drop taken)).1, cons', (takeLine target n (stream.drop taken)).2.1) ∧
        Lines cons' stream line (taken + (takeLine target n (stream.drop taken)).2.2)
  | 0, cons, taken, _, lines, _ => ⟨cons, rfl, lines⟩
  | n + 1, cons, taken, copyOk, lines, ok => by
    by_cases done : taken = stream.length
    · -- nothing committed is left to read: a caller that is not killed sleeps
      have empty : cons.r = cons.w := lines.empty_iff.2 done
      have drop : stream.drop taken = [] := List.drop_eq_nil_of_le (by omega)
      refine ⟨cons, ?_, by simpa [drop, takeLine] using lines⟩
      simp [consolereadLoop, empty, drop, takeLine]
    have pending : taken < stream.length := lt_of_le_of_ne lines.read done
    have notEmpty : cons.r ≠ cons.w := fun same => done (lines.empty_iff.1 same)
    have byte := lines.head pending
    have popped := lines.pop pending
    have copies : copyOk.head?.getD true = true := by
      cases copyOk with
      | nil => rfl
      | cons b _ => exact ok b List.mem_cons_self
    rw [List.drop_eq_getElem_cons pending]
    by_cases eof : stream[taken] = ctrl 'D'
    · -- a `^D` ends the read, put back unless it is the first byte the read sees
      by_cases later : n + 1 < target
      · refine ⟨cons, ?_, by simpa [takeLine, eof, later] using lines⟩
        simp [consolereadLoop, notEmpty, byte, eof, later, takeLine]
      · refine ⟨{ cons with r := cons.r + 1 }, ?_, by simpa [takeLine, eof, later] using popped⟩
        simp [consolereadLoop, notEmpty, byte, eof, later, takeLine]
    by_cases newline : stream[taken] = '\n'.toUInt8
    · refine ⟨{ cons with r := cons.r + 1 }, ?_, by simpa [takeLine, newline] using popped⟩
      simp [consolereadLoop, notEmpty, byte, newline, copies, takeLine]
    · obtain ⟨cons', ran, lines'⟩ :=
        consolereadLoop_take n popped (fun b member => ok b (List.mem_of_mem_tail member))
      refine ⟨cons', ?_, ?_⟩
      · simp [consolereadLoop, notEmpty, byte, eof, newline, copies, takeLine, ran]
      · simpa [takeLine, eof, newline, Nat.add_assoc, Nat.add_comm 1] using lines'

end Read

/-! ### Runs -/

/-- The console with its history: the ring, every byte committed, the line being
edited, how many committed bytes were read, the reader's call asleep (its target and
the bytes it has left), every byte copied out to the reader, and whether every read so
far had its copies succeed. -/
structure World where
  cons : Cons
  stream : List UInt8
  line : List UInt8
  taken : Nat
  reader : Option (Nat × Nat)
  got : List UInt8
  clean : Bool

/-- A character typed, a new `consoleread(n)` while the reader is not asleep, or the
sleeping call woken: each read with what its copies give and whether its caller is
killed. -/
inductive Event where
  | intr (c : UInt8)
  | read (n : Nat) (copyOk : List Bool) (killed : Bool)
  | resume (copyOk : List Bool) (killed : Bool)

/-- One stretch of the reader's call, with `n` bytes left of `target`. -/
def World.stretch (w : World) (target n : Nat) (copyOk : List Bool) (killed : Bool) : World :=
  let (stop, cons, copied) := consolereadLoop killed target n w.cons copyOk
  { w with
    cons := cons
    taken := w.taken + (cons.r - w.cons.r).toNat
    reader := match stop with
      | .sleeps n => some (target, n)
      | .returns _ => none
    got := w.got ++ copied
    clean := w.clean && copyOk.all id }

/-- One event; `none` when it cannot happen. -/
def step (w : World) : Event → Option World
  | .intr c =>
    some { w with
      cons := consoleintr w.cons c
      stream := (discipline w.taken w.stream w.line c).1
      line := (discipline w.taken w.stream w.line c).2 }
  | .read n copyOk killed => if w.reader = none then some (w.stretch n n copyOk killed) else none
  | .resume copyOk killed =>
    match w.reader with
    | some (target, n) => some (w.stretch target n copyOk killed)
    | none => none

/-- At boot: an empty ring, every index 0. -/
def boot : World :=
  ⟨⟨fun _ => 0, 0, 0, 0⟩, [], [], 0, none, [], true⟩

/-- The states of every interleaving of events from boot. -/
def Reachable (w : World) : Prop :=
  Machine.Reachable step boot w

/-- The run invariant: the ring against the history, and a reader whose reads were
clean has been given the committed bytes it passed, without the `^D`s. -/
structure World.Good (w : World) : Prop where
  lines : Lines w.cons w.stream w.line w.taken
  got : w.clean = true → w.got = (w.stream.take w.taken).filter (· ≠ ctrl 'D')

namespace World.Good

variable {w : World}

theorem intr (good : w.Good) (c : UInt8) :
    World.Good { w with
      cons := consoleintr w.cons c
      stream := (discipline w.taken w.stream w.line c).1
      line := (discipline w.taken w.stream w.line c).2 } := by
  refine ⟨consoleintr_lines good.lines c, fun clean => ?_⟩
  obtain ⟨more, extended⟩ := @discipline_keeps_stream w.stream w.taken w.line c
  dsimp only at clean ⊢
  rw [good.got clean, ← extended, List.take_append_of_le_length good.lines.read]

theorem stretch (good : w.Good) (target n : Nat) (copyOk : List Bool) (killed : Bool) :
    (w.stretch target n copyOk killed).Good := by
  obtain ⟨k, lines'⟩ := consolereadLoop_lines target killed n copyOk good.lines
  unfold World.stretch
  generalize ran : consolereadLoop killed target n w.cons copyOk = result at lines' ⊢
  obtain ⟨stop, cons', copied⟩ := result
  dsimp only at lines' ⊢
  rw [Lines.advance_eq good.lines lines']
  refine ⟨lines', fun clean => ?_⟩
  simp only [Bool.and_eq_true, List.all_eq_true, id] at clean
  obtain ⟨wasClean, copies⟩ := clean
  -- a clean stretch is the one `takeLine` describes, killed or not
  obtain ⟨cons'', same, lines''⟩ := consolereadLoop_take target n good.lines copies
  have unkilled : (consolereadLoop false target n w.cons copyOk).2 = (cons', copied) := by
    cases killed
    · rw [ran]
    · rw [← consolereadLoop_killed, ran]
  rw [same, Prod.mk.injEq] at unkilled
  obtain ⟨rfl, rfl⟩ := unkilled
  have passed : k = (takeLine target n (w.stream.drop w.taken)).2.2 := by
    have moved := Lines.advance_eq good.lines lines'
    rw [Lines.advance_eq good.lines lines''] at moved
    exact moved.symm
  rw [good.got wasClean, takeLine_bytes, ← passed, List.take_add, List.filter_append]

theorem step (good : w.Good) {event : Event} {w' : World} (stepped : Console.step w event = some w') :
    w'.Good := by
  cases event with
  | intr c =>
    cases stepped
    exact good.intr c
  | read n copyOk killed =>
    simp only [Console.step] at stepped
    split at stepped
    · cases stepped
      exact good.stretch n n copyOk killed
    · cases stepped
  | resume copyOk killed =>
    simp only [Console.step] at stepped
    cases reading : w.reader with
    | none =>
      rw [reading] at stepped
      cases stepped
    | some call =>
      rw [reading] at stepped
      cases stepped
      exact good.stretch call.1 call.2 copyOk killed

end World.Good

theorem boot_good : boot.Good := by
  refine ⟨⟨le_rfl, by simp [boot], rfl, rfl, rfl, ?_, List.not_mem_nil⟩, fun _ => rfl⟩
  intro k lt
  simp [boot] at lt

theorem Reachable.good {w : World} (reachable : Reachable w) : w.Good :=
  Machine.Reachable.invariant boot_good (fun _ _ _ good stepped => good.step stepped) reachable

theorem console_line_discipline {w : World} (reachable : Reachable w) :
    (w.cons.w - w.cons.r).toNat ≤ (w.cons.e - w.cons.r).toNat ∧
      (w.cons.e - w.cons.r).toNat ≤ inputBufSize ∧
      Ring.window w.cons.buf w.taken (w.cons.e - w.cons.r).toNat = w.stream.drop w.taken ++ w.line ∧
      (w.clean = true → w.got = (w.stream.take w.taken).filter (· ≠ ctrl 'D')) ∧
      ∀ target n copyOk, (∀ b ∈ copyOk, b = true) →
        (consolereadLoop false target n w.cons copyOk).1 = (takeLine target n (w.stream.drop w.taken)).1 ∧
        (consolereadLoop false target n w.cons copyOk).2.2 =
          (takeLine target n (w.stream.drop w.taken)).2.1 ∧
        '\n'.toUInt8 ∉ (consolereadLoop false target n w.cons copyOk).2.2.dropLast ∧
        ((w.stream.drop w.taken).head? = some (ctrl 'D') →
          (n = target → 0 < n → (consolereadLoop false target n w.cons copyOk).1 = .returns 0 ∧
            (consolereadLoop false target n w.cons copyOk).2.1.r = w.cons.r + 1) ∧
          (n < target → (consolereadLoop false target n w.cons copyOk).1 = .returns ↑(target - n) ∧
            (consolereadLoop false target n w.cons copyOk).2.1.r = w.cons.r)) := by
  have lines := reachable.good.lines
  have read := lines.read
  have room := lines.room
  have pending := lines.pending_eq
  have committed := lines.committed_eq
  refine ⟨by omega, by omega, ?_, reachable.good.got, ?_⟩
  · -- the cells from `r` to `e` read as the committed bytes not yet read, then the line
    have window := Ring.Mirrors.window_eq lines.mirrors (by simp only [List.length_append]; omega)
    rw [List.length_append, ← pending, List.drop_append_of_le_length read] at window
    exact window
  intro target n copyOk copies
  obtain ⟨cons', ran, lines'⟩ := consolereadLoop_take target n lines copies
  rw [ran]
  refine ⟨rfl, rfl, takeLine_newline target n _, fun first => ⟨fun whole pos => ?_, fun later => ?_⟩⟩
  · obtain ⟨rest, unread⟩ : ∃ rest, w.stream.drop w.taken = ctrl 'D' :: rest :=
      List.head?_eq_some_iff.1 first
    subst whole
    rw [unread, takeLine_eof_first n pos] at lines' ⊢
    exact ⟨rfl, lines.r_eq lines'⟩
  · obtain ⟨rest, unread⟩ : ∃ rest, w.stream.drop w.taken = ctrl 'D' :: rest :=
      List.head?_eq_some_iff.1 first
    rw [unread, takeLine_eof_later target later] at lines' ⊢
    refine ⟨rfl, ?_⟩
    rw [lines.r_eq lines']
    simp

theorem console_line_discipline_typed :
    let w := (Machine.run step boot [.intr 104, .intr 105, .intr 10, .read 8 [] false]).getD boot
    Reachable w ∧
      ((w.cons.w - w.cons.r).toNat ≤ (w.cons.e - w.cons.r).toNat ∧
      (w.cons.e - w.cons.r).toNat ≤ inputBufSize ∧
      Ring.window w.cons.buf w.taken (w.cons.e - w.cons.r).toNat = w.stream.drop w.taken ++ w.line ∧
      (w.clean = true → w.got = (w.stream.take w.taken).filter (· ≠ ctrl 'D')) ∧
      ∀ target n copyOk, (∀ b ∈ copyOk, b = true) →
        (consolereadLoop false target n w.cons copyOk).1 = (takeLine target n (w.stream.drop w.taken)).1 ∧
        (consolereadLoop false target n w.cons copyOk).2.2 =
          (takeLine target n (w.stream.drop w.taken)).2.1 ∧
        '\n'.toUInt8 ∉ (consolereadLoop false target n w.cons copyOk).2.2.dropLast ∧
        ((w.stream.drop w.taken).head? = some (ctrl 'D') →
          (n = target → 0 < n → (consolereadLoop false target n w.cons copyOk).1 = .returns 0 ∧
            (consolereadLoop false target n w.cons copyOk).2.1.r = w.cons.r + 1) ∧
          (n < target → (consolereadLoop false target n w.cons copyOk).1 = .returns ↑(target - n) ∧
            (consolereadLoop false target n w.cons copyOk).2.1.r = w.cons.r))) := by
  intro w
  have ran : Machine.run step boot [.intr 104, .intr 105, .intr 10, .read 8 [] false] = some w := rfl
  have reachable : Reachable w := Machine.reachable_of_run Relation.ReflTransGen.refl ran
  exact ⟨reachable, console_line_discipline reachable⟩

theorem console_read_loses_byte :
    (consoleread (consoleintr (consoleintr boot.cons 120) 10) false 2 [false]).1 = .returns 0 ∧
      (Machine.run step boot [.intr 120, .intr 10, .read 2 [false] false, .read 2 [] false]).map
        (fun w => (w.got, w.stream, w.taken)) = some ([10], [120, 10], 2) := by
  decide

end Xv6.Console
