import Xv6.Lib.Records
import Xv6.User.Grep
import Xv6.Vm.Proc

/-!
Contract: `main` of `user/xargs.c`, which reads its standard input a byte at a
time and runs the command once for each line, with the line as its last
argument.

`child_argv` has `MAXARG` entries and `line_buf` `MAX_LINE_LEN` bytes: a write
outside either makes the run `none`, and so does an `exec` that would read an
entry of `child_argv` never set or find no null pointer in it. An entry that
points to a string is kept as the C string `exec` reads there, so the line an
`exec` gets is what `line_buf` holds up to its first NUL. `line_buf` starts out
holding bytes of no known value, `junk`. `fork` and `wait` are taken to
succeed: the child's writes to `child_argv` are to its own copy, and the parent
reads on once the child is done, so the `exec`s come in the order of the lines.

Owns: `maxLineLen`, `Ptr`, `assign`, `execArgs`, `Exec`, `child`, `State`,
`endLine`, `onByte`, `readLoop`, `copyArgs`, `main`.
-/

namespace Xv6.Xargs

open Grep (cstr)

/-- `MAX_LINE_LEN`. -/
def maxLineLen : Nat := 512

/-- An entry of `child_argv`. -/
inductive Ptr where
  | unset
  | null
  | str (s : List Char)
deriving DecidableEq, Repr

/-- `a[i] = v`, or none when `i` is outside the array. -/
def assign {β : Type} (a : List β) (i : Nat) (v : β) : Option (List β) :=
  if i < a.length then some (a.set i v) else none

/-- The arguments `exec` takes from an array of pointers: the strings up to its
null pointer. -/
def execArgs : List Ptr → Option (List (List Char))
  | [] => none
  | .unset :: _ => none
  | .null :: _ => some []
  | .str s :: rest => (execArgs rest).map (s :: ·)

/-- An `exec(path, argv)`. -/
structure Exec where
  path : List Char
  argv : List (List Char)
deriving DecidableEq, Repr

/-- The child after `fork`: `child_argv[argc - 1] = line_buf`,
`child_argv[argc] = 0` and `exec(command, child_argv)`. -/
def child (argc : Nat) (command : List Char) (childArgv : List Ptr) (lineBuf : List Char) : Option Exec := do
  let a ← assign childArgv (argc - 1) (.str (cstr lineBuf))
  let a ← assign a argc .null
  let argv ← execArgs a
  return ⟨command, argv⟩

/-- `char_idx` and `line_buf`. -/
structure State where
  charIdx : Nat
  lineBuf : List Char

/-- The end of a line: `line_buf[char_idx] = '\0'`, a child that `exec`s with
it, `wait(0)` and `char_idx = 0`. -/
def endLine (argc : Nat) (command : List Char) (childArgv : List Ptr) (s : State) : Option (State × Exec) := do
  let buf ← assign s.lineBuf s.charIdx '\x00'
  let e ← child argc command childArgv buf
  return (⟨0, buf⟩, e)

/-- The body of `while (read(0, &ch, 1) > 0)`. -/
def onByte (argc : Nat) (command : List Char) (childArgv : List Ptr) (s : State) (ch : Char) :
    Option (State × List Exec) :=
  if ch = '\n' then do
    let (s, e) ← endLine argc command childArgv s
    return (s, [e])
  else if s.charIdx < maxLineLen - 1 then do
    let buf ← assign s.lineBuf s.charIdx ch
    return (⟨s.charIdx + 1, buf⟩, [])
  else return (s, [])

def readLoop (argc : Nat) (command : List Char) (childArgv : List Ptr) :
    State → List Char → Option (State × List Exec)
  | s, [] => some (s, [])
  | s, ch :: rest => do
    let (s, e) ← onByte argc command childArgv s ch
    let (s, e') ← readLoop argc command childArgv s rest
    return (s, e ++ e')

/-- `for (arg_idx = i; arg_idx < argc; arg_idx++) child_argv[arg_idx - 1] = argv[arg_idx];`
with `k` turns left. -/
def copyArgs (argv : List (List Char)) : Nat → Nat → List Ptr → Option (List Ptr)
  | _, 0, a => some a
  | i, k + 1, a => do
    let a ← assign a (i - 1) (.str (argv.getD i []))
    copyArgs argv (i + 1) k a

/-- `main(argc, argv)` with `stdin` on the standard input: the `exec`s of the
children, in order. -/
def main (argv : List (List Char)) (junk stdin : List Char) : Option (List Exec) := do
  let argc := argv.length
  if argc < 2 then return []
  let command := argv.getD 1 []
  let childArgv ← copyArgs argv 1 (argc - 1) (List.replicate Vm.maxArg .unset)
  let (s, execs) ← readLoop argc command childArgv ⟨0, junk⟩ stdin
  if 0 < s.charIdx then
    let (_, e) ← endLine argc command childArgv s
    return execs ++ [e]
  return execs

/-! ### Arrays and strings -/

theorem assign_of_lt {β : Type} {a : List β} {i : Nat} (v : β) (inside : i < a.length) :
    assign a i v = some (a.set i v) :=
  if_pos inside

theorem take_succ_set {β : Type} {a : List β} {i : Nat} (v : β) (inside : i < a.length) :
    (a.set i v).take (i + 1) = a.take i ++ [v] := by
  rw [List.set_eq_take_append_cons_drop, if_pos inside, List.take_append, List.length_take,
    Nat.min_eq_left inside.le, List.take_of_length_le (by simp), Nat.add_sub_cancel_left]
  rfl

theorem cstr_append_nul (q rest : List Char) : cstr (q ++ '\x00' :: rest) = cstr q := by
  induction q with
  | nil => rfl
  | cons x q ih =>
    unfold cstr at ih ⊢
    by_cases nul : x = '\x00' <;> simp [nul, ih]

/-- The NUL written at the end of what `line_buf` holds ends the C string there. -/
theorem cstr_set_nul {buf q : List Char} {i : Nat} (inside : i < buf.length) (held : buf.take i = q) :
    cstr (buf.set i '\x00') = cstr q := by
  rw [List.set_eq_take_append_cons_drop, if_pos inside, held, cstr_append_nul]

theorem execArgs_strs (ss : List (List Char)) (rest : List Ptr) : execArgs (ss.map .str ++ .null :: rest) = some ss := by
  induction ss with
  | nil => rfl
  | cons s ss ih => simp [execArgs, ih]

/-! ### The argument array -/

/-- The copy loop from `arg_idx = j + 1` writes the arguments from `argv[j + 1]` on. -/
theorem copyArgs_spec (argv : List (List Char)) (k : Nat) :
    ∀ (j : Nat) (pre rest : List Ptr), pre.length = j → k ≤ rest.length → j + 1 + k ≤ argv.length →
      copyArgs argv (j + 1) k (pre ++ rest) = some (pre ++ ((argv.drop (j + 1)).take k).map .str ++ rest.drop k) := by
  induction k with
  | zero =>
    intro j pre rest _ _ _
    simp [copyArgs]
  | succ k ih =>
    intro j pre rest len room fits
    obtain ⟨r, rest, rfl⟩ := List.exists_cons_of_ne_nil (List.ne_nil_of_length_pos (show 0 < rest.length by omega))
    have first : argv.drop (j + 1) = argv.getD (j + 1) [] :: argv.drop (j + 2) := by
      rw [List.drop_eq_getElem_cons (show j + 1 < argv.length by omega), List.getD_eq_getElem]
    have written : assign (pre ++ r :: rest) j (.str (argv.getD (j + 1) [])) =
        some (pre ++ [Ptr.str (argv.getD (j + 1) [])] ++ rest) := by
      rw [assign_of_lt _ (by simp; omega), List.set_append_right _ _ (by omega), len, Nat.sub_self,
        List.set_cons_zero, List.append_assoc, List.singleton_append]
    have next := ih (j + 1) (pre ++ [Ptr.str (argv.getD (j + 1) [])]) rest (by simp [len])
      (by simp at room; omega) (by omega)
    simp only [copyArgs, Nat.add_sub_cancel, written, Option.bind_eq_bind, Option.bind_some, next, first]
    simp

/-- The array after the copy loop: the arguments from `argv[1]` on, the rest unset. -/
theorem copyArgs_main {argv : List (List Char)} (fits : argv.length ≤ Vm.maxArg) (two : 2 ≤ argv.length) :
    copyArgs argv 1 (argv.length - 1) (List.replicate Vm.maxArg .unset) =
      some (argv.tail.map .str ++ List.replicate (Vm.maxArg - (argv.length - 1)) .unset) := by
  have spec := copyArgs_spec argv (argv.length - 1) 0 [] (List.replicate Vm.maxArg .unset) rfl (by simp; omega)
    (by omega)
  simpa [List.drop_one, List.take_of_length_le] using spec

/-- The child's `exec` for any line, while `argc` leaves room for the line and
the null pointer. -/
theorem child_exec {argv : List (List Char)} (fits : argv.length + 1 ≤ Vm.maxArg) (two : 2 ≤ argv.length)
    (command : List Char) (buf : List Char) :
    child argv.length command (argv.tail.map Ptr.str ++ List.replicate (Vm.maxArg - (argv.length - 1)) Ptr.unset) buf =
      some ⟨command, argv.tail ++ [cstr buf]⟩ := by
  obtain ⟨g, gap⟩ : ∃ g, Vm.maxArg - (argv.length - 1) = g + 2 := ⟨Vm.maxArg - argv.length - 1, by omega⟩
  have tailLen : (argv.tail.map Ptr.str).length = argv.length - 1 := by simp
  have lineAt : assign (argv.tail.map Ptr.str ++ List.replicate (g + 2) Ptr.unset) (argv.length - 1) (Ptr.str (cstr buf)) =
      some ((argv.tail ++ [cstr buf]).map Ptr.str ++ Ptr.unset :: List.replicate g Ptr.unset) := by
    rw [assign_of_lt _ (by simp), List.set_append_right _ _ (by omega), tailLen, Nat.sub_self]
    simp [List.replicate_succ]
  have nullAt : assign ((argv.tail ++ [cstr buf]).map Ptr.str ++ Ptr.unset :: List.replicate g Ptr.unset) argv.length Ptr.null =
      some ((argv.tail ++ [cstr buf]).map Ptr.str ++ Ptr.null :: List.replicate g Ptr.unset) := by
    have len : ((argv.tail ++ [cstr buf]).map Ptr.str).length = argv.length := by simp; omega
    rw [assign_of_lt _ (by simp; omega), List.set_append_right _ _ (by omega), len, Nat.sub_self,
      List.set_cons_zero]
  simp only [child, gap, lineAt, nullAt, Option.bind_eq_bind, Option.bind_some, execArgs_strs]
  rfl

/-! ### Reading the input -/

/-- `char_idx` and `line_buf` after the bytes `p` of a line: the first
`MAX_LINE_LEN - 1` of them, at the start of `line_buf`. -/
def Holds (p : List Char) (s : State) : Prop :=
  s.lineBuf.length = maxLineLen ∧ s.charIdx = min p.length (maxLineLen - 1) ∧
    s.lineBuf.take s.charIdx = p.take (maxLineLen - 1)

/-- The end of a line: the child gets the line's first `MAX_LINE_LEN - 1` bytes
up to a NUL, and `line_buf` is ready for the next line. -/
theorem endLine_spec (argc : Nat) (command : List Char) (childArgv : List Ptr) {p : List Char} {s : State}
    (holds : Holds p s) :
    ∃ buf, endLine argc command childArgv s = (child argc command childArgv buf).map (fun e => (⟨0, buf⟩, e)) ∧
      cstr buf = cstr (p.take (maxLineLen - 1)) ∧ Holds [] ⟨0, buf⟩ := by
  obtain ⟨sized, idx, held⟩ := holds
  have inside : s.charIdx < s.lineBuf.length := by
    rw [sized, idx]
    unfold maxLineLen
    omega
  refine ⟨s.lineBuf.set s.charIdx '\x00', ?_, cstr_set_nul inside held, by simp [Holds, sized]⟩
  simp only [endLine, assign_of_lt _ inside, Option.bind_eq_bind, Option.bind_some]
  cases child argc command childArgv (s.lineBuf.set s.charIdx '\x00') <;> rfl

section Run

variable (argc : Nat) (command : List Char) (childArgv : List Ptr)

theorem onByte_keep {p : List Char} {s : State} {ch : Char} (other : ch ≠ '\n') (holds : Holds p s) :
    ∃ s', onByte argc command childArgv s ch = some (s', []) ∧ Holds (p ++ [ch]) s' := by
  obtain ⟨sized, idx, held⟩ := holds
  unfold onByte
  rw [if_neg other]
  by_cases room : s.charIdx < maxLineLen - 1
  · -- the byte is kept: the line so far is all in `line_buf`
    have short : p.length < maxLineLen - 1 := by omega
    have inside : s.charIdx < s.lineBuf.length := by omega
    rw [if_pos room, assign_of_lt _ inside]
    refine ⟨_, rfl, by simp [sized], by simp; omega, ?_⟩
    rw [take_succ_set _ inside, held, List.take_of_length_le (by omega),
      List.take_of_length_le (by simp; omega)]
  · -- `line_buf` is full: the byte is dropped
    rw [if_neg room]
    refine ⟨s, rfl, sized, by simp; omega, ?_⟩
    rw [held, List.take_append_of_le_length (by omega)]

theorem readLoop_keep : ∀ (l p : List Char) (s : State), '\n' ∉ l → Holds p s →
    ∃ s', readLoop argc command childArgv s l = some (s', []) ∧ Holds (p ++ l) s'
  | [], p, s, _, holds => ⟨s, rfl, by simpa using holds⟩
  | ch :: l, p, s, free, holds => by
    obtain ⟨s₁, stepped, holds₁⟩ := onByte_keep argc command childArgv (show ch ≠ '\n' from fun nl => free (by simp [nl])) holds
    obtain ⟨s₂, ran, holds₂⟩ := readLoop_keep l (p ++ [ch]) s₁ (fun inside => free (by simp [inside])) holds₁
    refine ⟨s₂, ?_, by simpa using holds₂⟩
    simp [readLoop, stepped, ran]

theorem readLoop_append (s : State) (a b : List Char) :
    readLoop argc command childArgv s (a ++ b) =
      (readLoop argc command childArgv s a).bind fun r =>
        (readLoop argc command childArgv r.1 b).map fun r' => (r'.1, r.2 ++ r'.2) := by
  induction a generalizing s with
  | nil =>
    simp only [List.nil_append, readLoop, Option.bind_some]
    cases readLoop argc command childArgv s b <;> simp
  | cons ch a ih =>
    simp only [List.cons_append, readLoop, Option.bind_eq_bind]
    cases onByte argc command childArgv s ch with
    | none => rfl
    | some r =>
      simp only [Option.bind_some, ih]
      cases readLoop argc command childArgv r.1 a with
      | none => rfl
      | some r₁ =>
        simp only [Option.bind_some]
        rcases ran : readLoop argc command childArgv r₁.1 b with _ | r₂ <;> simp [ran]

/-- The lines of a stream, each a child's `exec` as `line` says, and then the
bytes after the last `'\n'` in `line_buf`. -/
theorem readLoop_join (line : List Char → Exec)
    (each : ∀ buf, child argc command childArgv buf = some (line (cstr buf))) {last : List Char}
    (lastFree : '\n' ∉ last) :
    ∀ (lines : List (List Char)) (s : State), (∀ l ∈ lines, '\n' ∉ l) → Holds [] s →
      ∃ s', readLoop argc command childArgv s (Records.join '\n' lines ++ last) =
        some (s', lines.map fun l => line (cstr (l.take (maxLineLen - 1)))) ∧ Holds last s'
  | [], s, _, holds => by
    obtain ⟨s', ran, holds'⟩ := readLoop_keep argc command childArgv last [] s lastFree holds
    exact ⟨s', by simpa using ran, by simpa using holds'⟩
  | l :: ls, s, free, holds => by
    obtain ⟨s₁, kept, holds₁⟩ := readLoop_keep argc command childArgv l [] s (free l (by simp)) holds
    obtain ⟨buf, ended, cut, holds₂⟩ := endLine_spec argc command childArgv holds₁
    obtain ⟨s₃, ran, holds₃⟩ := readLoop_join line each lastFree ls ⟨0, buf⟩ (fun l' inside => free l' (by simp [inside])) holds₂
    refine ⟨s₃, ?_, holds₃⟩
    rw [Records.join_cons, List.append_assoc, List.cons_append, readLoop_append argc command childArgv, kept]
    simp [readLoop, onByte, ended, each, cut, ran]

end Run

/-- `xargs` runs the command once for each line that a `'\n'` ends and once more
for a last line without one if it is not empty, in order, each time with
`argv[1], ..., argv[argc-1]` and the line's first `MAX_LINE_LEN - 1` bytes up to
their first NUL, and never writes outside `child_argv` or `line_buf`. -/
theorem xargs_line_per_exec (argv : List (List Char)) (junk : List Char) (lines : List (List Char))
    (last : List Char) (argc : 2 ≤ argv.length ∧ argv.length ≤ Vm.maxArg - 1)
    (sized : junk.length = maxLineLen) (free : ∀ l ∈ lines, '\n' ∉ l) (lastFree : '\n' ∉ last) :
    main argv junk (Records.join '\n' lines ++ last) =
      some ((lines ++ if last = [] then [] else [last]).map fun l =>
        ⟨argv.getD 1 [], argv.tail ++ [cstr (l.take (maxLineLen - 1))]⟩) := by
  have fits : argv.length + 1 ≤ Vm.maxArg := by
    have := argc.2
    unfold Vm.maxArg at this ⊢
    omega
  have start : Holds [] ⟨0, junk⟩ := ⟨sized, rfl, rfl⟩
  obtain ⟨s, ran, ⟨len, idx, held⟩⟩ := readLoop_join argv.length (argv.getD 1 [])
    (argv.tail.map Ptr.str ++ List.replicate (Vm.maxArg - (argv.length - 1)) Ptr.unset)
    (fun L => ⟨argv.getD 1 [], argv.tail ++ [L]⟩) (child_exec fits argc.1 (argv.getD 1 [])) lastFree lines
    ⟨0, junk⟩ free start
  have notShort : ¬ argv.length < 2 := by omega
  simp only [main, notShort, if_false, copyArgs_main (by omega : argv.length ≤ Vm.maxArg) argc.1, ran,
    Option.bind_eq_bind, Option.bind_some]
  by_cases empty : last = []
  · -- nothing after the last `'\n'`: no child for it
    subst empty
    simp [idx]
  · -- the last line has bytes, so a last child runs with them
    have pos : 0 < s.charIdx := by
      rw [idx]
      have : 0 < last.length := List.length_pos_of_ne_nil empty
      unfold maxLineLen
      omega
    obtain ⟨buf, ended, cut, -⟩ := endLine_spec argv.length (argv.getD 1 [])
      (argv.tail.map .str ++ List.replicate (Vm.maxArg - (argv.length - 1)) .unset) ⟨len, idx, held⟩
    rw [if_pos pos, ended, child_exec fits argc.1]
    simp [cut, empty]

/-- Two lines, the second empty, and a last one without `'\n'`, for a command
with one argument of its own. -/
theorem xargs_line_per_exec_two_lines :
    (2 ≤ [['x'], ['e'], ['1']].length ∧ [['x'], ['e'], ['1']].length ≤ Vm.maxArg - 1) ∧
      (List.replicate maxLineLen 'j').length = maxLineLen ∧ (∀ l ∈ [['a'], []], '\n' ∉ l) ∧ '\n' ∉ ['b'] ∧
      main [['x'], ['e'], ['1']] (List.replicate maxLineLen 'j') (Records.join '\n' [['a'], []] ++ ['b']) =
        some (([['a'], []] ++ if ['b'] = [] then [] else [['b']]).map fun l =>
          ⟨[['x'], ['e'], ['1']].getD 1 [], [['x'], ['e'], ['1']].tail ++ [cstr (l.take (maxLineLen - 1))]⟩) :=
  ⟨by decide, by simp, by decide, by decide,
    xargs_line_per_exec _ _ _ _ (by decide) (by simp) (by decide) (by decide)⟩

set_option maxRecDepth 8000 in
/-- A line with a NUL in it reaches `exec` cut at the NUL. -/
theorem xargs_nul_cuts_line :
    main [['x'], ['e']] (List.replicate maxLineLen 'j') ['a', '\x00', 'b', '\n'] =
      some [⟨['e'], [['e'], ['a']]⟩] := by
  decide

end Xv6.Xargs
