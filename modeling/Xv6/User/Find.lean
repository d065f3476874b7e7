import Xv6.Fs.DirMap
import Xv6.Lib.Records

/-!
Contract: `find` of `user/find.c` over the file system as its system calls see
it, and the paths it prints.

A file system is, for each path name, what `open` reaches there: nothing, a
regular file, a device, or a directory with the entries `read` returns from it,
in order. `find` keeps the directory it reads open while it descends, and
`stat` of `user/ulib.c` opens the path it looks at, so the recursion is on the
file descriptors still free: `open` fails once they are used up, and a process
that `sh` starts has `NOFILE - 3` of them. `strcmp` and `strcpy` read an entry's
name as a C string: a name of `DIRSIZ` bytes with no NUL runs on into the bytes
that follow `de` in `find`'s frame, `after`.

`Found` is the set of paths `find` is meant to print: the regular files of the
name sought below the path, through directories. `find_spec` shows that `find`
prints each of them once and nothing else on standard output, for trees whose
names are shorter than `DIRSIZ` and whose chains of directories fit in the free
descriptors; `find_misses_deep_file` is a file twelve directories down that it
does not print. A name of exactly `DIRSIZ` bytes is copied and compared as a C
string that runs on past the entry (`visit_printed_begins`), so `find` misses
such a file (`find_misses_full_name`), where `ls` copies `DIRSIZ` bytes and ends
them.

Owns: `Node`, `Files`, `Msg`, `find`, `main`, `printed`, `Live`, `Found`,
`WellNamed`, `Tree`.
-/

namespace Xv6.Find

open Fs (Dirent namecmp cstr dot dotdot dirSiz slash)

/-- What `open` reaches at a path, as `fstat` and `read` show it. -/
inductive Node where
  | file
  | device
  | dir (entries : List Dirent)

/-- What each path name leads to; none where `namei` finds nothing. -/
abbrev Files := List UInt8 → Option Node

/-- A line `find` writes: a path it found, on standard output, as is the
message that a path is too long; the others go to standard error. -/
inductive Msg where
  | found (path : List UInt8)
  | tooLong
  | cannotOpen (path : List UInt8)
  | cannotStat (path : List UInt8)
  | notDir (path : List UInt8)
  | usage
deriving DecidableEq, Repr

/-- One round of the loop of `find` over the directory at `path`: its entry `de`,
with `free` descriptors left and `recurse` the call of `find` on a subdirectory. -/
def visit (fs : Files) (after filename : List UInt8) (free : Nat) (recurse : List UInt8 → List Msg)
    (path : List UInt8) (de : Dirent) : List Msg :=
  let name := cstr (de.name ++ after)
  if de.inum = 0 ∨ name = dot ∨ name = dotdot then []
  else
    let buf := path ++ slash :: name
    -- `stat` opens `buf`, and fails with every descriptor in use
    if free = 0 then [.cannotStat buf]
    else
      match fs buf with
      | none => [.cannotStat buf]
      | some .file => if name = cstr filename then [.found buf] else []
      | some (.dir _) => recurse buf
      | some .device => []

/-- `find(path, filename)` with `free` file descriptors not in use. -/
def find (fs : Files) (after filename : List UInt8) : Nat → List UInt8 → List Msg
  | 0, path => [.cannotOpen path]
  | free + 1, path =>
    match fs path with
    | none => [.cannotOpen path]
    | some (.dir entries) =>
      if path.length + 1 + dirSiz + 1 > 512 then [.tooLong]
      else entries.flatMap (visit fs after filename free (find fs after filename free) path)
    | some _ => [.notDir path]

/-- `main`: `find(argv[1], argv[2])`, with descriptors 0, 1 and 2 in use. -/
def main (fs : Files) (after : List UInt8) (argv : List (List UInt8)) : List Msg :=
  if argv.length < 3 then [.usage]
  else find fs after (argv.getD 2 []) (nOFile - 3) (argv.getD 1 [])

/-- The paths on standard output. -/
def printed (msgs : List Msg) : List (List UInt8) :=
  msgs.filterMap fun
    | .found p => some p
    | _ => none

/-! ### What `find` is to print -/

/-- An entry `find` looks into: in use, and neither `.` nor `..`. -/
def Live (de : Dirent) : Prop :=
  de.inum ≠ 0 ∧ cstr de.name ≠ dot ∧ cstr de.name ≠ dotdot

instance : DecidablePred Live := fun _ => inferInstanceAs (Decidable (_ ∧ _ ∧ _))

/-- `q` is `path/e₁/…/e_k`, each `e_i` the name of a live entry of the directory
before it, `e₁ … e_{k-1}` directories and `e_k` a regular file whose name
`namecmp` finds equal to `filename`. -/
inductive Found (fs : Files) (filename : List UInt8) : List UInt8 → List UInt8 → Prop
  | file {path : List UInt8} {entries : List Dirent} {de : Dirent} :
      fs path = some (.dir entries) → de ∈ entries → Live de →
      fs (path ++ slash :: cstr de.name) = some .file → namecmp de.name filename = 0 →
      Found fs filename path (path ++ slash :: cstr de.name)
  | dir {path : List UInt8} {entries sub : List Dirent} {de : Dirent} {q : List UInt8} :
      fs path = some (.dir entries) → de ∈ entries → Live de →
      fs (path ++ slash :: cstr de.name) = some (.dir sub) →
      Found fs filename (path ++ slash :: cstr de.name) q → Found fs filename path q

/-- The entries in use of a directory: a NUL among the `DIRSIZ` bytes of each name
and no `/` in it, and no two live names alike. -/
def WellNamed (entries : List Dirent) : Prop :=
  (∀ de ∈ entries, de.inum ≠ 0 → (0 : UInt8) ∈ de.name.take dirSiz ∧ slash ∉ cstr de.name) ∧
    ((entries.filter fun de => decide (Live de)).map fun de => cstr de.name).Nodup

instance : DecidablePred WellNamed := fun _ => inferInstanceAs (Decidable (_ ∧ _))

/-- A directory at `path` below which no chain of directories, itself counted, is
longer than `d`; each with a path shorter than `MAXPATH` and well-named entries. -/
def Tree (fs : Files) : Nat → List UInt8 → Prop
  | 0, _ => False
  | d + 1, path => ∃ entries, fs path = some (.dir entries) ∧ path.length < maxPath ∧ WellNamed entries ∧
      ∀ de ∈ entries, Live de → ∀ sub, fs (path ++ slash :: cstr de.name) = some (.dir sub) →
        Tree fs d (path ++ slash :: cstr de.name)

/-! ### Names -/

theorem cstr_append_of_mem {n : List UInt8} (nul : (0 : UInt8) ∈ n) (rest : List UInt8) :
    cstr (n ++ rest) = cstr n := by
  induction n with
  | nil => simp at nul
  | cons x n ih =>
    by_cases zero : x = 0
    · simp [cstr, zero]
    · have inner : (0 : UInt8) ∈ n := (List.mem_cons.mp nul).resolve_left fun here => zero here.symm
      rw [List.cons_append, Fs.cstr_cons zero, Fs.cstr_cons zero, ih inner]

theorem length_cstr_lt {l : List UInt8} (nul : (0 : UInt8) ∈ l) : (cstr l).length < l.length := by
  induction l with
  | nil => simp at nul
  | cons x l ih =>
    by_cases zero : x = 0
    · simp [cstr, zero]
    · have inner : (0 : UInt8) ∈ l := (List.mem_cons.mp nul).resolve_left fun here => zero here.symm
      rw [Fs.cstr_cons zero, List.length_cons, List.length_cons]
      exact Nat.succ_lt_succ (ih inner)

theorem cstr_take (t : List UInt8) (k : Nat) : cstr (t.take k) = (cstr t).take k := by
  induction t generalizing k with
  | nil => simp [cstr]
  | cons x t ih =>
    cases k with
    | zero => simp [cstr]
    | succ k =>
      by_cases zero : x = 0
      · simp [cstr, zero]
      · rw [List.take_succ_cons, Fs.cstr_cons zero, Fs.cstr_cons zero, List.take_succ_cons, ih]

/-- A name whose NUL lies within `DIRSIZ` bytes is equal under `namecmp` to the
names whose C string it is. -/
theorem namecmp_eq_zero_iff_cstr {n t : List UInt8} (nul : (0 : UInt8) ∈ n.take dirSiz) :
    namecmp n t = 0 ↔ cstr n = cstr t := by
  have whole : cstr (n.take dirSiz) = cstr n := by
    rw [← cstr_append_of_mem nul (n.drop dirSiz), List.take_append_drop]
  have short : (cstr n).length < dirSiz := by
    rw [← whole]
    exact lt_of_lt_of_le (length_cstr_lt nul) (List.length_take_le _ _)
  unfold namecmp
  rw [Fs.strncmp_eq_zero_iff, whole, cstr_take]
  constructor
  · intro same
    by_cases long : dirSiz ≤ (cstr t).length
    · have := congrArg List.length same
      simp [List.length_take, Nat.min_eq_left long] at this
      omega
    · rw [List.take_of_length_le (by omega)] at same
      exact same
  · intro same
    rw [← same, List.take_of_length_le short.le]

/-! ### Standard output -/

theorem printed_append (a b : List Msg) : printed (a ++ b) = printed a ++ printed b :=
  List.filterMap_append

theorem printed_flatMap {α : Type} (f : α → List Msg) (l : List α) :
    printed (l.flatMap f) = l.flatMap fun a => printed (f a) := by
  induction l with
  | nil => rfl
  | cons a l ih => rw [List.flatMap_cons, List.flatMap_cons, printed_append, ih]

/-! ### Where the printed paths lie -/

section Begins

variable {fs : Files} {after filename : List UInt8}

/-- A path printed for the entry `de` of the directory at `path` is `path`, a `/`
and the name as `strcpy` copied it, run on into `after` when no NUL ends it, then
the rest; given that the recursion prints only below the path it is given. -/
theorem visit_printed_begins {free : Nat} {recurse : List UInt8 → List Msg} {path q : List UInt8}
    {de : Dirent} (below : ∀ buf q, q ∈ printed (recurse buf) → ∃ t, q = buf ++ slash :: t)
    (inside : q ∈ printed (visit fs after filename free recurse path de)) :
    ∃ t, q = path ++ slash :: (cstr (de.name ++ after) ++ t) := by
  simp only [visit] at inside
  by_cases skipped : de.inum = 0 ∨ cstr (de.name ++ after) = dot ∨ cstr (de.name ++ after) = dotdot
  · rw [if_pos skipped] at inside
    simp [printed] at inside
  rw [if_neg skipped] at inside
  by_cases statless : free = 0
  · rw [if_pos statless] at inside
    simp [printed] at inside
  rw [if_neg statless] at inside
  -- what `stat` finds at the path decides
  split at inside
  · simp [printed] at inside
  · split_ifs at inside with sought
    · simp only [printed, List.filterMap_cons, List.filterMap_nil, List.mem_singleton] at inside
      exact ⟨[], by simp [inside]⟩
    · simp [printed] at inside
  · obtain ⟨t, rfl⟩ := below _ q inside
    exact ⟨slash :: t, by simp⟩
  · simp [printed] at inside

/-- Every path `find` prints from `path` is `path`, a `/`, and more. -/
theorem find_printed_begins : ∀ free path q, q ∈ printed (find fs after filename free path) →
    ∃ t, q = path ++ slash :: t := by
  intro free
  induction free with
  | zero => intro path q inside; simp [find, printed] at inside
  | succ free ih =>
    intro path q inside
    unfold find at inside
    split at inside
    · simp [printed] at inside
    · split_ifs at inside
      · simp [printed] at inside
      · rw [printed_flatMap, List.mem_flatMap] at inside
        obtain ⟨de, -, through⟩ := inside
        obtain ⟨t, rfl⟩ := visit_printed_begins ih through
        exact ⟨_, rfl⟩
    · simp [printed] at inside

end Begins

/-! ### What is found below one entry -/

/-- `q` is found through the entry `de` of the directory at `path`: it is the
entry, a regular file of the name sought, or a path found below it, a directory. -/
def FoundVia (fs : Files) (filename path : List UInt8) (de : Dirent) (q : List UInt8) : Prop :=
  (fs (path ++ slash :: cstr de.name) = some .file ∧ namecmp de.name filename = 0 ∧
      q = path ++ slash :: cstr de.name) ∨
    ∃ sub, fs (path ++ slash :: cstr de.name) = some (.dir sub) ∧
      Found fs filename (path ++ slash :: cstr de.name) q

section Found

variable {fs : Files} {filename path q : List UInt8}

theorem found_iff :
    Found fs filename path q ↔
      ∃ entries, fs path = some (.dir entries) ∧ ∃ de ∈ entries, Live de ∧ FoundVia fs filename path de q := by
  constructor
  · intro found
    cases found with
    | file dir mem live file same => exact ⟨_, dir, _, mem, live, .inl ⟨file, same, rfl⟩⟩
    | dir dir mem live isDir below => exact ⟨_, dir, _, mem, live, .inr ⟨_, isDir, below⟩⟩
  · rintro ⟨entries, dir, de, mem, live, ⟨file, same, rfl⟩ | ⟨sub, isDir, below⟩⟩
    · exact .file dir mem live file same
    · exact .dir dir mem live isDir below

/-- A path found below `path` is `path`, a `/` and more. -/
theorem Found.begins (found : Found fs filename path q) : ∃ t, q = path ++ slash :: t := by
  induction found with
  | file => exact ⟨_, rfl⟩
  | dir _ _ _ _ _ ih =>
    obtain ⟨t, rfl⟩ := ih
    exact ⟨_, by rw [List.append_assoc, List.cons_append]⟩

/-- A path found through `de` is the entry's path, then nothing or a `/` and more. -/
theorem FoundVia.begins {de : Dirent} (via : FoundVia fs filename path de q) :
    ∃ r, q = path ++ slash :: (cstr de.name ++ r) ∧ (r = [] ∨ ∃ t, r = slash :: t) := by
  rcases via with ⟨-, -, rfl⟩ | ⟨sub, -, below⟩
  · exact ⟨[], by simp, .inl rfl⟩
  · obtain ⟨t, rfl⟩ := below.begins
    exact ⟨slash :: t, by simp, .inr ⟨t, rfl⟩⟩

/-- Two entries whose names differ and hold no `/` find no path in common. -/
theorem FoundVia.apart {a b : Dirent} (aFree : slash ∉ cstr a.name) (bFree : slash ∉ cstr b.name)
    (differ : cstr a.name ≠ cstr b.name) (viaA : FoundVia fs filename path a q)
    (viaB : FoundVia fs filename path b q) : False := by
  obtain ⟨r, rfl, rShape⟩ := viaA.begins
  obtain ⟨s, same, sShape⟩ := viaB.begins
  simp only [List.append_cancel_left_eq, List.cons.injEq, true_and] at same
  exact differ (Records.eq_of_begins aFree bFree rShape sShape same)

end Found

/-! ### `find` prints what is found -/

/-- The lines `out` that `find` writes for the directory at `path` are those it is
meant to write: no "path too long", and on standard output each path found below
`path`, once. -/
def Reports (fs : Files) (filename path : List UInt8) (out : List Msg) : Prop :=
  Msg.tooLong ∉ out ∧ (printed out).Nodup ∧ ∀ q, q ∈ printed out ↔ Found fs filename path q

section Spec

variable {fs : Files} {after filename : List UInt8}

/-- One entry, with a descriptor left for `stat` and its subdirectory reported as
asked: what `find` writes for it is what is found through it, once. -/
theorem visit_spec {free : Nat} {recurse : List UInt8 → List Msg} {path : List UInt8} {de : Dirent}
    (named : de.inum ≠ 0 → (0 : UInt8) ∈ de.name.take dirSiz) (statable : free ≠ 0)
    (below : Live de → ∀ sub, fs (path ++ slash :: cstr de.name) = some (.dir sub) →
      Reports fs filename (path ++ slash :: cstr de.name) (recurse (path ++ slash :: cstr de.name))) :
    Msg.tooLong ∉ visit fs after filename free recurse path de ∧
      (printed (visit fs after filename free recurse path de)).Nodup ∧
      ∀ q, q ∈ printed (visit fs after filename free recurse path de) ↔ Live de ∧ FoundVia fs filename path de q := by
  by_cases unused : de.inum = 0
  · simp [visit, unused, printed, Live]
  have nul := named unused
  have name : cstr (de.name ++ after) = cstr de.name := cstr_append_of_mem (List.mem_of_mem_take nul) after
  by_cases skipped : cstr de.name = dot ∨ cstr de.name = dotdot
  · have dead : ¬ Live de := fun ⟨_, notDot, notDotdot⟩ => skipped.elim notDot notDotdot
    simp [visit, name, skipped, dead, printed]
  have live : Live de := ⟨unused, not_or.mp skipped⟩
  simp only [visit, name, unused, skipped, false_or, if_false, if_neg statable]
  -- what `stat` finds at the entry's path decides
  cases entry : fs (path ++ slash :: cstr de.name) with
  | none => simp [printed, FoundVia, entry]
  | some node =>
    cases node with
    | file =>
      have sameName := namecmp_eq_zero_iff_cstr (t := filename) nul
      by_cases sought : cstr de.name = cstr filename
      · simp [printed, FoundVia, entry, live, if_pos sought, sameName.mpr sought]
      · simp [printed, FoundVia, entry, sought, sameName]
    | device => simp [printed, FoundVia, entry]
    | dir sub =>
      obtain ⟨notLong, nodup, found⟩ := below live sub entry
      exact ⟨notLong, nodup, fun q => by simp [found, FoundVia, entry, live]⟩

/-- **Step.** A directory of well-named entries whose path fits in `buf`, with a
descriptor left for `stat` once it is open and each subdirectory reported as asked:
`find` reports it as asked. -/
theorem find_dir_reports {free : Nat} {path : List UInt8} {entries : List Dirent}
    (dir : fs path = some (.dir entries)) (short : path.length < maxPath) (named : WellNamed entries)
    (statable : free ≠ 0)
    (below : ∀ de ∈ entries, Live de → ∀ sub, fs (path ++ slash :: cstr de.name) = some (.dir sub) →
      Reports fs filename (path ++ slash :: cstr de.name)
        (find fs after filename free (path ++ slash :: cstr de.name))) :
    Reports fs filename path (find fs after filename (free + 1) path) := by
  have fits : ¬ path.length + 1 + dirSiz + 1 > 512 := by
    simp only [maxPath] at short
    simp only [dirSiz]
    omega
  have each := fun de (mem : de ∈ entries) =>
    @visit_spec fs after filename free (find fs after filename free) path de
      (fun used => (named.1 de mem used).1) statable (below de mem)
  simp only [find, dir, if_neg fits]
  refine ⟨fun long => ?_, ?_, fun q => ?_⟩
  · obtain ⟨de, mem, inside⟩ := List.mem_flatMap.mp long
    exact (each de mem).1 inside
  · rw [printed_flatMap, List.nodup_flatMap]
    refine ⟨fun de mem => (each de mem).2.1, ?_⟩
    -- the live names are distinct, and distinct names find apart
    have distinct := List.pairwise_filter.mp (List.pairwise_map.mp named.2)
    refine distinct.imp_of_mem fun {a b} memA memB differ => ?_
    intro q inA inB
    obtain ⟨liveA, viaA⟩ := ((each a memA).2.2 q).mp inA
    obtain ⟨liveB, viaB⟩ := ((each b memB).2.2 q).mp inB
    exact FoundVia.apart (named.1 a memA liveA.1).2 (named.1 b memB liveB.1).2
      (differ (by simpa using liveA) (by simpa using liveB)) viaA viaB
  · rw [printed_flatMap, List.mem_flatMap, found_iff]
    constructor
    · rintro ⟨de, mem, inside⟩
      exact ⟨entries, dir, de, mem, ((each de mem).2.2 q).mp inside⟩
    · rintro ⟨entries', dir', de, mem, found⟩
      obtain rfl : entries' = entries := by simpa [dir] using dir'.symm
      exact ⟨de, mem, ((each de mem).2.2 q).mpr found⟩

/-- **Run.** Below a tree of depth `d`, with a descriptor for each of its levels and
one for `stat`, `find` prints each path found once, and nothing else. -/
theorem find_spec (d : Nat) :
    ∀ {free path}, Tree fs d path → d + 1 ≤ free → Reports fs filename path (find fs after filename free path) := by
  induction d with
  | zero => exact fun tree => tree.elim
  | succ d ih =>
    intro free path tree enough
    obtain ⟨entries, dir, short, named, below⟩ := tree
    obtain ⟨free, rfl⟩ : ∃ f, free = f + 1 := ⟨free - 1, by omega⟩
    apply find_dir_reports dir short named (by omega)
    intro de mem live sub isDir
    exact ih (below de mem live sub isDir) (by omega)

end Spec

/-! ### A chain of directories -/

/-- The entry `a`, a directory in the chain below. -/
def aEntry : Dirent := ⟨2, 97 :: List.replicate 13 0⟩

/-- The entry `f`, the file sought at the bottom of the chain. -/
def fEntry : Dirent := ⟨3, 102 :: List.replicate 13 0⟩

/-- `./a/…/a`, with `n` directories `a` below `.`. -/
def chainPath : Nat → List UInt8
  | 0 => dot
  | n + 1 => chainPath n ++ slash :: [97]

/-- `.` and the `n` directories `a` below it, each the only entry of the one above,
and the file `f` in the last. -/
def chainFs (n : Nat) : Files := fun p =>
  if p = chainPath n ++ slash :: [102] then some .file
  else if p = chainPath n then some (.dir [fEntry])
  else if p ∈ (List.range n).map chainPath then some (.dir [aEntry])
  else none

theorem length_chainPath (n : Nat) : (chainPath n).length = 2 * n + 1 := by
  induction n with
  | zero => rfl
  | succ n ih =>
    simp only [chainPath, List.length_append, List.length_cons, List.length_nil, ih]
    omega

theorem chainPath_inj {j k : Nat} (same : chainPath j = chainPath k) : j = k := by
  have := congrArg List.length same
  simp only [length_chainPath] at this
  omega

/-- A directory of the chain ends in `.` or `a`, the file in `f`. -/
theorem chainPath_ne_file (j n : Nat) : chainPath j ≠ chainPath n ++ slash :: [102] := by
  intro same
  cases j with
  | zero =>
    have := congrArg List.length same
    simp only [chainPath, dot, length_chainPath, List.length_append, List.length_cons, List.length_nil] at this
    omega
  | succ j =>
    rw [chainPath] at same
    have tails := (List.append_inj' same rfl).2
    simp at tails

theorem chainFs_file (n : Nat) : chainFs n (chainPath n ++ slash :: [102]) = some .file := by
  simp [chainFs]

theorem chainFs_last (n : Nat) : chainFs n (chainPath n) = some (.dir [fEntry]) := by
  simp [chainFs]

theorem chainFs_inner {k n : Nat} (lt : k < n) : chainFs n (chainPath k) = some (.dir [aEntry]) := by
  have other : chainPath k ≠ chainPath n := fun same => absurd (chainPath_inj same) (by omega)
  simp only [chainFs, if_neg (chainPath_ne_file k n), if_neg other, List.mem_map, List.mem_range]
  rw [if_pos ⟨k, lt, rfl⟩]

theorem chainFs_dir {k n : Nat} (le : k ≤ n) : ∃ sub, chainFs n (chainPath k) = some (.dir sub) := by
  by_cases last : k = n
  · subst last
    exact ⟨_, chainFs_last k⟩
  · exact ⟨_, chainFs_inner (by omega)⟩

theorem chainPath_succ (k : Nat) : chainPath k ++ slash :: cstr aEntry.name = chainPath (k + 1) := rfl

/-- The chain is a `Tree` one level deeper than its directories `a`. -/
theorem tree_chain {n : Nat} (short : n < 63) : ∀ m k, k + m = n → Tree (chainFs n) (m + 1) (chainPath k) := by
  intro m
  induction m with
  | zero =>
    intro k sum
    obtain rfl : k = n := by omega
    refine ⟨[fEntry], chainFs_last k, by simp [length_chainPath, maxPath]; omega, by decide, ?_⟩
    intro de mem _ sub isDir
    rw [List.mem_singleton.mp mem, show cstr fEntry.name = [102] from rfl, chainFs_file] at isDir
    cases isDir
  | succ m ih =>
    intro k sum
    refine ⟨[aEntry], chainFs_inner (by omega), by simp [length_chainPath, maxPath]; omega, by decide, ?_⟩
    intro de mem _ sub _
    rw [List.mem_singleton.mp mem, chainPath_succ]
    exact ih (k + 1) (by omega)

/-- The file `f` at the bottom of the chain is found from every directory of it. -/
theorem found_chain (n : Nat) : ∀ m k, k + m = n → Found (chainFs n) [102] (chainPath k) (chainPath n ++ slash :: [102])
  | 0, k, sum => by
    obtain rfl : k = n := by omega
    exact .file (chainFs_last k) (List.mem_singleton_self _) (by decide) (chainFs_file k) (by decide)
  | m + 1, k, sum => by
    have below := found_chain n m (k + 1) (by omega)
    obtain ⟨sub, isDir⟩ := chainFs_dir (show k + 1 ≤ n by omega)
    rw [← chainPath_succ] at below isDir
    exact .dir (chainFs_inner (by omega)) (List.mem_singleton_self _) (by decide) isDir below

/-! ### `find` from the shell -/

theorem find_reports_each_match (fs : Files) (after path filename name0 : List UInt8) (rest : List (List UInt8))
    (d : Nat) (tree : Tree fs d path) (shallow : d + 1 ≤ nOFile - 3) :
    Msg.tooLong ∉ main fs after (name0 :: path :: filename :: rest) ∧
      (printed (main fs after (name0 :: path :: filename :: rest))).Nodup ∧
      ∀ q, q ∈ printed (main fs after (name0 :: path :: filename :: rest)) ↔ Found fs filename path q := by
  have three : ¬ (name0 :: path :: filename :: rest).length < 3 := by simp
  rw [main, if_neg three]
  exact find_spec d tree shallow

theorem find_reports_each_match_chain :
    Tree (chainFs 3) 4 dot ∧ 4 + 1 ≤ nOFile - 3 ∧
      (Msg.tooLong ∉ main (chainFs 3) [] [[102, 105, 110, 100], dot, [102]] ∧
        (printed (main (chainFs 3) [] [[102, 105, 110, 100], dot, [102]])).Nodup ∧
        ∀ q, q ∈ printed (main (chainFs 3) [] [[102, 105, 110, 100], dot, [102]]) ↔
          Found (chainFs 3) [102] dot q) :=
  ⟨tree_chain (by decide) 3 0 rfl, by decide,
    find_reports_each_match _ _ _ _ _ _ 4 (tree_chain (by decide) 3 0 rfl) (by decide)⟩

/-- The file `f` twelve directories below `.`, on a path of 28 bytes: `find . f`
from the shell writes only that it cannot `stat` it, every descriptor being in use. -/
theorem find_misses_deep_file :
    Tree (chainFs 12) 13 dot ∧ Found (chainFs 12) [102] dot (chainPath 12 ++ slash :: [102]) ∧
      main (chainFs 12) [] [[102, 105, 110, 100], dot, [102]] = [.cannotStat (chainPath 12 ++ slash :: [102])] :=
  ⟨tree_chain (by decide) 12 0 rfl, found_chain 12 12 0 rfl, by decide⟩

/-! ### A name of `DIRSIZ` bytes -/

/-- `abcdefghijklmn`: a name of exactly `DIRSIZ` bytes, with no NUL. -/
def fullName : List UInt8 := [97, 98, 99, 100, 101, 102, 103, 104, 105, 106, 107, 108, 109, 110]

/-- The entry of the file `fullName`, inode 2. -/
def fullEntry : Dirent := ⟨2, fullName⟩

/-- `.` holding the regular file `fullName`. `namei` keeps the first `DIRSIZ` bytes of
each element of a path (`skipelem`), so every path `./fullName…` with no further `/`
leads to the file. -/
def fullNameFs : Files := fun p =>
  if p = dot then some (.dir [fullEntry])
  else if p.take 16 = dot ++ slash :: fullName ∧ slash ∉ p.drop 2 then some .file
  else none

/-- The file `fullName` in `.` is to be found by `find . fullName`; run from the shell
with the byte after `de.name` in `find`'s frame not NUL (here 1), `strcpy` copies the
name on into that byte, `stat` of the path it built finds the file, and `strcmp`
finds the names different: the file's path is not printed. -/
theorem find_misses_full_name :
    Found fullNameFs fullName dot (dot ++ slash :: fullName) ∧
      dot ++ slash :: fullName ∉ printed (main fullNameFs [1] [[102, 105, 110, 100], dot, fullName]) := by
  have dir : fullNameFs dot = some (.dir [fullEntry]) := rfl
  refine ⟨.file dir (List.mem_singleton_self _) (by decide) rfl (by decide), fun printedHere => ?_⟩
  have only : main fullNameFs [1] [[102, 105, 110, 100], dot, fullName] =
      visit fullNameFs [1] fullName 12 (find fullNameFs [1] fullName 12) dot fullEntry := by
    show find fullNameFs [1] fullName (12 + 1) dot = _
    have fits : ¬ dot.length + 1 + dirSiz + 1 > 512 := by decide
    rw [find, dir]
    simp only [if_neg fits, List.flatMap_singleton]
  rw [only] at printedHere
  obtain ⟨t, same⟩ := visit_printed_begins (find_printed_begins 12) printedHere
  -- the printed path is a byte longer than the file's
  have := congrArg List.length same
  simp [fullEntry, fullName, cstr, dot] at this

end Xv6.Find
