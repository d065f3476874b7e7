import Xv6.User.ShGrammar

/-!
Contract: `runcmd` of `user/sh.c`: how the shell runs a parsed command, by the
descriptor calls `close`, `dup`, `open` and `pipe` in the processes it forks.

A process's descriptors are its `ofile[]`, each free or referring to an open
file (`Fds`); `runcmd` tells apart what the shell inherited at each descriptor,
the two ends of each pipe it makes, and the file each redirection opens. The
calls act on the table as `sys_close`, `sys_dup`, `sys_open` and `sys_pipe` do:
`fdalloc` gives a new file the lowest free descriptor. Whether the file system
opens a redirection's file is `opens`, outside this model; `fork` and the memory
of a pipe are taken to be there. `runcmd` never returns: what it computes is how
each process it starts ends (`Outcome`), an `exec` with its descriptors or a
failure.

`plan` says what a command line means: the commands it runs and where each one's
descriptors point. `runcmd` implements it (`runcmd_plan`), and for every line
`parsecmd` accepts each command the shell execs has descriptors 0, 1 and 2 open
and no other (`sh_runs_line`).

Owns: `Chan`, `Fds`, `fdalloc`, `close`, `dup`, `openAt`, `pipe`, `Outcome`,
`runcmd`, `plan`, `Cmd.stdRedirs`.
-/

namespace Xv6.Sh

/-- What a descriptor refers to, as far as `runcmd` tells open files apart. -/
inductive Chan where
  /-- What the shell had open at this descriptor. -/
  | inherited (fd : Nat)
  /-- The read end of the `n`-th pipe. -/
  | pipeRead (n : Nat)
  /-- The write end of the `n`-th pipe. -/
  | pipeWrite (n : Nat)
  /-- The file a redirection opened: its word's position in the line, and the mode. -/
  | file (file mode : Nat)
  deriving DecidableEq, Repr

/-- A process's `ofile[]`. -/
abbrev Fds := Fin nOFile → Option Chan

/-- `fdalloc`'s search: the lowest free descriptor. -/
def fdalloc (fds : Fds) : Option (Fin nOFile) :=
  (List.finRange nOFile).find? fun fd => fds fd = none

/-- `close(fd)`: `sys_close` frees the descriptor if it is open. -/
def close (fds : Fds) (fd : Nat) : Fds :=
  if h : fd < nOFile then Function.update fds ⟨fd, h⟩ none else fds

/-- `dup(fd)`: the lowest free descriptor gets `fd`'s file; `runcmd` ignores a failure. -/
def dup (fds : Fds) (fd : Nat) : Fds :=
  if h : fd < nOFile then
    match fds ⟨fd, h⟩, fdalloc fds with
    | some c, some new => Function.update fds new (some c)
    | _, _ => fds
  else fds

/-- `open(file, mode)`: the table after it, or `none` where it returns -1. -/
def openAt (opens : Nat → Nat → Bool) (fds : Fds) (file mode : Nat) : Option Fds :=
  if opens file mode then (fdalloc fds).map fun fd => Function.update fds fd (some (.file file mode))
  else none

/-- `pipe(p)`: the read end at the lowest free descriptor, then the write end at the
next; the table and `p[0]`, `p[1]`, or `none` where it returns -1. -/
def pipe (fds : Fds) (n : Nat) : Option (Fds × Nat × Nat) := do
  let r ← fdalloc fds
  let fds := Function.update fds r (some (.pipeRead n))
  let w ← fdalloc fds
  return (Function.update fds w (some (.pipeWrite n)), r.val, w.val)

/-- How a process `runcmd` starts ends. -/
inductive Outcome (σ : Type) where
  /-- `exec(argv[0], argv)`, with the descriptors `σ`. -/
  | exec (argv : List (Nat × Nat)) (fds : σ)
  /-- `open %s failed`, `exit(1)`. -/
  | openFailed (file : Nat)
  /-- `panic("pipe")`. -/
  | panic

def Outcome.map {σ τ : Type} (f : σ → τ) : Outcome σ → Outcome τ
  | .exec argv fds => .exec argv (f fds)
  | .openFailed file => .openFailed file
  | .panic => .panic

/-- `runcmd(cmd)`: how each process it starts, itself included, ends; `n` numbers
the pipes it makes. -/
def runcmd (opens : Nat → Nat → Bool) : Cmd → Fds → Nat → List (Outcome Fds) × Nat
  | .exec argv, fds, n => (if argv = [] then [] else [.exec argv fds], n)
  | .redir cmd r, fds, n =>
    match openAt opens (close fds r.fd) r.file r.mode with
    | some fds => runcmd opens cmd fds n
    | none => ([.openFailed r.file], n)
  | .list left right, fds, n =>
    -- the left side in a child, then, after `wait`, the right side in this process
    let a := runcmd opens left fds n
    let b := runcmd opens right fds a.2
    (a.1 ++ b.1, b.2)
  | .pipe left right, fds, n =>
    match pipe fds n with
    | none => ([.panic], n)
    | some (fds, r, w) =>
      let a := runcmd opens left (close (close (dup (close fds 1) w) r) w) (n + 1)
      let b := runcmd opens right (close (close (dup (close fds 0) r) r) w) a.2
      (a.1 ++ b.1, b.2)
  | .back cmd, fds, n => runcmd opens cmd fds n

/-! ### What a command line means -/

/-- The commands a line runs, each with where its descriptors point: a redirection
points its descriptor at its file for the command inside it, a pipe points the left
side's output at its write end and the right side's input at its read end; and the
redirections whose file does not open. -/
def plan (opens : Nat → Nat → Bool) : Cmd → (Nat → Option Chan) → Nat → List (Outcome (Nat → Option Chan)) × Nat
  | .exec argv, env, n => (if argv = [] then [] else [.exec argv env], n)
  | .redir cmd r, env, n =>
    if opens r.file r.mode then plan opens cmd (Function.update env r.fd (some (.file r.file r.mode))) n
    else ([.openFailed r.file], n)
  | .list left right, env, n =>
    let a := plan opens left env n
    let b := plan opens right env a.2
    (a.1 ++ b.1, b.2)
  | .pipe left right, env, n =>
    let a := plan opens left (Function.update env 1 (some (.pipeWrite n))) (n + 1)
    let b := plan opens right (Function.update env 0 (some (.pipeRead n))) a.2
    (a.1 ++ b.1, b.2)
  | .back cmd, env, n => plan opens cmd env n

/-- Every redirection of the tree names a standard descriptor, 0, 1 or 2. -/
def Cmd.stdRedirs : Cmd → Bool
  | .exec _ => true
  | .redir cmd r => decide (r.fd < 3) && cmd.stdRedirs
  | .pipe left right | .list left right => left.stdRedirs && right.stdRedirs
  | .back cmd => cmd.stdRedirs

/-- The table of an environment. -/
def toFds (env : Nat → Option Chan) : Fds :=
  fun fd => env fd.val

/-- Open at 0, 1 and 2, free elsewhere. -/
def Standard (env : Nat → Option Chan) : Prop :=
  ∀ fd, (env fd).isSome ↔ fd < 3

/-! ### The calls on a table of open standard descriptors -/

/-- `fdalloc` finds `i` where it is free and every lower descriptor is open. -/
theorem fdalloc_eq {fds : Fds} {i : Fin nOFile} (free : fds i = none)
    (below : ∀ j : Fin nOFile, j < i → fds j ≠ none) : fdalloc fds = some i := by
  rw [fdalloc, List.find?_eq_some_iff_getElem]
  refine ⟨by simpa using free, i.val, by simp, by simp [List.getElem_finRange], fun j lt => ?_⟩
  have lower := below ⟨j, by omega⟩ (by simpa [Fin.lt_def] using lt)
  simpa [List.getElem_finRange] using lower

theorem toFds_update (env : Nat → Option Chan) (fd : Fin nOFile) (c : Option Chan) :
    Function.update (toFds env) fd c = toFds (Function.update env fd.val c) := by
  funext k
  by_cases same : k = fd
  · subst same
    simp [toFds]
  · have differ : k.val ≠ fd.val := fun eq => same (Fin.ext eq)
    simp [toFds, Function.update_of_ne same, Function.update_of_ne differ]

theorem close_toFds (env : Nat → Option Chan) {fd : Nat} (lt : fd < nOFile) :
    close (toFds env) fd = toFds (Function.update env fd none) := by
  rw [close, dif_pos lt, toFds_update]

section Lowest

variable {env : Nat → Option Chan} {new : Nat} (ltNew : new < nOFile) (free : env new = none)
  (below : ∀ j < new, env j ≠ none)
include ltNew free below

/-- Where the descriptors below `new` are open and `new` is free, a new file lands on `new`. -/
theorem fdalloc_toFds : fdalloc (toFds env) = some ⟨new, ltNew⟩ :=
  fdalloc_eq free fun j lt => below j.val lt

theorem dup_toFds {fd : Nat} (lt : fd < nOFile) {c : Chan} (holds : env fd = some c) :
    dup (toFds env) fd = toFds (Function.update env new (some c)) := by
  have found : toFds env ⟨fd, lt⟩ = some c := holds
  rw [dup, dif_pos lt, found, fdalloc_toFds ltNew free below]
  exact toFds_update env ⟨new, ltNew⟩ _

theorem openAt_toFds (opens : Nat → Nat → Bool) (file mode : Nat) :
    openAt opens (toFds env) file mode =
      if opens file mode then some (toFds (Function.update env new (some (.file file mode)))) else none := by
  rw [openAt, fdalloc_toFds ltNew free below]
  split
  · rw [Option.map_some, toFds_update]
  · rfl

end Lowest

theorem Standard.open_of_lt {env : Nat → Option Chan} (standard : Standard env) {fd : Nat} (lt : fd < 3) :
    env fd ≠ none := by
  have := (standard fd).mpr lt
  simpa [Option.isSome_iff_ne_none] using this

theorem Standard.free_of_le {env : Nat → Option Chan} (standard : Standard env) {fd : Nat} (le : 3 ≤ fd) :
    env fd = none := by
  have := mt (standard fd).mp (by omega)
  simpa using this

theorem Standard.update {env : Nat → Option Chan} (standard : Standard env) {fd : Nat} (lt : fd < 3) (c : Chan) :
    Standard (Function.update env fd (some c)) := by
  intro k
  by_cases same : k = fd
  · subst same
    simp [lt]
  · rw [Function.update_of_ne same]
    exact standard k

/-- What the shell's child starts `runcmd` with: 0, 1 and 2 as the shell had them. -/
def shellEnv : Nat → Option Chan :=
  fun fd => if fd < 3 then some (.inherited fd) else none

theorem standard_shellEnv : Standard shellEnv := by
  intro fd
  by_cases lt : fd < 3 <;> simp [shellEnv, lt]

/-- A redirection of a standard descriptor: `close` it, and `open` puts the file there. -/
theorem redirect_toFds {env : Nat → Option Chan} (standard : Standard env) (opens : Nat → Nat → Bool)
    {fd : Nat} (lt : fd < 3) (file mode : Nat) :
    openAt opens (close (toFds env) fd) file mode =
      if opens file mode then some (toFds (Function.update env fd (some (.file file mode)))) else none := by
  have inside : fd < nOFile := by unfold nOFile; omega
  rw [close_toFds env inside, openAt_toFds inside (by simp)
    (fun j below => by simpa [Function.update_of_ne (Nat.ne_of_lt below)] using standard.open_of_lt (by omega)),
    Function.update_idem]

/-- `pipe` on the standard descriptors takes 3 and 4. -/
theorem pipe_toFds {env : Nat → Option Chan} (standard : Standard env) (n : Nat) :
    pipe (toFds env) n =
      some (toFds (Function.update (Function.update env 3 (some (.pipeRead n))) 4 (some (.pipeWrite n))), 3, 4) := by
  have three : (3 : Nat) < nOFile := by decide
  have four : (4 : Nat) < nOFile := by decide
  have reads := fdalloc_toFds three (standard.free_of_le le_rfl) fun j lt => standard.open_of_lt lt
  have writes := @fdalloc_toFds (Function.update env 3 (some (.pipeRead n))) 4 four
    (by simpa using standard.free_of_le (by omega : 3 ≤ 4)) fun j lt => by
      by_cases at3 : j = 3
      · simp [at3]
      · simpa [Function.update_of_ne at3] using standard.open_of_lt (by omega)
  simp only [pipe, reads, Option.bind_eq_bind, Option.bind_some]
  rw [toFds_update, writes]
  simp [toFds_update]

/-- A child of `runcmd`'s `PIPE`: `close(k)`, `dup` of one end, which lands on `k`, and
both ends closed leave the standard descriptors with `k` on that end. -/
theorem pipe_side {env : Nat → Option Chan} (standard : Standard env) {k : Nat} (lt : k < 3)
    {e : Nat} (pick : e = 3 ∨ e = 4) (r w : Chan) :
    close (close (dup (close (toFds (Function.update (Function.update env 3 (some r)) 4 (some w))) k) e) 3) 4 =
      toFds (Function.update env k (if e = 3 then some r else some w)) := by
  have inside : ∀ j, j ≤ 4 → j < nOFile := fun j le => by unfold nOFile; omega
  have free3 := standard.free_of_le (le_refl 3)
  have free4 := standard.free_of_le (by omega : 3 ≤ 4)
  rw [close_toFds _ (inside k (by omega))]
  -- `dup` finds the end at `e` and the lowest free descriptor at `k`
  have atE : Function.update (Function.update (Function.update env 3 (some r)) 4 (some w)) k none e =
      some (if e = 3 then r else w) := by
    rw [Function.update_of_ne (by omega)]
    rcases pick with rfl | rfl <;> simp
  have lower : ∀ j < k, Function.update (Function.update (Function.update env 3 (some r)) 4 (some w)) k none j ≠ none := by
    intro j below
    rw [Function.update_of_ne (by omega), Function.update_of_ne (by omega), Function.update_of_ne (by omega)]
    exact standard.open_of_lt (by omega)
  rw [dup_toFds (inside k (by omega)) (by simp) lower (inside e (by omega)) atE,
    close_toFds _ (inside 3 (by omega)), close_toFds _ (inside 4 le_rfl)]
  congr 1
  funext j
  -- 3 and 4 end closed as they were free before the pipe; `k` ends on the end
  by_cases at4 : j = 4 <;> by_cases at3 : j = 3 <;> by_cases atK : j = k <;>
    simp [Function.update_apply, at4, at3, atK, free3, free4] <;> split_ifs <;> simp_all

theorem pipe_left {env : Nat → Option Chan} (standard : Standard env) (n : Nat) :
    close (close (dup (close (toFds (Function.update (Function.update env 3 (some (.pipeRead n))) 4
      (some (.pipeWrite n)))) 1) 4) 3) 4 = toFds (Function.update env 1 (some (.pipeWrite n))) := by
  simpa using pipe_side standard (by decide : 1 < 3) (Or.inr rfl) (.pipeRead n) (.pipeWrite n)

theorem pipe_right {env : Nat → Option Chan} (standard : Standard env) (n : Nat) :
    close (close (dup (close (toFds (Function.update (Function.update env 3 (some (.pipeRead n))) 4
      (some (.pipeWrite n)))) 0) 3) 3) 4 = toFds (Function.update env 0 (some (.pipeRead n))) := by
  simpa using pipe_side standard (by decide : 0 < 3) (Or.inl rfl) (.pipeRead n) (.pipeWrite n)

/-! ### `runcmd` does what the line means -/

/-- **Refinement.** From open standard descriptors, `runcmd` of a tree whose
redirections name standard descriptors starts the processes `plan` says, each
with the descriptors `plan` gives it. -/
theorem runcmd_plan (opens : Nat → Nat → Bool) (cmd : Cmd) (std : cmd.stdRedirs = true)
    {env : Nat → Option Chan} (standard : Standard env) (n : Nat) :
    runcmd opens cmd (toFds env) n = ((plan opens cmd env n).1.map (Outcome.map toFds), (plan opens cmd env n).2) := by
  induction cmd generalizing env n with
  | exec argv =>
    simp only [runcmd, plan]
    split <;> rfl
  | redir cmd r ih =>
    simp only [Cmd.stdRedirs, Bool.and_eq_true, decide_eq_true_eq] at std
    simp only [runcmd, plan]
    rw [redirect_toFds standard opens std.1]
    cases opened : opens r.file r.mode
    · rfl
    · exact ih std.2 (standard.update std.1 _) n
  | pipe left right ihL ihR =>
    simp only [Cmd.stdRedirs, Bool.and_eq_true] at std
    simp only [runcmd, plan]
    rw [pipe_toFds standard n]
    dsimp only
    rw [pipe_left standard, pipe_right standard, ihL std.1 (standard.update (by decide) _),
      ihR std.2 (standard.update (by decide) _), List.map_append]
  | list left right ihL ihR =>
    simp only [Cmd.stdRedirs, Bool.and_eq_true] at std
    simp only [runcmd, plan]
    rw [ihL std.1 standard, ihR std.2 standard, List.map_append]
  | back cmd ih =>
    simp only [Cmd.stdRedirs] at std
    exact ih std standard n

/-- `a | b < f` from the shell's descriptors. -/
theorem runcmd_plan_pipe :
    (Cmd.pipe (.exec [(0, 1)]) (.redir (.exec [(4, 5)]) ⟨8, 9, 0, 0⟩)).stdRedirs = true ∧ Standard shellEnv ∧
      runcmd (fun _ _ => true) (.pipe (.exec [(0, 1)]) (.redir (.exec [(4, 5)]) ⟨8, 9, 0, 0⟩)) (toFds shellEnv) 0 =
        ((plan (fun _ _ => true) (.pipe (.exec [(0, 1)]) (.redir (.exec [(4, 5)]) ⟨8, 9, 0, 0⟩)) shellEnv 0).1.map
          (Outcome.map toFds),
          (plan (fun _ _ => true) (.pipe (.exec [(0, 1)]) (.redir (.exec [(4, 5)]) ⟨8, 9, 0, 0⟩)) shellEnv 0).2) :=
  ⟨by decide, standard_shellEnv, runcmd_plan _ _ (by decide) standard_shellEnv 0⟩

/-- Every command the plan runs from open standard descriptors has them open and
no other. -/
theorem plan_standard (opens : Nat → Nat → Bool) (cmd : Cmd) (std : cmd.stdRedirs = true)
    {env : Nat → Option Chan} (standard : Standard env) (n : Nat) :
    ∀ argv e, Outcome.exec argv e ∈ (plan opens cmd env n).1 → Standard e := by
  induction cmd generalizing env n with
  | exec argv =>
    intro argv' e mem
    simp only [plan] at mem
    split at mem
    · cases mem
    · simp only [List.mem_singleton, Outcome.exec.injEq] at mem
      exact mem.2 ▸ standard
  | redir cmd r ih =>
    simp only [Cmd.stdRedirs, Bool.and_eq_true, decide_eq_true_eq] at std
    intro argv e mem
    simp only [plan] at mem
    split at mem
    · exact ih std.2 (standard.update std.1 _) n argv e mem
    · simp at mem
  | pipe left right ihL ihR =>
    simp only [Cmd.stdRedirs, Bool.and_eq_true] at std
    intro argv e mem
    simp only [plan, List.mem_append] at mem
    rcases mem with mem | mem
    · exact ihL std.1 (standard.update (by decide) _) _ argv e mem
    · exact ihR std.2 (standard.update (by decide) _) _ argv e mem
  | list left right ihL ihR =>
    simp only [Cmd.stdRedirs, Bool.and_eq_true] at std
    intro argv e mem
    simp only [plan, List.mem_append] at mem
    rcases mem with mem | mem
    · exact ihL std.1 standard _ argv e mem
    · exact ihR std.2 standard _ argv e mem
  | back cmd ih =>
    simp only [Cmd.stdRedirs] at std
    exact ih std standard n

/-! ### Parsed lines redirect standard descriptors -/

theorem fd_of_redirOf {tok : Char} {q eq : Nat} {r : Redir} (known : redirOf tok q eq = some r) : r.fd < 3 := by
  unfold redirOf at known
  split at known <;> simp only [Option.some.injEq, reduceCtorEq] at known <;> rw [← known] <;> simp

theorem Redirs.fd_lt {ts : List Tok} {rs : List Redir} (derives : Redirs ts rs) : ∀ r ∈ rs, r.fd < 3 := by
  induction derives with
  | nil => simp
  | cons known _ ih =>
    intro r mem
    rcases List.mem_cons.mp mem with rfl | mem
    · exact fd_of_redirOf known
    · exact ih r mem

theorem Words.fd_lt {ts : List Tok} {rs : List Redir} {ws : List (Nat × Nat)} (derives : Words ts rs ws) :
    ∀ r ∈ rs, r.fd < 3 := by
  induction derives with
  | nil => simp
  | cons redirs _ ih =>
    intro r mem
    rcases List.mem_append.mp mem with mem | mem
    · exact redirs.fd_lt r mem
    · exact ih r mem

theorem stdRedirs_wrap {cmd : Cmd} (inner : cmd.stdRedirs = true) :
    ∀ {rs : List Redir}, (∀ r ∈ rs, r.fd < 3) → (wrap cmd rs).stdRedirs = true := by
  intro rs
  induction rs generalizing cmd with
  | nil => exact fun _ => inner
  | cons r rs ih =>
    intro fds
    apply ih
    · simp [Cmd.stdRedirs, fds r List.mem_cons_self, inner]
    · exact fun r' mem => fds r' (List.mem_cons_of_mem _ mem)

theorem stdRedirs_backs (n : Nat) {cmd : Cmd} (inner : cmd.stdRedirs = true) : (backs n cmd).stdRedirs = true := by
  induction n generalizing cmd with
  | zero => exact inner
  | succ n ih => exact ih (by simpa [Cmd.stdRedirs] using inner)

mutual

theorem Line.stdRedirs {ts : List Tok} {c : Cmd} (derives : Line ts c) : c.stdRedirs = true := by
  match derives with
  | .pipe n pipe => exact stdRedirs_backs n pipe.stdRedirs
  | .list n pipe line => simp [Cmd.stdRedirs, stdRedirs_backs n pipe.stdRedirs, line.stdRedirs]

theorem Pipe.stdRedirs {ts : List Tok} {c : Cmd} (derives : Pipe ts c) : c.stdRedirs = true := by
  match derives with
  | .exec exec => exact exec.stdRedirs
  | .pipe exec pipe => simp [Cmd.stdRedirs, exec.stdRedirs, pipe.stdRedirs]

theorem Exec.stdRedirs {ts : List Tok} {c : Cmd} (derives : Exec ts c) : c.stdRedirs = true := by
  match derives with
  | .block line redirs => exact stdRedirs_wrap line.stdRedirs redirs.fd_lt
  | .simple redirs words _ =>
    apply stdRedirs_wrap rfl
    intro r mem
    rcases List.mem_append.mp mem with mem | mem
    · exact redirs.fd_lt r mem
    · exact words.fd_lt r mem

end

/-- The shell runs what it parses as the line means: for every line `parsecmd`
accepts, `runcmd` in the shell's child starts the processes of the line's plan,
each with the descriptors the plan gives it, and each command it execs has
descriptors 0, 1 and 2 open and no other, so that no pipe end is left open in a
command that does not use it. -/
theorem sh_runs_line (opens : Nat → Nat → Bool) (buf : List Char) :
    match parsecmd buf with
    | .error _ => True
    | .ok (c, _) =>
      runcmd opens c (toFds shellEnv) 0 =
          ((plan opens c shellEnv 0).1.map (Outcome.map toFds), (plan opens c shellEnv 0).2) ∧
        ∀ argv fds, Outcome.exec argv fds ∈ (runcmd opens c (toFds shellEnv) 0).1 →
          ∀ fd : Fin nOFile, (fds fd).isSome ↔ fd.val < 3 := by
  split
  · trivial
  · next c buf' parsed =>
    have std := (line_of_parsecmd parsed).1.stdRedirs
    have ran := runcmd_plan opens c std standard_shellEnv 0
    refine ⟨ran, fun argv fds mem fd => ?_⟩
    rw [ran, List.mem_map] at mem
    obtain ⟨o, planned, mapped⟩ := mem
    cases o with
    | exec argv' e =>
      simp only [Outcome.map, Outcome.exec.injEq] at mapped
      rw [← mapped.2]
      exact plan_standard opens c std standard_shellEnv 0 argv' e planned fd.val
    | openFailed file => cases mapped
    | panic => cases mapped

end Xv6.Sh
