import Xv6.Fs.Syscall
import Xv6.User.Grep

/-!
Contract: the command-line parser of `user/sh.c`: `gettoken`, `peek`,
`parseredirs`, `parseline`, `parsepipe`, `parseexec`, `parseblock`,
`nulterminate` and `parsecmd`, and the tokens `gettoken` reads (`lex`).

The line is the C string `parsecmd` is given, the characters before its NUL
(`Grep.cstr`), and `es` is its end, read as NUL (`charAt`). A pointer into the
line is a position. `gettoken` and `peek` move the cursor `*ps`; here they
return where it stops. The parse functions return the tree and the position
after it, which is never before the one they start from: a subtype carries
that, so that the recursion, which reads a token before each call at a later
position, is well-founded on what is left of the line.

`parseredirs` wraps a command in one `redircmd` per redirection, and
`parseexec` fills the `argv` of its `execcmd` after it has wrapped it. Here
`parseredirs` returns the redirections it read and `wrap` applies them, the
first innermost. A panic is an error with its message.

Owns: `whitespace`, `symbols`, `maxArgs`, `charAt`, `strchr`, `wordChar`,
`skipWs`, `skipWord`, `scan`, `Token`, `gettoken`, `Peeked`, `peek`, `Tok`,
`Token.tok`, `Tok.lead`, `lex`, `Redir`, `Cmd`, `wrap`, `redirOf`,
`parseredirs`, `backLoop`, `execLoop`, `parseline`, `parsepipe`, `parseexec`,
`parseblock`, `nulterminate`, `parsecmd`.
-/

namespace Xv6.Sh

/-! ### Characters -/

/-- `whitespace`, `" \t\r\n\v"`. -/
def whitespace : List Char := [' ', '\t', '\r', '\n', '\x0b']

/-- `symbols`, `"<|>&;()"`. -/
def symbols : List Char := ['<', '|', '>', '&', ';', '(', ')']

/-- `MAXARGS`. -/
def maxArgs : Nat := 10

/-- `*s` at position `i` of the line: past its last character, its NUL. -/
def charAt (str : List Char) (i : Nat) : Char :=
  str.getD i '\x00'

/-- `strchr(set, c) != 0` of `user/ulib.c`: `c` is one of the characters of `set`;
the loop stops at the NUL that ends `set` before comparing it, so NUL is not
found. -/
def strchr (set : List Char) (c : Char) : Bool :=
  set.contains c

/-- What the word loop of `gettoken` steps over:
`!strchr(whitespace, *s) && !strchr(symbols, *s)`. -/
def wordChar (c : Char) : Bool :=
  !strchr whitespace c && !strchr symbols c

/-- `while(s < es && strchr(whitespace, *s)) s++;` -/
def skipWs (str : List Char) (s : Nat) : Nat :=
  if s < str.length ∧ strchr whitespace (charAt str s) then skipWs str (s + 1) else s
termination_by str.length - s

/-- The word loop of `gettoken`. -/
def skipWord (str : List Char) (s : Nat) : Nat :=
  if s < str.length ∧ wordChar (charAt str s) then skipWord str (s + 1) else s
termination_by str.length - s

section Scan

variable {str : List Char}

theorem charAt_of_le {i : Nat} (past : str.length ≤ i) : charAt str i = '\x00' := by
  simp [charAt, List.getD_eq_getElem?_getD, List.getElem?_eq_none past]

theorem lt_length_of_charAt {i : Nat} (notNul : charAt str i ≠ '\x00') : i < str.length := by
  by_contra past
  exact notNul (charAt_of_le (Nat.le_of_not_lt past))

theorem skipWs_ge (s : Nat) : s ≤ skipWs str s := by
  fun_induction skipWs str s <;> omega

theorem skipWs_le {s : Nat} (inside : s ≤ str.length) : skipWs str s ≤ str.length := by
  fun_induction skipWs str s with
  | case1 s more ih => exact ih more.1
  | case2 s _ => exact inside

/-- `skipWs` stops at the end or at a character that is not whitespace. -/
theorem skipWs_stops (s : Nat) :
    ¬ (skipWs str s < str.length ∧ strchr whitespace (charAt str (skipWs str s))) := by
  fun_induction skipWs str s with
  | case1 s _ ih => exact ih
  | case2 s stop => exact stop

theorem skipWs_of_stop {s : Nat} (stop : ¬ (s < str.length ∧ strchr whitespace (charAt str s))) :
    skipWs str s = s := by
  rw [skipWs, if_neg stop]

theorem skipWs_idem (s : Nat) : skipWs str (skipWs str s) = skipWs str s :=
  skipWs_of_stop (skipWs_stops s)

/-- Past the whitespace, a character that is not the NUL is not whitespace. -/
theorem not_ws_of_skipWs {s : Nat} (notNul : charAt str (skipWs str s) ≠ '\x00') :
    strchr whitespace (charAt str (skipWs str s)) = false := by
  have stop : ¬ (skipWs str s < str.length ∧ strchr whitespace (charAt str (skipWs str s))) :=
    skipWs_stops s
  simpa [lt_length_of_charAt notNul] using stop

theorem skipWord_ge (s : Nat) : s ≤ skipWord str s := by
  fun_induction skipWord str s <;> omega

theorem skipWord_le {s : Nat} (inside : s ≤ str.length) : skipWord str s ≤ str.length := by
  fun_induction skipWord str s with
  | case1 s more ih => exact ih more.1
  | case2 s _ => exact inside

/-- `skipWord` stops at the end or at a character that ends a word. -/
theorem skipWord_stops (s : Nat) :
    ¬ (skipWord str s < str.length ∧ wordChar (charAt str (skipWord str s))) := by
  fun_induction skipWord str s with
  | case1 s _ ih => exact ih
  | case2 s stop => exact stop

theorem skipWord_gt {s : Nat} (inside : s < str.length) (word : wordChar (charAt str s)) :
    s < skipWord str s := by
  rw [skipWord, if_pos ⟨inside, word⟩]
  exact Nat.lt_of_lt_of_le (Nat.lt_succ_self s) (skipWord_ge _)

/-- Every character a word steps over is a word character. -/
theorem wordChar_of_skipWord {s i : Nat} (from_ : s ≤ i) (before : i < skipWord str s) :
    i < str.length ∧ wordChar (charAt str i) := by
  fun_induction skipWord str s with
  | case1 s more ih =>
    rcases Nat.lt_or_eq_of_le from_ with later | rfl
    · exact ih later before
    · exact more
  | case2 s _ => omega

end Scan

/-! ### `gettoken` and `peek` -/

/-- The `switch` of `gettoken` at `s`, past the whitespace: what it returns, and
where the token ends. -/
def scan (str : List Char) (s : Nat) : Char × Nat :=
  match charAt str s with
  | '\x00' => ('\x00', s)
  | '|' | '(' | ')' | ';' | '&' | '<' => (charAt str s, s + 1)
  | '>' => if charAt str (s + 1) = '>' then ('+', s + 2) else ('>', s + 1)
  | _ => ('a', skipWord str s)

/-- What `gettoken(ps, es, &q, &eq)` returns, its `*q` and `*eq`, and the new `*ps`. -/
structure Token where
  ret : Char
  q : Nat
  eq : Nat
  next : Nat

/-- `gettoken`. -/
def gettoken (str : List Char) (s : Nat) : Token :=
  let q := skipWs str s
  { ret := (scan str q).1, q, eq := (scan str q).2, next := skipWs str (scan str q).2 }

/-- What `peek(ps, es, toks)` returns, and the new `*ps`. -/
structure Peeked where
  hit : Bool
  next : Nat

/-- `peek`. -/
def peek (str : List Char) (s : Nat) (toks : List Char) : Peeked :=
  let s := skipWs str s
  { hit := charAt str s != '\x00' && strchr toks (charAt str s), next := s }

section Gettoken

variable {str : List Char}

/-- The cases of `scan`: the end, a one-character symbol, `>>`, `>`, or a word. -/
theorem scan_cases (str : List Char) (s : Nat) :
    (charAt str s = '\x00' ∧ (scan str s).1 = '\x00' ∧ (scan str s).2 = s) ∨
    (charAt str s ∈ ['|', '(', ')', ';', '&', '<'] ∧ (scan str s).1 = charAt str s ∧ (scan str s).2 = s + 1) ∨
    (charAt str s = '>' ∧ charAt str (s + 1) = '>' ∧ (scan str s).1 = '+' ∧ (scan str s).2 = s + 2) ∨
    (charAt str s = '>' ∧ charAt str (s + 1) ≠ '>' ∧ (scan str s).1 = '>' ∧ (scan str s).2 = s + 1) ∨
    (charAt str s ≠ '\x00' ∧ charAt str s ∉ symbols ∧ (scan str s).1 = 'a' ∧ (scan str s).2 = skipWord str s) := by
  unfold scan
  split
  all_goals first
    | (split <;> simp_all)
    | simp_all [symbols]

theorem scan_snd_ge (s : Nat) : s ≤ (scan str s).2 := by
  have word : s ≤ skipWord str s := skipWord_ge s
  rcases scan_cases str s with ⟨-, -, e⟩ | ⟨-, -, e⟩ | ⟨-, -, -, e⟩ | ⟨-, -, -, e⟩ | ⟨-, -, -, e⟩ <;> omega

theorem scan_snd_le {s : Nat} (inside : s ≤ str.length) : (scan str s).2 ≤ str.length := by
  have word := skipWord_le inside
  rcases scan_cases str s with ⟨-, -, e⟩ | ⟨sym, -, e⟩ | ⟨-, double, -, e⟩ | ⟨gt, -, -, e⟩ | ⟨-, -, -, e⟩
  · omega
  · have notNul : charAt str s ≠ '\x00' := fun nul => by simp [nul] at sym
    have := lt_length_of_charAt notNul
    omega
  · have notNul : charAt str (s + 1) ≠ '\x00' := by rw [double]; decide
    have := lt_length_of_charAt notNul
    omega
  · have notNul : charAt str s ≠ '\x00' := by rw [gt]; decide
    have := lt_length_of_charAt notNul
    omega
  · omega

theorem scan_fst_eq_nul_iff (s : Nat) : (scan str s).1 = '\x00' ↔ charAt str s = '\x00' := by
  rcases scan_cases str s with ⟨nul, e, -⟩ | ⟨sym, e, -⟩ | ⟨gt, -, e, -⟩ | ⟨gt, -, e, -⟩ | ⟨notNul, -, e, -⟩
  · simp [nul, e]
  · have notNul : charAt str s ≠ '\x00' := fun nul => by simp [nul] at sym
    simp [e, notNul]
  · simp [gt, e]
  · simp [gt, e]
  · simp [notNul, e]

/-- Past the whitespace, a token that is not the end moves the cursor. -/
theorem scan_snd_gt {s : Nat} (notNul : charAt str s ≠ '\x00')
    (notWs : strchr whitespace (charAt str s) = false) : s < (scan str s).2 := by
  rcases scan_cases str s with ⟨nul, -, -⟩ | ⟨-, -, e⟩ | ⟨-, -, -, e⟩ | ⟨-, -, -, e⟩ | ⟨-, notSym, -, e⟩
  · exact absurd nul notNul
  · omega
  · omega
  · omega
  · rw [e]
    apply skipWord_gt (lt_length_of_charAt notNul)
    have notSym' : strchr symbols (charAt str s) = false := by simp [strchr, notSym]
    simp [wordChar, notWs, notSym']

theorem gettoken_next_ge (s : Nat) : s ≤ (gettoken str s).next :=
  (skipWs_ge s).trans ((scan_snd_ge _).trans (skipWs_ge _))

theorem gettoken_next_le {s : Nat} (inside : s ≤ str.length) : (gettoken str s).next ≤ str.length :=
  skipWs_le (scan_snd_le (skipWs_le inside))

theorem gettoken_ret_eq_nul_iff (s : Nat) :
    (gettoken str s).ret = '\x00' ↔ charAt str (skipWs str s) = '\x00' :=
  scan_fst_eq_nul_iff _

/-- A token that is not the end moves the cursor. -/
theorem gettoken_next_gt {s : Nat} (more : (gettoken str s).ret ≠ '\x00') : s < (gettoken str s).next := by
  have notNul : charAt str (skipWs str s) ≠ '\x00' := (gettoken_ret_eq_nul_iff s).not.mp more
  calc s ≤ skipWs str s := skipWs_ge s
    _ < (scan str (skipWs str s)).2 := scan_snd_gt notNul (not_ws_of_skipWs notNul)
    _ ≤ (gettoken str s).next := skipWs_ge _

theorem gettoken_skipWs (s : Nat) : gettoken str (skipWs str s) = gettoken str s := by
  simp only [gettoken, skipWs_idem]

theorem peek_next_ge (s : Nat) (toks : List Char) : s ≤ (peek str s toks).next :=
  skipWs_ge s

theorem charAt_ne_nul_of_hit {s : Nat} {toks : List Char} (hit : (peek str s toks).hit) :
    charAt str (peek str s toks).next ≠ '\x00' := by
  simp only [peek, Bool.and_eq_true, bne_iff_ne] at hit
  exact hit.1

theorem lt_length_of_hit {s : Nat} {toks : List Char} (hit : (peek str s toks).hit) :
    (peek str s toks).next < str.length :=
  lt_length_of_charAt (charAt_ne_nul_of_hit hit)

/-- The token `peek` saw, read by `gettoken`, moves the cursor. -/
theorem consume_gt {s : Nat} {toks : List Char} (hit : (peek str s toks).hit) :
    s < (gettoken str (peek str s toks).next).next := by
  have more : (gettoken str (peek str s toks).next).ret ≠ '\x00' := by
    rw [Ne, gettoken_ret_eq_nul_iff]
    have seen := charAt_ne_nul_of_hit hit
    simpa [peek, skipWs_idem] using seen
  exact (peek_next_ge s toks).trans_lt (gettoken_next_gt more)

theorem le_consume (s : Nat) (toks : List Char) : s ≤ (gettoken str (peek str s toks).next).next :=
  (peek_next_ge s toks).trans (gettoken_next_ge _)

/-- What is left of the line shrinks once the token `peek` saw is read. -/
theorem length_sub_lt_of_hit {s : Nat} {toks : List Char} (hit : (peek str s toks).hit) :
    str.length - (gettoken str (peek str s toks).next).next < str.length - s := by
  have moved := consume_gt hit
  have inside := lt_length_of_hit hit
  have : s ≤ (peek str s toks).next := peek_next_ge s toks
  omega

/-- What is left of the line shrinks with each token read. -/
theorem length_sub_next_lt {s : Nat} (more : (gettoken str s).ret ≠ '\x00') :
    str.length - (gettoken str s).next < str.length - s := by
  have moved := gettoken_next_gt more
  have inside := lt_length_of_charAt ((gettoken_ret_eq_nul_iff s).not.mp more)
  have : s ≤ skipWs str s := skipWs_ge s
  omega

end Gettoken

/-! ### Tokens -/

/-- A token of the line: a word from `q` to `eq`, or what `gettoken` returns for a
symbol (`'+'` for `>>`). -/
inductive Tok where
  | word (q eq : Nat)
  | sym (c : Char)
deriving DecidableEq, Repr

/-- The token `gettoken` read. -/
def Token.tok (t : Token) : Tok :=
  if t.ret = 'a' then .word t.q t.eq else .sym t.ret

/-- The character `peek` sees at a token. -/
def Tok.lead : Tok → Char
  | .word _ _ => 'a'
  | .sym '+' => '>'
  | .sym c => c

/-- The tokens `gettoken` reads from `s` to the end of the line. -/
def lex (str : List Char) (s : Nat) : List Tok :=
  if (gettoken str s).ret = '\x00' then [] else (gettoken str s).tok :: lex str (gettoken str s).next
termination_by str.length - s
decreasing_by exact length_sub_next_lt ‹_›

section Lex

variable {str : List Char}

theorem lex_of_ended {s : Nat} (ended : (gettoken str s).ret = '\x00') : lex str s = [] := by
  rw [lex, if_pos ended]

theorem lex_of_more {s : Nat} (more : (gettoken str s).ret ≠ '\x00') :
    lex str s = (gettoken str s).tok :: lex str (gettoken str s).next := by
  rw [lex, if_neg more]

theorem lex_skipWs (s : Nat) : lex str (skipWs str s) = lex str s := by
  by_cases ended : (gettoken str s).ret = '\x00'
  · rw [lex_of_ended ended, lex_of_ended (by rwa [gettoken_skipWs])]
  · rw [lex_of_more ended, lex_of_more (by rwa [gettoken_skipWs]), gettoken_skipWs]

theorem lex_peek (s : Nat) (toks : List Char) : lex str (peek str s toks).next = lex str s :=
  lex_skipWs s

theorem lex_eq_nil_iff (s : Nat) : lex str s = [] ↔ charAt str (skipWs str s) = '\x00' := by
  rw [← gettoken_ret_eq_nul_iff]
  constructor
  · intro empty
    by_contra more
    rw [lex_of_more more] at empty
    exact List.cons_ne_nil _ _ empty
  · exact lex_of_ended

theorem lex_eq_cons_iff (s : Nat) (t : Tok) (rest : List Tok) :
    lex str s = t :: rest ↔
      (gettoken str s).ret ≠ '\x00' ∧ (gettoken str s).tok = t ∧ lex str (gettoken str s).next = rest := by
  by_cases ended : (gettoken str s).ret = '\x00'
  · simp [lex_of_ended ended, ended]
  · simp [lex_of_more ended, ended]

/-- The character `peek` sees at the first token is that token's `lead`, for the
symbols it looks for. -/
theorem lead_mem_iff {toks : List Char} (sub : ∀ c ∈ toks, c ∈ symbols) {s : Nat}
    (more : (gettoken str s).ret ≠ '\x00') :
    (gettoken str s).tok.lead ∈ toks ↔ charAt str (skipWs str s) ∈ toks := by
  have notA : 'a' ∉ toks := fun mem => by simpa [symbols] using sub 'a' mem
  have notNul : charAt str (skipWs str s) ≠ '\x00' := (gettoken_ret_eq_nul_iff s).not.mp more
  rcases scan_cases str (skipWs str s) with ⟨nul, -, -⟩ | ⟨sym, e, -⟩ | ⟨gt, -, e, -⟩ | ⟨gt, -, e, -⟩ |
    ⟨-, notSym, e, -⟩
  · exact absurd nul notNul
  · have notA' : charAt str (skipWs str s) ≠ 'a' := fun same => by simp [same] at sym
    have notPlus : charAt str (skipWs str s) ≠ '+' := fun same => by simp [same] at sym
    simp only [gettoken, Token.tok, e, if_neg notA']
    rw [Tok.lead.eq_3 _ notPlus]
  · simp [gettoken, Token.tok, e, gt, Tok.lead]
  · simp [gettoken, Token.tok, e, gt, Tok.lead]
  · simp only [gettoken, Token.tok, e, if_pos, Tok.lead]
    exact ⟨fun mem => absurd mem notA, fun mem => absurd (sub _ mem) notSym⟩

/-- `peek` hits exactly when the first token left leads with a symbol it looks for. -/
theorem peek_hit_iff {toks : List Char} (sub : ∀ c ∈ toks, c ∈ symbols) (s : Nat) :
    (peek str s toks).hit = true ↔ ∃ t rest, lex str s = t :: rest ∧ t.lead ∈ toks := by
  by_cases ended : (gettoken str s).ret = '\x00'
  · have nul := (gettoken_ret_eq_nul_iff s).mp ended
    simp [peek, nul, lex_of_ended ended]
  · have notNul : charAt str (skipWs str s) ≠ '\x00' := (gettoken_ret_eq_nul_iff s).not.mp ended
    have seen : (peek str s toks).hit = true ↔ charAt str (skipWs str s) ∈ toks := by
      simp [peek, strchr, notNul]
    rw [seen, lex_of_more ended]
    constructor
    · intro mem
      exact ⟨_, _, rfl, (lead_mem_iff sub ended).mpr mem⟩
    · rintro ⟨t, rest, same, lead⟩
      obtain ⟨rfl, -⟩ := List.cons.inj same
      exact (lead_mem_iff sub ended).mp lead

end Lex

/-! ### The parser -/

/-- The fields of a `redircmd` but its command. -/
structure Redir where
  file : Nat
  efile : Nat
  mode : Nat
  fd : Nat
deriving DecidableEq, Repr

/-- `struct cmd`, the tree `parsecmd` builds. The `argv` of an `execcmd` pairs
each word's `argv[i]` and `eargv[i]`. -/
inductive Cmd where
  | exec (argv : List (Nat × Nat))
  | redir (cmd : Cmd) (r : Redir)
  | pipe (left right : Cmd)
  | list (left right : Cmd)
  | back (cmd : Cmd)
deriving DecidableEq, Repr

/-- `cmd` inside the `redircmd`s of `rs`, the first innermost. -/
def wrap (cmd : Cmd) (rs : List Redir) : Cmd :=
  rs.foldl .redir cmd

/-- The `switch(tok)` of `parseredirs`. -/
def redirOf (tok : Char) (q eq : Nat) : Option Redir :=
  match tok with
  | '<' => some ⟨q, eq, Fs.oRdonly, 0⟩
  | '>' => some ⟨q, eq, Fs.oWronly ||| Fs.oCreate ||| Fs.oTrunc, 1⟩
  | '+' => some ⟨q, eq, Fs.oWronly ||| Fs.oCreate, 1⟩
  | _ => none

/-- `parseredirs`: the redirections from `s` on, in the order they are read. -/
def parseredirs (str : List Char) (s : Nat) : Except String (List Redir × {p : Nat // s ≤ p}) :=
  if (peek str s ['<', '>']).hit then
    let tok := gettoken str (peek str s ['<', '>']).next
    let file := gettoken str tok.next
    if file.ret ≠ 'a' then .error "missing file for redirection"
    else
      match parseredirs str file.next with
      | .error e => .error e
      | .ok (rs, p) =>
        .ok ((redirOf tok.ret file.q file.eq).toList ++ rs, ⟨p.1, (le_consume s _).trans ((gettoken_next_ge _).trans p.2)⟩)
  else .ok ([], ⟨(peek str s ['<', '>']).next, peek_next_ge s _⟩)
termination_by str.length - s
decreasing_by
  have moved := length_sub_lt_of_hit ‹_›
  have : (gettoken str (peek str s ['<', '>']).next).next ≤ (gettoken str (gettoken str (peek str s ['<', '>']).next).next).next :=
    gettoken_next_ge _
  omega

/-- The loop of `parseline` over `&`: a `backcmd` around `cmd` for each. -/
def backLoop (str : List Char) (cmd : Cmd) (s : Nat) : Cmd × {p : Nat // s ≤ p} :=
  if (peek str s ['&']).hit then
    match backLoop str (.back cmd) (gettoken str (peek str s ['&']).next).next with
    | (cmd, p) => (cmd, ⟨p.1, (le_consume s _).trans p.2⟩)
  else (cmd, ⟨(peek str s ['&']).next, peek_next_ge s _⟩)
termination_by str.length - s
decreasing_by exact length_sub_lt_of_hit ‹_›

/-- The loop of `parseexec` after its first `parseredirs`: a word into `argv`,
then its redirections, until `peek(ps, es, "|)&;")` or the end. -/
def execLoop (str : List Char) (rs : List Redir) (argv : List (Nat × Nat)) (s : Nat) :
    Except String (List Redir × List (Nat × Nat) × {p : Nat // s ≤ p}) :=
  if (peek str s ['|', ')', '&', ';']).hit then .ok (rs, argv, ⟨(peek str s ['|', ')', '&', ';']).next, peek_next_ge s _⟩)
  else
    let tok := gettoken str (peek str s ['|', ')', '&', ';']).next
    if tok.ret = '\x00' then .ok (rs, argv, ⟨tok.next, le_consume s _⟩)
    else if tok.ret ≠ 'a' then .error "syntax"
    else if maxArgs ≤ (argv ++ [(tok.q, tok.eq)]).length then .error "too many args"
    else
      match parseredirs str tok.next with
      | .error e => .error e
      | .ok (more, p) =>
        match execLoop str (rs ++ more) (argv ++ [(tok.q, tok.eq)]) p.1 with
        | .error e => .error e
        | .ok (rs, argv, p') => .ok (rs, argv, ⟨p'.1, (le_consume s _).trans (p.2.trans p'.2)⟩)
termination_by str.length - s
decreasing_by
  have moved : str.length - tok.next < str.length - (peek str s ['|', ')', '&', ';']).next :=
    length_sub_next_lt ‹_›
  have : s ≤ (peek str s ['|', ')', '&', ';']).next := peek_next_ge s _
  have := p.2
  omega

mutual

/-- `parseline`. -/
def parseline (str : List Char) (s : Nat) : Except String (Cmd × {p : Nat // s ≤ p}) :=
  match parsepipe str s with
  | .error e => .error e
  | .ok (cmd, p) =>
    match backLoop str cmd p.1 with
    | (cmd, p') =>
      if (peek str p'.1 [';']).hit then
        match parseline str (gettoken str (peek str p'.1 [';']).next).next with
        | .error e => .error e
        | .ok (right, p'') => .ok (.list cmd right, ⟨p''.1, p.2.trans (p'.2.trans ((le_consume _ _).trans p''.2))⟩)
      else .ok (cmd, ⟨(peek str p'.1 [';']).next, p.2.trans (p'.2.trans (peek_next_ge _ _))⟩)
termination_by 4 * (str.length - s) + 3
decreasing_by
  all_goals first
    | omega
    | (have moved := length_sub_lt_of_hit ‹_›
       have := p.2
       have := p'.2
       omega)

/-- `parsepipe`. -/
def parsepipe (str : List Char) (s : Nat) : Except String (Cmd × {p : Nat // s ≤ p}) :=
  match parseexec str s with
  | .error e => .error e
  | .ok (cmd, p) =>
    if (peek str p.1 ['|']).hit then
      match parsepipe str (gettoken str (peek str p.1 ['|']).next).next with
      | .error e => .error e
      | .ok (right, p') => .ok (.pipe cmd right, ⟨p'.1, p.2.trans ((le_consume _ _).trans p'.2)⟩)
    else .ok (cmd, ⟨(peek str p.1 ['|']).next, p.2.trans (peek_next_ge _ _)⟩)
termination_by 4 * (str.length - s) + 2
decreasing_by
  all_goals first
    | omega
    | (have moved := length_sub_lt_of_hit ‹_›
       have := p.2
       omega)

/-- `parseexec`. -/
def parseexec (str : List Char) (s : Nat) : Except String (Cmd × {p : Nat // s ≤ p}) :=
  if (peek str s ['(']).hit then parseblock str s
  else
    match parseredirs str (peek str s ['(']).next with
    | .error e => .error e
    | .ok (rs, p) =>
      match execLoop str rs [] p.1 with
      | .error e => .error e
      | .ok (rs, argv, p') => .ok (wrap (.exec argv) rs, ⟨p'.1, (peek_next_ge s _).trans (p.2.trans p'.2)⟩)
termination_by 4 * (str.length - s) + 1
decreasing_by omega

/-- `parseblock`. -/
def parseblock (str : List Char) (s : Nat) : Except String (Cmd × {p : Nat // s ≤ p}) :=
  if (peek str s ['(']).hit then
    match parseline str (gettoken str (peek str s ['(']).next).next with
    | .error e => .error e
    | .ok (cmd, p) =>
      if (peek str p.1 [')']).hit then
        match parseredirs str (gettoken str (peek str p.1 [')']).next).next with
        | .error e => .error e
        | .ok (rs, p') => .ok (wrap cmd rs, ⟨p'.1, (le_consume s _).trans (p.2.trans ((le_consume _ _).trans p'.2))⟩)
      else .error "syntax - missing )"
  else .error "parseblock"
termination_by 4 * (str.length - s)
decreasing_by
  have := length_sub_lt_of_hit ‹_›
  omega

end

/-- `nulterminate`: a NUL at the end of each word of the tree, in the buffer. -/
def nulterminate (buf : List Char) : Cmd → List Char
  | .exec argv => argv.foldl (fun b w => b.set w.2 '\x00') buf
  | .redir cmd r => (nulterminate buf cmd).set r.efile '\x00'
  | .pipe left right => nulterminate (nulterminate buf left) right
  | .list left right => nulterminate (nulterminate buf left) right
  | .back cmd => nulterminate buf cmd

/-- `parsecmd(s)` on the line in `buf`: the tree, and `buf` after `nulterminate`.
With tokens left over it prints them and panics with `"syntax"`. -/
def parsecmd (buf : List Char) : Except String (Cmd × List Char) :=
  let str := Grep.cstr buf
  match parseline str 0 with
  | .error e => .error e
  | .ok (cmd, p) =>
    if (peek str p.1 []).next ≠ str.length then .error "syntax"
    else .ok (cmd, nulterminate buf cmd)

end Xv6.Sh
