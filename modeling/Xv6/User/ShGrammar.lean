import Mathlib.Data.List.TakeWhile
import Xv6.Lib.Terminate
import Xv6.User.Sh

/-!
Contract: the language `parsecmd` accepts, and the tree it builds.

The grammar is over the tokens of the line (`lex`), that is, the line read
modulo whitespace:

    line  ::= pipe ('&')* (';' line)?
    pipe  ::= exec ('|' pipe)?
    exec  ::= '(' line ')' redir* | redir* (WORD redir*)*
    redir ::= ('<' | '>' | '>>') WORD

with fewer than `MAXARGS` words in an `exec`. `Line ts c` says that the tokens
`ts` derive from `line` with `c` the tree of the derivation: a `backcmd` per
`&`, `listcmd` and `pipecmd` nested to the right, and a `redircmd` per
redirection around its command, the first innermost.

Each parse function is sound (`parseline_sound`: what it reads derives from its
nonterminal) and complete (`Line.parse`: from a derivation followed by a token
that may follow it, it reads the derivation and builds its tree). The first is
by the parser's own recursion, the second by recursion on the derivation.

A word token is a word of the line (`IsWord`): word characters from `q` to
`eq`, and at `eq` the end of the line or a character that is not one. So the
NUL `nulterminate` writes at the end of a word lies in no word, and the words
of the tree read as C strings afterwards (`parsecmd_accepts_grammar`).

Owns: `backs`, `Redirs`, `Words`, `Line`, `Pipe`, `Exec`, `Ends`, `IsWord`,
`Cmd.words`.
-/

namespace Xv6.Sh

/-! ### Tokens read by `peek` and `gettoken` -/

section Reading

variable {str : List Char}

/-- `gettoken` reads the token `lex` starts with. -/
theorem gettoken_of_lex {s : Nat} {t : Tok} {rest : List Tok} (lexed : lex str s = t :: rest) :
    (gettoken str s).tok = t ∧ lex str (gettoken str s).next = rest :=
  ((lex_eq_cons_iff s t rest).mp lexed).2

/-- After `peek`, `gettoken` reads the same token. -/
theorem consume_of_lex (toks : List Char) {s : Nat} {t : Tok} {rest : List Tok}
    (lexed : lex str s = t :: rest) :
    (gettoken str (peek str s toks).next).tok = t ∧ lex str (gettoken str (peek str s toks).next).next = rest :=
  gettoken_of_lex (by rw [lex_peek]; exact lexed)

theorem ret_of_tok_sym {t : Token} {c : Char} (same : t.tok = .sym c) : t.ret = c := by
  unfold Token.tok at same
  split at same
  · cases same
  · cases same
    rfl

theorem ret_of_tok_word {t : Token} {q eq : Nat} (same : t.tok = .word q eq) :
    t.ret = 'a' ∧ t.q = q ∧ t.eq = eq := by
  unfold Token.tok at same
  split at same
  · cases same
    exact ⟨‹_›, rfl, rfl⟩
  · cases same

/-- `peek` hits a token that leads with a symbol it looks for. -/
theorem hit_of_lex {toks : List Char} (sub : ∀ c ∈ toks, c ∈ symbols) {s : Nat} {t : Tok} {rest : List Tok}
    (lexed : lex str s = t :: rest) (lead : t.lead ∈ toks) : (peek str s toks).hit = true :=
  (peek_hit_iff sub s).mpr ⟨t, rest, lexed, lead⟩

/-- `peek` misses where no token is left, or the next leads with another character. -/
theorem miss_of_lex {toks : List Char} (sub : ∀ c ∈ toks, c ∈ symbols) {s : Nat}
    (other : ∀ t rest, lex str s = t :: rest → t.lead ∉ toks) : (peek str s toks).hit = false := by
  cases hit : (peek str s toks).hit with
  | false => rfl
  | true =>
    obtain ⟨t, rest, lexed, lead⟩ := (peek_hit_iff sub s).mp hit
    exact absurd lead (other t rest lexed)

/-- Once `gettoken` finds the end, no token is left. -/
theorem lex_next_of_ended {s : Nat} (ended : (gettoken str s).ret = '\x00') : lex str (gettoken str s).next = [] := by
  have nul := (gettoken_ret_eq_nul_iff s).mp ended
  have scanned : (scan str (skipWs str s)).2 = skipWs str s := by
    rcases scan_cases str (skipWs str s) with ⟨-, -, e⟩ | ⟨sym, -, -⟩ | ⟨gt, -⟩ | ⟨gt, -⟩ | ⟨notNul, -⟩
    · exact e
    · simp [nul] at sym
    · simp [nul] at gt
    · simp [nul] at gt
    · exact absurd nul notNul
  simp only [gettoken, scanned, skipWs_idem]
  exact (lex_eq_nil_iff _).mpr (by rw [skipWs_idem]; exact nul)

/-- `gettoken` returning `'a'` read a word. -/
theorem lex_of_word {s : Nat} (word : (gettoken str s).ret = 'a') :
    lex str s = .word (gettoken str s).q (gettoken str s).eq :: lex str (gettoken str s).next := by
  rw [lex_of_more (by rw [word]; decide)]
  simp [Token.tok, word]

/-- A token `parseredirs` sees is `<`, `>` or `>>`, which `redirOf` knows. -/
theorem redir_of_lead {t : Tok} (lead : t.lead ∈ ['<', '>']) :
    ∃ c, t = .sym c ∧ ∀ q eq, ∃ r, redirOf c q eq = some r := by
  cases t with
  | word q eq => simp [Tok.lead] at lead
  | sym d =>
    by_cases plus : d = '+'
    · subst plus
      exact ⟨'+', rfl, fun _ _ => ⟨_, rfl⟩⟩
    · rw [Tok.lead.eq_3 _ plus] at lead
      rcases List.mem_cons.mp lead with rfl | rest
      · exact ⟨'<', rfl, fun _ _ => ⟨_, rfl⟩⟩
      · rw [List.mem_singleton.mp rest]
        exact ⟨'>', rfl, fun _ _ => ⟨_, rfl⟩⟩

/-- A token that leads with a symbol other than `>` is that symbol. -/
theorem eq_sym_of_lead {t : Tok} {c : Char} (lead : t.lead = c) (notA : c ≠ 'a') (notGt : c ≠ '>') :
    t = .sym c := by
  cases t with
  | word q eq => exact absurd lead.symm notA
  | sym d =>
    by_cases plus : d = '+'
    · subst plus
      exact absurd lead.symm notGt
    · rw [Tok.lead.eq_3 _ plus] at lead
      rw [lead]

end Reading

/-! ### The grammar -/

/-- `cmd` inside `n` `backcmd`s. -/
def backs : Nat → Cmd → Cmd
  | 0, cmd => cmd
  | n + 1, cmd => backs n (.back cmd)

/-- `redir*`: the redirections, with the fields of their `redircmd`s. A
redirection symbol is one `redirOf` knows: `<`, `>`, and `>>` (read as `'+'`). -/
inductive Redirs : List Tok → List Redir → Prop
  | nil : Redirs [] []
  | cons {tok : Char} {q eq : Nat} {ts : List Tok} {rs : List Redir} {r : Redir} :
      redirOf tok q eq = some r → Redirs ts rs → Redirs (.sym tok :: .word q eq :: ts) (r :: rs)

/-- `(WORD redir*)*`: the words, and the redirections among them. -/
inductive Words : List Tok → List Redir → List (Nat × Nat) → Prop
  | nil : Words [] [] []
  | cons {q eq : Nat} {ts ts' : List Tok} {rs rs' : List Redir} {ws : List (Nat × Nat)} :
      Redirs ts rs → Words ts' rs' ws → Words (.word q eq :: ts ++ ts') (rs ++ rs') ((q, eq) :: ws)

mutual

/-- `line ::= pipe ('&')* (';' line)?`. -/
inductive Line : List Tok → Cmd → Prop
  | pipe {ts : List Tok} {c : Cmd} (n : Nat) :
      Pipe ts c → Line (ts ++ List.replicate n (.sym '&')) (backs n c)
  | list {ts ts' : List Tok} {c c' : Cmd} (n : Nat) : Pipe ts c → Line ts' c' →
      Line (ts ++ List.replicate n (.sym '&') ++ .sym ';' :: ts') (.list (backs n c) c')

/-- `pipe ::= exec ('|' pipe)?`. -/
inductive Pipe : List Tok → Cmd → Prop
  | exec {ts : List Tok} {c : Cmd} : Exec ts c → Pipe ts c
  | pipe {ts ts' : List Tok} {c c' : Cmd} : Exec ts c → Pipe ts' c' → Pipe (ts ++ .sym '|' :: ts') (.pipe c c')

/-- `exec ::= '(' line ')' redir* | redir* (WORD redir*)*`, with fewer than
`MAXARGS` words. -/
inductive Exec : List Tok → Cmd → Prop
  | block {ts ts' : List Tok} {c : Cmd} {rs : List Redir} :
      Line ts c → Redirs ts' rs → Exec (.sym '(' :: ts ++ .sym ')' :: ts') (wrap c rs)
  | simple {ts ts' : List Tok} {rs rs' : List Redir} {ws : List (Nat × Nat)} :
      Redirs ts rs → Words ts' rs' ws → ws.length < maxArgs → Exec (ts ++ ts') (wrap (.exec ws) (rs ++ rs'))

end

/-- The next token, if any, leads with one of `stops`: what may follow a
derivation for the parser to stop there. -/
def Ends (stops : List Char) : List Tok → Prop
  | [] => True
  | t :: _ => t.lead ∈ stops

/-! ### Soundness -/

section Sound

variable {str : List Char}

/-- What `parseredirs` reads derives from `redir*`. -/
theorem parseredirs_sound {s : Nat} {rs : List Redir} {p : {p : Nat // s ≤ p}}
    (ok : parseredirs str s = .ok (rs, p)) : ∃ ts, lex str s = ts ++ lex str p.1 ∧ Redirs ts rs := by
  rw [parseredirs] at ok
  split at ok
  · rename_i hit
    dsimp only at ok
    split at ok
    · simp at ok
    · rename_i file
      split at ok
      · simp at ok
      · rename_i rs' p' rec
        obtain ⟨ts, lexed, redirs⟩ := parseredirs_sound rec
        obtain ⟨rfl, rfl⟩ := Prod.mk.inj (Except.ok.inj ok)
        -- the symbol `peek` saw, then the word `gettoken` read after it
        obtain ⟨t, rest, first, lead⟩ := (peek_hit_iff (by simp [symbols]) s).mp hit
        obtain ⟨c, rfl, known⟩ := redir_of_lead lead
        obtain ⟨read, after⟩ := consume_of_lex ['<', '>'] first
        rw [lex_of_word (not_not.mp file)] at after
        obtain ⟨r, some⟩ := known (gettoken str (gettoken str (peek str s ['<', '>']).next).next).q
          (gettoken str (gettoken str (peek str s ['<', '>']).next).next).eq
        rw [ret_of_tok_sym read, some, Option.toList_some, List.singleton_append]
        refine ⟨_, ?_, Redirs.cons some redirs⟩
        rw [first, ← after, lexed]
        rfl
  · obtain ⟨rfl, rfl⟩ := Prod.mk.inj (Except.ok.inj ok)
    exact ⟨[], (lex_peek s ['<', '>']).symm, Redirs.nil⟩
termination_by str.length - s
decreasing_by
  have moved := length_sub_lt_of_hit ‹_›
  have : (gettoken str (peek str s ['<', '>']).next).next ≤ (gettoken str (gettoken str (peek str s ['<', '>']).next).next).next :=
    gettoken_next_ge _
  omega

/-- `backLoop` reads `&`s, one `backcmd` each. -/
theorem backLoop_sound (cmd : Cmd) (s : Nat) :
    ∃ n, lex str s = List.replicate n (.sym '&') ++ lex str (backLoop str cmd s).2.1 ∧
      (backLoop str cmd s).1 = backs n cmd := by
  by_cases amp : (peek str s ['&']).hit
  · obtain ⟨n, amps, same⟩ := backLoop_sound (.back cmd) (gettoken str (peek str s ['&']).next).next
    obtain ⟨t, rest, first, lead⟩ := (peek_hit_iff (by simp [symbols]) s).mp amp
    obtain rfl := eq_sym_of_lead (List.mem_singleton.mp lead) (by decide) (by decide)
    obtain ⟨-, after⟩ := consume_of_lex ['&'] first
    rw [backLoop, if_pos amp]
    refine ⟨n + 1, ?_, same⟩
    rw [first, ← after, amps]
    rfl
  · rw [backLoop, if_neg amp]
    exact ⟨0, (lex_peek s ['&']).symm, rfl⟩
termination_by str.length - s
decreasing_by exact length_sub_lt_of_hit ‹_›

/-- What the loop of `parseexec` reads derives from `(WORD redir*)*`, within `MAXARGS`. -/
theorem execLoop_sound {rs rs' : List Redir} {argv argv' : List (Nat × Nat)} {s : Nat} {p : {p : Nat // s ≤ p}}
    (ok : execLoop str rs argv s = .ok (rs', argv', p)) (room : argv.length < maxArgs) :
    ∃ ts more ws, lex str s = ts ++ lex str p.1 ∧ Words ts more ws ∧ rs' = rs ++ more ∧ argv' = argv ++ ws ∧
      argv'.length < maxArgs := by
  rw [execLoop] at ok
  split at ok
  · simp only [Except.ok.injEq, Prod.mk.injEq] at ok
    obtain ⟨rfl, rfl, rfl⟩ := ok
    exact ⟨[], [], [], (lex_peek s ['|', ')', '&', ';']).symm, Words.nil, by simp, by simp, room⟩
  · dsimp only at ok
    split at ok
    · rename_i ended
      simp only [Except.ok.injEq, Prod.mk.injEq] at ok
      obtain ⟨rfl, rfl, rfl⟩ := ok
      have empty : lex str s = [] := by rw [← lex_peek s ['|', ')', '&', ';'], lex_of_ended ended]
      exact ⟨[], [], [], by rw [empty, lex_next_of_ended ended]; rfl, Words.nil, by simp, by simp, room⟩
    · rename_i more
      split at ok
      · simp at ok
      · rename_i word
        split at ok
        · simp at ok
        · rename_i fits
          split at ok
          · simp at ok
          · rename_i redirsRead p1 redirs
            split at ok
            · simp at ok
            · rename_i rs'' argv'' p2 rec
              obtain ⟨ts1, lexed1, derives1⟩ := parseredirs_sound redirs
              have later := p1.2
              obtain ⟨ts2, more2, ws2, lexed2, words, rfl, rfl, room'⟩ := execLoop_sound rec (by omega)
              simp only [Except.ok.injEq, Prod.mk.injEq] at ok
              obtain ⟨rfl, rfl, rfl⟩ := ok
              -- the word, then the redirections after it, then the rest of the loop
              have lexed : lex str s = .word (gettoken str (peek str s ['|', ')', '&', ';']).next).q
                  (gettoken str (peek str s ['|', ')', '&', ';']).next).eq :: ts1 ++ ts2 ++ lex str p2.1 := by
                rw [← lex_peek s ['|', ')', '&', ';'], lex_of_word (not_not.mp word), lexed1, lexed2]
                simp
              exact ⟨_, _, _, lexed, Words.cons derives1 words, by simp, by simp, room'⟩
termination_by str.length - s
decreasing_by
  have moved : str.length - (gettoken str (peek str s ['|', ')', '&', ';']).next).next <
      str.length - (peek str s ['|', ')', '&', ';']).next := length_sub_next_lt ‹_›
  have : s ≤ (peek str s ['|', ')', '&', ';']).next := peek_next_ge s _
  omega

mutual

/-- What `parseline` reads derives from `line`. -/
theorem parseline_sound {s : Nat} {c : Cmd} {p : {p : Nat // s ≤ p}} (ok : parseline str s = .ok (c, p)) :
    ∃ ts, lex str s = ts ++ lex str p.1 ∧ Line ts c := by
  rw [parseline] at ok
  split at ok
  · simp at ok
  · rename_i c0 p0 pipe
    obtain ⟨ts, lexed, derives⟩ := parsepipe_sound pipe
    split at ok
    rename_i c1 p1 loop
    obtain ⟨n, amps, backed⟩ := @backLoop_sound str c0 p0.1
    rw [loop] at amps backed
    subst backed
    have later0 := p0.2
    have later1 := p1.2
    split at ok
    · rename_i semi
      split at ok
      · simp at ok
      · rename_i right p2 rest
        obtain ⟨ts', lexed', derives'⟩ := parseline_sound rest
        simp only [Except.ok.injEq, Prod.mk.injEq] at ok
        obtain ⟨rfl, rfl⟩ := ok
        obtain ⟨t, r, first, lead⟩ := (peek_hit_iff (by simp [symbols]) _).mp semi
        obtain rfl := eq_sym_of_lead (List.mem_singleton.mp lead) (by decide) (by decide)
        obtain ⟨-, after⟩ := consume_of_lex [';'] first
        refine ⟨ts ++ List.replicate n (.sym '&') ++ .sym ';' :: ts', ?_, Line.list n derives derives'⟩
        rw [lexed, amps, first, ← after, lexed']
        simp
    · simp only [Except.ok.injEq, Prod.mk.injEq] at ok
      obtain ⟨rfl, rfl⟩ := ok
      refine ⟨ts ++ List.replicate n (.sym '&'), ?_, Line.pipe n derives⟩
      rw [lexed, amps, lex_peek]
      simp
termination_by 4 * (str.length - s) + 3
decreasing_by
  all_goals first
    | omega
    | (have moved := length_sub_lt_of_hit ‹_›
       omega)

/-- What `parsepipe` reads derives from `pipe`. -/
theorem parsepipe_sound {s : Nat} {c : Cmd} {p : {p : Nat // s ≤ p}} (ok : parsepipe str s = .ok (c, p)) :
    ∃ ts, lex str s = ts ++ lex str p.1 ∧ Pipe ts c := by
  rw [parsepipe] at ok
  split at ok
  · simp at ok
  · rename_i c0 p0 exec
    obtain ⟨ts, lexed, derives⟩ := parseexec_sound exec
    have later0 := p0.2
    split at ok
    · rename_i bar
      split at ok
      · simp at ok
      · rename_i right p1 rest
        obtain ⟨ts', lexed', derives'⟩ := parsepipe_sound rest
        simp only [Except.ok.injEq, Prod.mk.injEq] at ok
        obtain ⟨rfl, rfl⟩ := ok
        obtain ⟨t, r, first, lead⟩ := (peek_hit_iff (by simp [symbols]) _).mp bar
        obtain rfl := eq_sym_of_lead (List.mem_singleton.mp lead) (by decide) (by decide)
        obtain ⟨-, after⟩ := consume_of_lex ['|'] first
        refine ⟨ts ++ .sym '|' :: ts', ?_, Pipe.pipe derives derives'⟩
        rw [lexed, first, ← after, lexed']
        simp
    · simp only [Except.ok.injEq, Prod.mk.injEq] at ok
      obtain ⟨rfl, rfl⟩ := ok
      exact ⟨ts, by rw [lexed, lex_peek], Pipe.exec derives⟩
termination_by 4 * (str.length - s) + 2
decreasing_by
  all_goals first
    | omega
    | (have moved := length_sub_lt_of_hit ‹_›
       omega)

/-- What `parseexec` reads derives from `exec`. -/
theorem parseexec_sound {s : Nat} {c : Cmd} {p : {p : Nat // s ≤ p}} (ok : parseexec str s = .ok (c, p)) :
    ∃ ts, lex str s = ts ++ lex str p.1 ∧ Exec ts c := by
  rw [parseexec] at ok
  split at ok
  · exact parseblock_sound ok
  · split at ok
    · simp at ok
    · rename_i rs p0 redirs
      obtain ⟨ts, lexed, derives⟩ := parseredirs_sound redirs
      split at ok
      · simp at ok
      · rename_i rs' argv p1 loop
        obtain ⟨ts', more, ws, lexed', words, rfl, rfl, room⟩ := execLoop_sound loop (by decide)
        simp only [Except.ok.injEq, Prod.mk.injEq] at ok
        obtain ⟨rfl, rfl⟩ := ok
        refine ⟨ts ++ ts', ?_, Exec.simple derives words room⟩
        rw [← lex_peek s ['('], lexed, lexed']
        simp
termination_by 4 * (str.length - s) + 1
decreasing_by omega

/-- What `parseblock` reads derives from `exec`. -/
theorem parseblock_sound {s : Nat} {c : Cmd} {p : {p : Nat // s ≤ p}} (ok : parseblock str s = .ok (c, p)) :
    ∃ ts, lex str s = ts ++ lex str p.1 ∧ Exec ts c := by
  rw [parseblock] at ok
  split at ok
  · rename_i paren
    split at ok
    · simp at ok
    · rename_i c0 p0 line
      obtain ⟨ts, lexed, derives⟩ := parseline_sound line
      split at ok
      · rename_i close
        split at ok
        · simp at ok
        · rename_i rs p1 redirs
          obtain ⟨ts', lexed', derives'⟩ := parseredirs_sound redirs
          simp only [Except.ok.injEq, Prod.mk.injEq] at ok
          obtain ⟨rfl, rfl⟩ := ok
          obtain ⟨t, r, first, lead⟩ := (peek_hit_iff (by simp [symbols]) s).mp paren
          obtain rfl := eq_sym_of_lead (List.mem_singleton.mp lead) (by decide) (by decide)
          obtain ⟨-, after⟩ := consume_of_lex ['('] first
          obtain ⟨t', r', first', lead'⟩ := (peek_hit_iff (by simp [symbols]) _).mp close
          obtain rfl := eq_sym_of_lead (List.mem_singleton.mp lead') (by decide) (by decide)
          obtain ⟨-, after'⟩ := consume_of_lex [')'] first'
          refine ⟨.sym '(' :: ts ++ .sym ')' :: ts', ?_, Exec.block derives derives'⟩
          rw [first, ← after, lexed, first', ← after', lexed']
          simp
      · simp at ok
  · simp at ok
termination_by 4 * (str.length - s)
decreasing_by
  have := length_sub_lt_of_hit ‹_›
  omega

end

end Sound


/-! ### Completeness -/

section Complete

variable {str : List Char}

theorem Ends.mono {stops stops' : List Char} {rest : List Tok} (ends : Ends stops rest)
    (sub : ∀ c ∈ stops, c ∈ stops') : Ends stops' rest := by
  cases rest with
  | nil => trivial
  | cons t _ => exact sub _ ends

/-- `&`s end where `&` may. -/
theorem Ends.amps {stops : List Char} {rest : List Tok} (n : Nat) (amp : '&' ∈ stops) (ends : Ends stops rest) :
    Ends stops (List.replicate n (.sym '&') ++ rest) := by
  cases n with
  | zero => exact ends
  | succ n => exact amp

theorem lead_of_redirOf {tok : Char} {q eq : Nat} {r : Redir} (known : redirOf tok q eq = some r) :
    (Tok.sym tok).lead ∈ ['<', '>'] := by
  unfold redirOf at known
  split at known
  all_goals first
    | decide
    | cases known

/-- Redirections lead with `<` or `>`. -/
theorem Redirs.ends {ts : List Tok} {rs : List Redir} (derives : Redirs ts rs) {stops : List Char}
    {rest : List Tok} (ends : Ends stops rest) : Ends ('<' :: '>' :: stops) (ts ++ rest) := by
  cases derives with
  | nil => exact ends.mono fun c mem => List.mem_cons_of_mem _ (List.mem_cons_of_mem _ mem)
  | cons known _ =>
    have lead := lead_of_redirOf known
    simp only [List.mem_cons, List.not_mem_nil, or_false] at lead
    show Tok.lead _ ∈ _
    rcases lead with same | same <;> simp [same]

/-- Words lead with a word. -/
theorem Words.ends {ts : List Tok} {rs : List Redir} {ws : List (Nat × Nat)} (derives : Words ts rs ws)
    {stops : List Char} {rest : List Tok} (ends : Ends stops rest) : Ends ('a' :: stops) (ts ++ rest) := by
  cases derives with
  | nil => exact ends.mono fun c mem => List.mem_cons_of_mem _ mem
  | cons _ _ => exact List.mem_cons_self

theorem ends_sym {stops : List Char} {c : Char} {rest : List Tok} (mem : (Tok.sym c).lead ∈ stops) :
    Ends stops (.sym c :: rest) :=
  mem

/-- `peek` misses where the tokens left end a derivation with none it looks for. -/
theorem miss_of_ends {toks stops : List Char} (sub : ∀ c ∈ toks, c ∈ symbols) (apart : ∀ c ∈ stops, c ∉ toks)
    {s : Nat} (ends : Ends stops (lex str s)) : (peek str s toks).hit = false :=
  miss_of_lex sub fun t rest lexed lead => apart _ (by rw [lexed] at ends; exact ends) lead

/-- `parseredirs` reads the redirections of a derivation of `redir*`. -/
theorem Redirs.parse {ts : List Tok} {rs : List Redir} (derives : Redirs ts rs) {s : Nat} {rest : List Tok}
    (lexed : lex str s = ts ++ rest) (ends : Ends ['a', '|', ')', '&', ';'] rest) (inside : s ≤ str.length) :
    ∃ p : {p : Nat // s ≤ p}, parseredirs str s = .ok (rs, p) ∧ lex str p.1 = rest ∧ p.1 ≤ str.length := by
  induction derives generalizing s with
  | nil =>
    have ends' : Ends ['a', '|', ')', '&', ';'] (lex str s) := by rw [lexed]; exact ends
    have miss : (peek str s ['<', '>']).hit = false := miss_of_ends (by simp [symbols]) (by simp) ends'
    rw [parseredirs, if_neg (by simp [miss])]
    exact ⟨_, rfl, by rw [lex_peek, lexed]; rfl, skipWs_le inside⟩
  | @cons tok q eq ts rs r known redirs ih =>
    -- the symbol, then the word `gettoken` reads as the file
    have hit := hit_of_lex (by simp [symbols]) lexed (lead_of_redirOf known)
    obtain ⟨read, after⟩ := consume_of_lex ['<', '>'] lexed
    obtain ⟨file, after'⟩ := gettoken_of_lex after
    obtain ⟨isWord, rfl, rfl⟩ := ret_of_tok_word file
    obtain ⟨p, ok, lexed', bound⟩ := ih after' (gettoken_next_le (gettoken_next_le (skipWs_le inside)))
    refine ⟨⟨p.1, (le_consume s _).trans ((gettoken_next_ge _).trans p.2)⟩, ?_, lexed', bound⟩
    rw [parseredirs, if_pos hit]
    simp [isWord, ok, ret_of_tok_sym read, known]

/-- The loop of `parseexec` reads the words and redirections of a derivation of
`(WORD redir*)*`, within `MAXARGS`. -/
theorem Words.parse {ts : List Tok} {more : List Redir} {ws : List (Nat × Nat)} (derives : Words ts more ws)
    {rs : List Redir} {argv : List (Nat × Nat)} {s : Nat} {rest : List Tok} (lexed : lex str s = ts ++ rest)
    (ends : Ends ['|', ')', '&', ';'] rest) (room : argv.length + ws.length < maxArgs) (inside : s ≤ str.length) :
    ∃ p : {p : Nat // s ≤ p}, execLoop str rs argv s = .ok (rs ++ more, argv ++ ws, p) ∧ lex str p.1 = rest ∧
      p.1 ≤ str.length := by
  induction derives generalizing rs argv s with
  | nil =>
    rw [List.nil_append] at lexed
    cases rest with
    | nil =>
      -- the end of the line: `gettoken` returns 0
      have miss : (peek str s ['|', ')', '&', ';']).hit = false :=
        miss_of_lex (by simp [symbols]) fun t r first => by simp [lexed] at first
      have ended : (gettoken str (peek str s ['|', ')', '&', ';']).next).ret = '\x00' :=
        (gettoken_ret_eq_nul_iff _).mpr ((lex_eq_nil_iff _).mp (by rw [lex_peek, lexed]))
      refine ⟨⟨_, le_consume s _⟩, ?_, lex_next_of_ended ended, gettoken_next_le (skipWs_le inside)⟩
      rw [execLoop, if_neg (by simp [miss])]
      simp [ended]
    | cons t rest =>
      have hit := hit_of_lex (by simp [symbols]) lexed ends
      refine ⟨⟨_, peek_next_ge s ['|', ')', '&', ';']⟩, ?_, by rw [lex_peek, lexed], skipWs_le inside⟩
      rw [execLoop, if_pos hit]
      simp
  | @cons q eq ts ts' more more' ws redirs words ih =>
    simp only [List.cons_append, List.append_assoc] at lexed
    have miss : (peek str s ['|', ')', '&', ';']).hit = false :=
      miss_of_lex (by simp [symbols]) fun t r first => by
        rw [lexed] at first
        cases first
        simp [Tok.lead]
    obtain ⟨word, after⟩ := consume_of_lex ['|', ')', '&', ';'] lexed
    obtain ⟨isWord, rfl, rfl⟩ := ret_of_tok_word word
    simp only [List.length_cons] at room
    have fits : ¬ maxArgs ≤ argv.length + 1 := by omega
    have room' : (argv ++ [((gettoken str (peek str s ['|', ')', '&', ';']).next).q,
        (gettoken str (peek str s ['|', ')', '&', ';']).next).eq)]).length + ws.length < maxArgs := by
      simp only [List.length_append, List.length_cons, List.length_nil]
      omega
    -- the word's redirections, then the rest of the loop
    obtain ⟨p1, ok1, lexed1, bound1⟩ := Redirs.parse redirs after ((words.ends ends).mono (by simp))
      (gettoken_next_le (skipWs_le inside))
    obtain ⟨p2, ok2, lexed2, bound2⟩ := @ih (rs ++ more) _ _ lexed1 room' bound1
    refine ⟨⟨p2.1, (le_consume s _).trans (p1.2.trans p2.2)⟩, ?_, lexed2, bound2⟩
    rw [execLoop, if_neg (by simp [miss])]
    simp [isWord, fits, ok1, ok2]

/-- `backLoop` reads the `&`s of a derivation, one `backcmd` each. -/
theorem backLoop_amps (n : Nat) (cmd : Cmd) {s : Nat} {rest : List Tok}
    (lexed : lex str s = List.replicate n (.sym '&') ++ rest) (ends : Ends [';', ')'] rest) (inside : s ≤ str.length) :
    (backLoop str cmd s).1 = backs n cmd ∧ lex str (backLoop str cmd s).2.1 = rest ∧
      (backLoop str cmd s).2.1 ≤ str.length := by
  induction n generalizing cmd s with
  | zero =>
    have ends' : Ends [';', ')'] (lex str s) := by rw [lexed]; exact ends
    have miss : (peek str s ['&']).hit = false := miss_of_ends (by simp [symbols]) (by simp) ends'
    rw [backLoop, if_neg (by simp [miss])]
    exact ⟨rfl, by rw [lex_peek, lexed]; rfl, skipWs_le inside⟩
  | succ n ih =>
    rw [List.replicate_succ, List.cons_append] at lexed
    have hit : (peek str s ['&']).hit = true := hit_of_lex (by simp [symbols]) lexed (List.mem_singleton_self _)
    obtain ⟨-, after⟩ := consume_of_lex ['&'] lexed
    obtain ⟨backed, lexed', bound⟩ := ih (.back cmd) after (gettoken_next_le (skipWs_le inside))
    rw [backLoop, if_pos hit]
    exact ⟨backed, lexed', bound⟩

mutual

/-- `parseline` reads a derivation of `line`, up to a token that may follow it. -/
theorem Line.parse {ts : List Tok} {c : Cmd} (derives : Line ts c) {s : Nat} {rest : List Tok}
    (lexed : lex str s = ts ++ rest) (ends : Ends [')'] rest) (inside : s ≤ str.length) :
    ∃ p : {p : Nat // s ≤ p}, parseline str s = .ok (c, p) ∧ lex str p.1 = rest ∧ p.1 ≤ str.length := by
  match derives with
  | @Line.pipe ts0 c0 n pipe =>
    rw [List.append_assoc] at lexed
    obtain ⟨p0, ok0, lexed0, bound0⟩ :=
      Pipe.parse pipe lexed (Ends.amps n (by decide) (ends.mono (by simp))) inside
    have loop := backLoop_amps n c0 lexed0 (ends.mono (by simp)) bound0
    rcases loopEq : backLoop str c0 p0.1 with ⟨c1, p1⟩
    rw [loopEq] at loop
    obtain ⟨rfl, lexed1, bound1⟩ := loop
    -- no `;` after the `&`s
    have ends1 : Ends [')'] (lex str p1.1) := by rw [lexed1]; exact ends
    have miss : (peek str p1.1 [';']).hit = false := miss_of_ends (by simp [symbols]) (by simp) ends1
    refine ⟨⟨_, p0.2.trans (p1.2.trans (peek_next_ge _ [';']))⟩, ?_, by rw [lex_peek, lexed1], skipWs_le bound1⟩
    rw [parseline, ok0]
    simp [loopEq, miss]
  | @Line.list ts0 ts' c0 c' n pipe line =>
    simp only [List.append_assoc, List.cons_append] at lexed
    obtain ⟨p0, ok0, lexed0, bound0⟩ :=
      Pipe.parse pipe lexed (Ends.amps n (by decide) (ends_sym (by decide))) inside
    have loop := backLoop_amps n c0 lexed0 (ends_sym (by decide)) bound0
    rcases loopEq : backLoop str c0 p0.1 with ⟨c1, p1⟩
    rw [loopEq] at loop
    obtain ⟨rfl, lexed1, bound1⟩ := loop
    dsimp only at lexed1 bound1
    -- the `;`, then the line after it
    have semi : (peek str p1.1 [';']).hit = true := hit_of_lex (by simp [symbols]) lexed1 (by decide)
    obtain ⟨-, after⟩ := consume_of_lex [';'] lexed1
    obtain ⟨p2, ok2, lexed2, bound2⟩ := Line.parse line after ends (gettoken_next_le (skipWs_le bound1))
    refine ⟨⟨p2.1, p0.2.trans (p1.2.trans ((le_consume _ _).trans p2.2))⟩, ?_, lexed2, bound2⟩
    rw [parseline, ok0]
    dsimp only
    rw [loopEq]
    simp [semi, ok2]

/-- `parsepipe` reads a derivation of `pipe`, up to a token that may follow it. -/
theorem Pipe.parse {ts : List Tok} {c : Cmd} (derives : Pipe ts c) {s : Nat} {rest : List Tok}
    (lexed : lex str s = ts ++ rest) (ends : Ends ['&', ';', ')'] rest) (inside : s ≤ str.length) :
    ∃ p : {p : Nat // s ≤ p}, parsepipe str s = .ok (c, p) ∧ lex str p.1 = rest ∧ p.1 ≤ str.length := by
  match derives with
  | .exec exec =>
    obtain ⟨p0, ok0, lexed0, bound0⟩ := Exec.parse exec lexed (ends.mono (by simp)) inside
    have ends0 : Ends ['&', ';', ')'] (lex str p0.1) := by rw [lexed0]; exact ends
    have miss : (peek str p0.1 ['|']).hit = false := miss_of_ends (by simp [symbols]) (by simp) ends0
    refine ⟨⟨_, p0.2.trans (peek_next_ge _ ['|'])⟩, ?_, by rw [lex_peek, lexed0], skipWs_le bound0⟩
    rw [parsepipe, ok0]
    simp [miss]
  | @Pipe.pipe ts0 ts' c0 c' exec pipe =>
    simp only [List.append_assoc, List.cons_append] at lexed
    obtain ⟨p0, ok0, lexed0, bound0⟩ := Exec.parse exec lexed (ends_sym (by decide)) inside
    -- the `|`, then the pipe after it
    have bar : (peek str p0.1 ['|']).hit = true := hit_of_lex (by simp [symbols]) lexed0 (by decide)
    obtain ⟨-, after⟩ := consume_of_lex ['|'] lexed0
    obtain ⟨p1, ok1, lexed1, bound1⟩ := Pipe.parse pipe after ends (gettoken_next_le (skipWs_le bound0))
    refine ⟨⟨p1.1, p0.2.trans ((le_consume _ _).trans p1.2)⟩, ?_, lexed1, bound1⟩
    rw [parsepipe, ok0]
    simp [bar, ok1]

/-- `parseexec` reads a derivation of `exec`, up to a token that may follow it. -/
theorem Exec.parse {ts : List Tok} {c : Cmd} (derives : Exec ts c) {s : Nat} {rest : List Tok}
    (lexed : lex str s = ts ++ rest) (ends : Ends ['|', ')', '&', ';'] rest) (inside : s ≤ str.length) :
    ∃ p : {p : Nat // s ≤ p}, parseexec str s = .ok (c, p) ∧ lex str p.1 = rest ∧ p.1 ≤ str.length := by
  match derives with
  | @Exec.block ts0 ts' c0 rs line redirs =>
    simp only [List.cons_append, List.append_assoc] at lexed
    -- `(`, the line, `)`, then the redirections of the block
    have paren : (peek str s ['(']).hit = true := hit_of_lex (by simp [symbols]) lexed (by decide)
    obtain ⟨-, after⟩ := consume_of_lex ['('] lexed
    obtain ⟨p0, ok0, lexed0, bound0⟩ :=
      Line.parse line after (ends_sym (by decide)) (gettoken_next_le (skipWs_le inside))
    have close : (peek str p0.1 [')']).hit = true := hit_of_lex (by simp [symbols]) lexed0 (by decide)
    obtain ⟨-, after'⟩ := consume_of_lex [')'] lexed0
    obtain ⟨p1, ok1, lexed1, bound1⟩ :=
      Redirs.parse redirs after' (ends.mono (by simp)) (gettoken_next_le (skipWs_le bound0))
    refine ⟨⟨p1.1, (le_consume s _).trans (p0.2.trans ((le_consume _ _).trans p1.2))⟩, ?_, lexed1, bound1⟩
    rw [parseexec, if_pos paren, parseblock, if_pos paren, ok0]
    simp [close, ok1]
  | @Exec.simple ts0 ts' rs rs' ws redirs words room =>
    rw [List.append_assoc] at lexed
    -- no `(`: the redirections, then the words
    have ends0 : Ends ['<', '>', 'a', '|', ')', '&', ';'] (lex str s) := by
      rw [lexed]
      exact redirs.ends (words.ends ends)
    have notParen : (peek str s ['(']).hit = false := miss_of_ends (by simp [symbols]) (by simp) ends0
    have lexedP : lex str (peek str s ['(']).next = ts0 ++ (ts' ++ rest) := by rw [lex_peek]; exact lexed
    obtain ⟨p0, ok0, lexed0, bound0⟩ := Redirs.parse redirs lexedP (words.ends ends) (skipWs_le inside)
    obtain ⟨p1, ok1, lexed1, bound1⟩ := @Words.parse str _ _ _ words rs [] _ _ lexed0 ends (by simpa using room) bound0
    refine ⟨⟨p1.1, (peek_next_ge s _).trans (p0.2.trans p1.2)⟩, ?_, lexed1, bound1⟩
    rw [parseexec, if_neg (by simp [notParen]), ok0]
    simp [ok1]

end

end Complete

/-! ### Words of the line, and `nulterminate` -/

/-- A word of the line from `q` to `eq`: word characters, then the end of the
line or a character that is not one. -/
structure IsWord (str : List Char) (q eq : Nat) : Prop where
  lt : q < eq
  le : eq ≤ str.length
  chars : ∀ i, q ≤ i → i < eq → wordChar (charAt str i)
  stop : eq < str.length → wordChar (charAt str eq) = false

section Words

variable {str : List Char}

/-- A word `gettoken` reads is a word of the line. -/
theorem isWord_of_gettoken {s : Nat} (word : (gettoken str s).ret = 'a') :
    IsWord str (gettoken str s).q (gettoken str s).eq := by
  have read : (scan str (skipWs str s)).1 = 'a' := word
  rcases scan_cases str (skipWs str s) with ⟨-, e, -⟩ | ⟨sym, e, -⟩ | ⟨-, -, e, -⟩ | ⟨-, -, e, -⟩ |
    ⟨notNul, notSym, -, e⟩
  · exact absurd (e.symm.trans read) (by decide)
  · rw [e] at read
    rw [read] at sym
    exact absurd sym (by decide)
  · exact absurd (e.symm.trans read) (by decide)
  · exact absurd (e.symm.trans read) (by decide)
  · -- `scan`'s word case: the word loop from the first character on
    show IsWord str (skipWs str s) (scan str (skipWs str s)).2
    rw [e]
    have inside := lt_length_of_charAt notNul
    have notSym' : strchr symbols (charAt str (skipWs str s)) = false := by simp [strchr, notSym]
    have first : wordChar (charAt str (skipWs str s)) := by simp [wordChar, not_ws_of_skipWs notNul, notSym']
    have stops : ¬ (skipWord str (skipWs str s) < str.length ∧ wordChar (charAt str (skipWord str (skipWs str s)))) :=
      skipWord_stops _
    refine ⟨skipWord_gt inside first, skipWord_le inside.le, fun i from_ before => ?_, fun inside' => ?_⟩
    · exact (wordChar_of_skipWord from_ before).2
    · simpa [inside'] using stops

/-- Every word token of the line is a word of it. -/
theorem isWord_of_mem_lex {q eq : Nat} (s : Nat) (mem : Tok.word q eq ∈ lex str s) : IsWord str q eq := by
  by_cases ended : (gettoken str s).ret = '\x00'
  · rw [lex_of_ended ended] at mem
    cases mem
  · rw [lex_of_more ended] at mem
    rcases List.mem_cons.mp mem with here | later
    · obtain ⟨word, rfl, rfl⟩ := ret_of_tok_word here.symm
      exact isWord_of_gettoken word
    · exact isWord_of_mem_lex _ later
termination_by str.length - s
decreasing_by exact length_sub_next_lt ended

/-- The end of a word lies in no word: a NUL written there cuts none short. -/
theorem IsWord.end_not_mem {q eq q' eq' : Nat} (word : IsWord str q eq) (word' : IsWord str q' eq') :
    ¬ (q' ≤ eq ∧ eq < eq') := by
  rintro ⟨from_, before⟩
  have inside : eq < str.length := lt_of_lt_of_le before word'.le
  have isWord := word'.chars eq from_ before
  rw [word.stop inside] at isWord
  exact Bool.false_ne_true isWord

end Words

/-- The words of a tree, in the order `nulterminate` ends them: the `argv`
entries, and each redirection's file after its command's words. -/
def Cmd.words : Cmd → List (Nat × Nat)
  | .exec argv => argv
  | .redir cmd r => cmd.words ++ [(r.file, r.efile)]
  | .pipe left right => left.words ++ right.words
  | .list left right => left.words ++ right.words
  | .back cmd => cmd.words

theorem wrap_words (cmd : Cmd) (rs : List Redir) :
    (wrap cmd rs).words = cmd.words ++ rs.map fun r => (r.file, r.efile) := by
  induction rs generalizing cmd with
  | nil => simp [wrap]
  | cons r rs ih =>
    show (wrap (.redir cmd r) rs).words = _
    rw [ih]
    simp [Cmd.words]

theorem backs_words (n : Nat) (cmd : Cmd) : (backs n cmd).words = cmd.words := by
  induction n generalizing cmd with
  | zero => rfl
  | succ n ih => exact ih (.back cmd)

/-- `nulterminate` writes a NUL at the end of each word of the tree, in order. -/
theorem nulterminate_eq (buf : List Char) (cmd : Cmd) :
    nulterminate buf cmd = Terminate.writeAll Prod.snd '\x00' cmd.words buf := by
  induction cmd generalizing buf with
  | exec argv => rfl
  | redir cmd r ih =>
    rw [nulterminate, ih, Cmd.words, Terminate.writeAll_append]
    rfl
  | pipe left right ihl ihr => rw [nulterminate, ihl, ihr, Cmd.words, Terminate.writeAll_append]
  | list left right ihl ihr => rw [nulterminate, ihl, ihr, Cmd.words, Terminate.writeAll_append]
  | back cmd ih => rw [nulterminate, ih]; rfl

theorem redirOf_file {tok : Char} {q eq : Nat} {r : Redir} (known : redirOf tok q eq = some r) :
    r.file = q ∧ r.efile = eq := by
  unfold redirOf at known
  split at known <;> cases known <;> exact ⟨rfl, rfl⟩

theorem Redirs.words_mem {ts : List Tok} {rs : List Redir} (derives : Redirs ts rs) :
    ∀ r ∈ rs, Tok.word r.file r.efile ∈ ts := by
  induction derives with
  | nil => simp
  | cons known _ ih =>
    obtain ⟨file, efile⟩ := redirOf_file known
    intro r' mem
    rcases List.mem_cons.mp mem with rfl | later
    · simp [file, efile]
    · simp [ih r' later]

theorem Words.words_mem {ts : List Tok} {rs : List Redir} {ws : List (Nat × Nat)} (derives : Words ts rs ws) :
    (∀ w ∈ ws, Tok.word w.1 w.2 ∈ ts) ∧ ∀ r ∈ rs, Tok.word r.file r.efile ∈ ts := by
  induction derives with
  | nil => simp
  | cons redirs _ ih =>
    refine ⟨fun w mem => ?_, fun r mem => ?_⟩
    · rcases List.mem_cons.mp mem with rfl | later
      · simp
      · simp [ih.1 w later]
    · rcases List.mem_append.mp mem with here | later
      · simp [redirs.words_mem r here]
      · simp [ih.2 r later]

mutual

/-- Each word of the tree of a derivation is one of its word tokens. -/
theorem Line.words_mem {ts : List Tok} {c : Cmd} (derives : Line ts c) : ∀ w ∈ c.words, Tok.word w.1 w.2 ∈ ts := by
  match derives with
  | .pipe n pipe =>
    intro w mem
    rw [backs_words] at mem
    simp [Pipe.words_mem pipe w mem]
  | .list n pipe line =>
    intro w mem
    rw [Cmd.words, backs_words, List.mem_append] at mem
    rcases mem with left | right
    · simp [Pipe.words_mem pipe w left]
    · simp [Line.words_mem line w right]

theorem Pipe.words_mem {ts : List Tok} {c : Cmd} (derives : Pipe ts c) : ∀ w ∈ c.words, Tok.word w.1 w.2 ∈ ts := by
  match derives with
  | .exec exec => exact Exec.words_mem exec
  | .pipe exec pipe =>
    intro w mem
    rw [Cmd.words, List.mem_append] at mem
    rcases mem with left | right
    · simp [Exec.words_mem exec w left]
    · simp [Pipe.words_mem pipe w right]

theorem Exec.words_mem {ts : List Tok} {c : Cmd} (derives : Exec ts c) : ∀ w ∈ c.words, Tok.word w.1 w.2 ∈ ts := by
  match derives with
  | .block line redirs =>
    intro w mem
    rw [wrap_words, List.mem_append] at mem
    rcases mem with inner | outer
    · simp [Line.words_mem line w inner]
    · obtain ⟨r, mem, rfl⟩ := List.mem_map.mp outer
      simp [redirs.words_mem r mem]
  | .simple redirs words _ =>
    intro w mem
    rw [wrap_words] at mem
    simp only [Cmd.words, List.map_append, List.mem_append, List.mem_map] at mem
    rcases mem with argv | ⟨r, before, rfl⟩ | ⟨r, among, rfl⟩
    · simp [words.words_mem.1 w argv]
    · simp [redirs.words_mem r before]
    · simp [words.words_mem.2 r among]

end

section Nulterminate

variable {buf : List Char}

/-- The line is the buffer up to its first NUL, and holds none. -/
theorem charAt_cstr_ne_nul {i : Nat} (inside : i < (Grep.cstr buf).length) : charAt (Grep.cstr buf) i ≠ '\x00' := by
  have mem : (Grep.cstr buf)[i] ∈ Grep.cstr buf := List.getElem_mem inside
  have pass := List.mem_takeWhile_imp mem
  simpa [charAt, List.getD_eq_getElem?_getD, List.getElem?_eq_getElem inside] using pass

theorem ne_nul_of_mem_cstr {ch : Char} (mem : ch ∈ Grep.cstr buf) : (ch != '\x00') = true := by
  have pass := List.mem_takeWhile_imp mem
  exact pass

theorem take_cstr {e : Nat} (le : e ≤ (Grep.cstr buf).length) : buf.take e = (Grep.cstr buf).take e := by
  have split : Grep.cstr buf ++ buf.dropWhile (· != '\x00') = buf := List.takeWhile_append_dropWhile
  conv_lhs => rw [← split]
  exact List.take_append_of_le_length le

/-- Where the tree's words are words of the line, `nulterminate` keeps the
characters of every word of the line. -/
theorem nulterminate_keeps {c : Cmd} (words : ∀ w ∈ c.words, IsWord (Grep.cstr buf) w.1 w.2) {q eq : Nat}
    (word : IsWord (Grep.cstr buf) q eq) {i : Nat} (from_ : q ≤ i) (before : i < eq) :
    (nulterminate buf c)[i]? = buf[i]? := by
  rw [nulterminate_eq]
  apply Terminate.getElem?_writeAll_of_forall_ne
  intro w mem same
  exact (words w mem).end_not_mem word ⟨by omega, by omega⟩

/-- `nulterminate` leaves a NUL at the end of each word of the tree. -/
theorem nulterminate_ends {c : Cmd} {w : Nat × Nat} (mem : w ∈ c.words) (inside : w.2 < buf.length) :
    (nulterminate buf c)[w.2]? = some '\x00' := by
  rw [nulterminate_eq]
  exact Terminate.getElem?_writeAll_of_mem Prod.snd '\x00' mem inside

/-- After `nulterminate`, the C string at a word of the tree is that word of the line. -/
theorem cstr_nulterminate {c : Cmd} (words : ∀ w ∈ c.words, IsWord (Grep.cstr buf) w.1 w.2) {w : Nat × Nat}
    (mem : w ∈ c.words) : Grep.cstr ((nulterminate buf c).drop w.1) = ((Grep.cstr buf).take w.2).drop w.1 := by
  have word := words w mem
  -- the word's characters are unchanged, and none is a NUL
  have window : ((nulterminate buf c).take w.2).drop w.1 = ((Grep.cstr buf).take w.2).drop w.1 := by
    rw [nulterminate_eq, Terminate.drop_take_writeAll _ _ (fun w' mem' => (words w' mem').end_not_mem word),
      take_cstr word.le]
  have pass : ∀ ch ∈ ((nulterminate buf c).take w.2).drop w.1, (ch != '\x00') = true := by
    rw [window]
    intro ch inside
    exact ne_nul_of_mem_cstr (List.mem_of_mem_take (List.mem_of_mem_drop inside))
  -- and the character after it is the NUL written there, or the buffer ends
  have stop : ∀ ch ∈ (nulterminate buf c)[w.2]?, (ch != '\x00') = false := by
    intro ch at_
    by_cases inside : w.2 < buf.length
    · rw [nulterminate_ends mem inside, Option.mem_some_iff] at at_
      simp [← at_]
    · rw [List.getElem?_eq_none (by rw [nulterminate_eq, Terminate.length_writeAll]; omega)] at at_
      cases at_
  show List.takeWhile _ _ = _
  rw [Terminate.takeWhile_drop word.lt.le pass stop, window]

/-- `parsecmd` accepts a line that derives from `line`, with the tree of the derivation. -/
theorem parsecmd_of_line {c : Cmd} (derives : Line (lex (Grep.cstr buf) 0) c) :
    parsecmd buf = .ok (c, nulterminate buf c) := by
  obtain ⟨p, ok, empty, bound⟩ := Line.parse derives (List.append_nil _).symm trivial (Nat.zero_le _)
  -- nothing is left over: past the whitespace is the end of the line
  have ends : (peek (Grep.cstr buf) p.1 []).next = (Grep.cstr buf).length := by
    have nul := (lex_eq_nil_iff _).mp empty
    have atEnd : ¬ skipWs (Grep.cstr buf) p.1 < (Grep.cstr buf).length := fun inside => charAt_cstr_ne_nul inside nul
    have := skipWs_le bound
    show skipWs _ _ = _
    omega
  simp only [parsecmd, ok, ends]
  simp

/-- What `parsecmd` accepts derives from `line`, and the buffer it returns is
the line after `nulterminate`. -/
theorem line_of_parsecmd {c : Cmd} {buf' : List Char} (result : parsecmd buf = .ok (c, buf')) :
    Line (lex (Grep.cstr buf) 0) c ∧ buf' = nulterminate buf c := by
  simp only [parsecmd] at result
  split at result
  · simp at result
  · rename_i c0 p ok
    split at result
    · simp at result
    · rename_i ends
      simp only [Except.ok.injEq, Prod.mk.injEq] at result
      obtain ⟨rfl, rfl⟩ := result
      obtain ⟨ts, lexed, derives⟩ := parseline_sound ok
      have atEnd : skipWs (Grep.cstr buf) p.1 = (Grep.cstr buf).length := not_not.mp ends
      have empty : lex (Grep.cstr buf) p.1 = [] := by
        rw [lex_eq_nil_iff, atEnd]
        exact charAt_of_le le_rfl
      rw [lexed, empty, List.append_nil]
      exact ⟨derives, rfl⟩

end Nulterminate

/-- `parsecmd` fails exactly on the lines that do not derive from `line`. On the
others it returns the tree of their one derivation, and after `nulterminate`
the C string at each word of the tree is that word of the line, ended by the
NUL written after it, while no character of any word of the line has changed. -/
theorem parsecmd_accepts_grammar (buf : List Char) :
    match parsecmd buf with
    | .error _ => ∀ c, ¬ Line (lex (Grep.cstr buf) 0) c
    | .ok (c, buf') =>
      Line (lex (Grep.cstr buf) 0) c ∧ (∀ c', Line (lex (Grep.cstr buf) 0) c' → c' = c) ∧
      (∀ w ∈ c.words, Tok.word w.1 w.2 ∈ lex (Grep.cstr buf) 0 ∧
        Grep.cstr (buf'.drop w.1) = ((Grep.cstr buf).take w.2).drop w.1 ∧
        (w.2 < buf.length → buf'[w.2]? = some '\x00')) ∧
      ∀ q eq, Tok.word q eq ∈ lex (Grep.cstr buf) 0 → ∀ i, q ≤ i → i < eq → buf'[i]? = buf[i]? := by
  rcases result : parsecmd buf with e | ⟨c, buf'⟩
  · intro c derives
    rw [parsecmd_of_line derives] at result
    cases result
  · obtain ⟨derives, rfl⟩ := line_of_parsecmd result
    have named := Line.words_mem derives
    have words : ∀ w ∈ c.words, IsWord (Grep.cstr buf) w.1 w.2 := fun w mem => isWord_of_mem_lex 0 (named w mem)
    refine ⟨derives, fun c' derives' => ?_, fun w mem => ⟨named w mem, cstr_nulterminate words mem,
      nulterminate_ends mem⟩, fun q eq mem i from_ before => nulterminate_keeps words (isWord_of_mem_lex 0 mem) from_ before⟩
    -- the parser is a function: a second derivation gives it a second result
    have same := (parsecmd_of_line derives').symm.trans result
    simp only [Except.ok.injEq, Prod.mk.injEq] at same
    exact same.1

end Xv6.Sh
