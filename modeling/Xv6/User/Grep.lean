import Xv6.Lib.Language
import Xv6.Lib.Records

/-!
Contract: the regular-expression matcher of `user/grep.c` (`match`, `matchhere`
and `matchstar`) and the language it decides.

A string is the list of its characters before the NUL: `re[0] == '\0'` is the
empty list and `*text != '\0'` a nonempty one. The functions are total:
`matchhere` recurses on the pattern, and the `do`-`while` loops of `matchstar`
and of `match` on the text.

The meaning of a pattern. A leading `^` pins the match to the start of the
text, a `$` that is the last character pins it to the end; the rest is read left
to right as atoms, a character (`.` for any) with a `*` after it for zero or
more of it. An atom means a language of one-letter words, a starred atom its
Kleene star, the pattern their product, and `match` holds when a word of it is
a factor of the text, pinned as the anchors say.

`grep` reads the file into `buf` in pieces. Whatever sizes the reads return, it
writes each line that a `'\n'` ends, with its `'\n'`, once and in order, when
`match` holds of it, as long as no line is too long for the buffer: the cut rule
of `Records` says where a round stops, and the leftover it moves to the front of
`buf` is the start of the next line. A read returns at least one byte while
there is room and input, and at most both; the list `sizes` picks how many, so
that every way of splitting the input is one choice of `sizes`. The leftover is
moved with `memmove`, taken by its meaning (`Memmove.Ulib.memmove_eq`).

Owns: `matchstar`, `matchhere`, `matchFrom`, `match`, `Item`, `atoms`,
`endAnchored`, `body`, `Stands`, `lang`, `Accepts`, `strchr`, `cstr`,
`scanLines`, `grepLoop`, `grep`.
-/

namespace Xv6.Grep

open Computability Language

/-- `matchstar(c, re, text)`, with `here` the `matchhere(re, ·)` it calls: try
`here`, then step over a character that `c` stands for and try again. -/
def matchstar (here : List Char → Bool) (c : Char) : List Char → Bool
  | [] => here []
  | x :: text => here (x :: text) || ((x == c || c == '.') && matchstar here c text)

/-- `matchhere(re, text)`: whether `re` matches at the beginning of `text`. -/
def matchhere : List Char → List Char → Bool
  | [], _ => true
  | c :: '*' :: re, text => matchstar (matchhere re) c text
  | ['$'], text => text.isEmpty
  | c :: re, x :: text => (c == '.' || c == x) && matchhere re text
  | _ :: _, [] => false

/-- The `do`-`while` of `match`: `matchhere` at each position of `text`, its end
included. -/
def matchFrom (re : List Char) : List Char → Bool
  | [] => matchhere re []
  | x :: text => matchhere re (x :: text) || matchFrom re text

/-- `match(re, text)`. -/
def «match» (re text : List Char) : Bool :=
  if re.head? = some '^' then matchhere re.tail text else matchFrom re text

/-! ### What a pattern means -/

/-- An atom of a pattern: a character, and whether a `*` follows it. -/
structure Item where
  c : Char
  star : Bool
deriving DecidableEq, Repr

/-- A pattern read left to right as atoms. -/
def atoms : List Char → List Item
  | [] => []
  | c :: '*' :: re => ⟨c, true⟩ :: atoms re
  | c :: re => ⟨c, false⟩ :: atoms re

/-- A `$` that is the last character of the pattern. -/
def endAnchored (re : List Char) : Bool := re.getLast? == some '$'

/-- The pattern without its end anchor. -/
def body (re : List Char) : List Char := if endAnchored re then re.dropLast else re

/-- The characters an atom's character stands for: `.` any one, another itself. -/
def Stands (c x : Char) : Prop := c = '.' ∨ x = c

def Item.lang (i : Item) : Language Char :=
  if i.star then (letters (Stands i.c))∗ else letters (Stands i.c)

/-- The words a pattern without anchors stands for. -/
def lang (re : List Char) : Language Char := ((atoms re).map Item.lang).prod

/-- A factor of `text` is a word of the pattern's body, at the start after a
leading `^` and at the end before a last `$`. -/
def Accepts (re text : List Char) : Prop :=
  if re.head? = some '^' then (lang (body re.tail)).Occurs true (endAnchored re.tail) text
  else (lang (body re)).Occurs false (endAnchored re) text

/-! ### The pattern, atom by atom -/

theorem stands_iff {c x : Char} : (c == '.' || c == x) = true ↔ Stands c x := by
  simp only [Bool.or_eq_true, beq_iff_eq, Stands, @eq_comm Char c x]

theorem stands_iff_star {c x : Char} : (x == c || c == '.') = true ↔ Stands c x := by
  simp only [Bool.or_eq_true, beq_iff_eq, Stands, or_comm]

@[simp]
theorem lang_nil : lang [] = 1 := rfl

theorem lang_star (c : Char) (re : List Char) : lang (c :: '*' :: re) = (letters (Stands c))∗ * lang re := by
  simp [lang, atoms, Item.lang]

theorem lang_lit {c : Char} {re : List Char} (notStar : re.head? ≠ some '*') :
    lang (c :: re) = letters (Stands c) * lang re := by
  have : atoms (c :: re) = ⟨c, false⟩ :: atoms re := by
    rcases re with _ | ⟨d, re⟩
    · rfl
    · have : d ≠ '*' := fun star => notStar (by simp [star])
      simp [atoms, this]
  simp [lang, this, Item.lang]

theorem endAnchored_star (c : Char) (re : List Char) : endAnchored (c :: '*' :: re) = endAnchored re := by
  rcases re with _ | ⟨d, re⟩ <;> simp [endAnchored, List.getLast?_cons]

theorem body_star (c : Char) (re : List Char) : body (c :: '*' :: re) = c :: '*' :: body re := by
  rcases re with _ | ⟨d, re⟩
  · simp [body, endAnchored]
  · unfold body
    rw [endAnchored_star]
    split_ifs <;> simp

theorem endAnchored_lit {c : Char} {re : List Char} (notEnd : ¬(c = '$' ∧ re = [])) :
    endAnchored (c :: re) = endAnchored re := by
  rcases re with _ | ⟨d, re⟩
  · simp [endAnchored]
    exact fun dollar => notEnd ⟨dollar, rfl⟩
  · simp [endAnchored, List.getLast?_cons]

theorem body_lit {c : Char} {re : List Char} (notEnd : ¬(c = '$' ∧ re = [])) :
    body (c :: re) = c :: body re := by
  unfold body
  rw [endAnchored_lit notEnd]
  split_ifs with anchored
  · rcases re with _ | ⟨d, re⟩
    · simp [endAnchored] at anchored
    · simp
  · rfl

/-- Taking off the end anchor keeps the first character, unless it was the anchor. -/
theorem head_body {re : List Char} {h : Char} (first : (body re).head? = some h) : re.head? = some h := by
  unfold body at first
  split_ifs at first
  · rcases re with _ | ⟨d, _ | ⟨e, re⟩⟩ <;> simp_all
  · exact first

/-! ### The three functions -/

/-- `matchstar` holds when `here` does after some first characters that `c`
stands for. -/
theorem matchstar_iff {here : List Char → Bool} {c : Char} {text : List Char} :
    matchstar here c text = true ↔
      ∃ n ≤ text.length, (∀ x ∈ text.take n, Stands c x) ∧ here (text.drop n) = true := by
  induction text with
  | nil => simp [matchstar]
  | cons x text ih =>
    rw [matchstar, Bool.or_eq_true, Bool.and_eq_true, stands_iff_star, ih]
    constructor
    · rintro (found | ⟨first, n, fits, stood, found⟩)
      · exact ⟨0, by simp, by simp, found⟩
      · refine ⟨n + 1, by simpa using fits, ?_, found⟩
        simpa [first] using stood
    · rintro ⟨n, fits, stood, found⟩
      cases n with
      | zero => exact Or.inl found
      | succ n =>
        simp only [List.take_succ_cons, List.mem_cons, forall_eq_or_imp] at stood
        exact Or.inr ⟨stood.1, n, by simpa using fits, stood.2, found⟩

/-- What `matchhere re` decides for each text. -/
def HereSpec (re : List Char) : Prop :=
  ∀ text, matchhere re text = true ↔ (lang (body re)).StartsWith (endAnchored re) text

theorem hereSpec_nil : HereSpec [] := by
  intro text
  simp [matchhere, body, endAnchored, startsWith_one]

theorem hereSpec_dollar : HereSpec ['$'] := by
  intro text
  simp [matchhere, body, endAnchored, startsWith_one]

theorem hereSpec_star (c : Char) {re : List Char} (ih : HereSpec re) : HereSpec (c :: '*' :: re) := by
  unfold HereSpec at ih
  intro text
  rw [matchhere, matchstar_iff, body_star, endAnchored_star, lang_star, startsWith_kstar_mul]
  simp only [ih]

theorem hereSpec_lit {c : Char} {re : List Char} (notStar : re.head? ≠ some '*')
    (notEnd : ¬(c = '$' ∧ re = [])) (ih : HereSpec re) : HereSpec (c :: re) := by
  have noStar : ∀ r, re = '*' :: r → False := fun r star => notStar (by simp [star])
  have noEnd : c = '$' → re = [] → False := fun dollar empty => notEnd ⟨dollar, empty⟩
  -- the body keeps the literal first, and no `*` after it
  have bodyStar : (body re).head? ≠ some '*' := fun first => notStar (head_body first)
  intro text
  rw [body_lit notEnd, endAnchored_lit notEnd, lang_lit bodyStar]
  cases text with
  | nil =>
    rw [matchhere.eq_5 c re noStar noEnd]
    simpa using not_startsWith_letters_mul_nil
  | cons x text =>
    rw [matchhere.eq_4 c re x text noStar noEnd, Bool.and_eq_true, stands_iff, ih text,
      startsWith_letters_mul]

/-- `matchhere` decides whether a word of the pattern begins the text. It looks
two characters ahead, so the induction on the pattern carries the statement for
the pattern and for each pattern one character longer. -/
theorem hereSpec (re : List Char) : HereSpec re := by
  have both : ∀ re : List Char, HereSpec re ∧ ∀ c, HereSpec (c :: re) := by
    intro re
    induction re with
    | nil =>
      refine ⟨hereSpec_nil, fun c => ?_⟩
      by_cases dollar : c = '$'
      · rw [dollar]
        exact hereSpec_dollar
      · exact hereSpec_lit (by simp) (fun both => dollar both.1) hereSpec_nil
    | cons d re ih =>
      refine ⟨ih.2 d, fun c => ?_⟩
      by_cases star : d = '*'
      · rw [star]
        exact hereSpec_star c ih.1
      · exact hereSpec_lit (by simp [star]) (fun both => List.cons_ne_nil d re both.2) (ih.2 d)
  exact (both re).1

/-- The loop of `match` finds `matchhere` true at some position. -/
theorem matchFrom_iff {re text : List Char} :
    matchFrom re text = true ↔ ∃ pre s, text = pre ++ s ∧ matchhere re s = true := by
  induction text with
  | nil =>
    constructor
    · intro found
      exact ⟨[], [], rfl, found⟩
    · rintro ⟨pre, s, split, found⟩
      obtain ⟨rfl, rfl⟩ := List.append_eq_nil_iff.mp split.symm
      exact found
  | cons x text ih =>
    rw [matchFrom, Bool.or_eq_true, ih]
    constructor
    · rintro (found | ⟨pre, s, rfl, found⟩)
      · exact ⟨[], x :: text, rfl, found⟩
      · exact ⟨x :: pre, s, rfl, found⟩
    · rintro ⟨pre, s, split, found⟩
      rcases pre with _ | ⟨y, pre⟩
      · rw [List.nil_append] at split
        rw [split]
        exact Or.inl found
      · obtain ⟨rfl, rfl⟩ := List.cons_eq_cons.mp split
        exact Or.inr ⟨pre, s, rfl, found⟩

/-- `match` returns 1 exactly when a word of the pattern is a factor of the
text: at its start after a leading `^`, at any position otherwise, and at its
end before a last `$`. -/
theorem match_decides_language (re text : List Char) : «match» re text = true ↔ Accepts re text := by
  unfold «match» Accepts
  split_ifs
  · rw [hereSpec, occurs_start]
  · have here := hereSpec re
    unfold HereSpec at here
    rw [matchFrom_iff, occurs_anywhere]
    simp only [here]

example : «match» ['a', '*', 'b', '$'] ['x', 'a', 'a', 'b'] = true := by decide
example : «match» ['^', 'a', '.'] ['b', 'a', 'c'] = false := by decide

/-! ### The loop of `grep` -/

/-- `strchr(s, c)` of `user/ulib.c`: the index of the first `c` before the NUL. -/
def strchr : List Char → Char → Option Nat
  | [], _ => none
  | x :: s, c => if x = '\x00' then none else if x = c then some 0 else (strchr s c).map (· + 1)

/-- The C string at the start of a list: its characters before the first NUL. -/
def cstr (s : List Char) : List Char := s.takeWhile (· != '\x00')

theorem strchr_lt {s : List Char} {c : Char} {i : Nat} (found : strchr s c = some i) : i < s.length := by
  induction s generalizing i with
  | nil => simp [strchr] at found
  | cons x s ih =>
    unfold strchr at found
    split_ifs at found with nul here
    · simp only [Option.some.injEq] at found
      simp [← found]
    · obtain ⟨j, inner, rfl⟩ := Option.map_eq_some_iff.mp found
      simpa using ih inner

/-- The inner loop of `grep` over `s`, the buffer from `p` on: each line that a
`'\n'` ends is written with its `'\n'` when `match` holds of it, and what is left
is the buffer from past the last `'\n'`. -/
def scanLines (pattern s : List Char) : List (List Char) × List Char :=
  match found : strchr s '\n' with
  | none => ([], s)
  | some i =>
    -- `*q = 0`: `match` reads the line up to its first NUL
    let written := if «match» pattern (cstr (s.take i)) then [s.take (i + 1)] else []
    let rest := scanLines pattern (s.drop (i + 1))
    (written ++ rest.1, rest.2)
termination_by s.length
decreasing_by
  have := strchr_lt found
  simp only [List.length_drop]
  omega

/-- What `read(fd, buf+m, sizeof(buf)-m-1)` hands over of the `left` bytes the
file still has: at most the room and what is left, at least one byte while there
are both, and as many as the head of `sizes` says; all it can once `sizes` is
used up. -/
def readSize (m left : Nat) (sizes : List Nat) : Nat :=
  min (min (1024 - m - 1) left) (max (sizes.headD left) 1)

theorem readSize_le (m left : Nat) (sizes : List Nat) : readSize m left sizes ≤ left := by
  unfold readSize
  omega

/-- The outer loop of `grep`: `buf` holds the `m` bytes kept from the last round,
`rest` what the file has still to give, and `sizes` how many bytes each `read`
hands over. -/
def grepLoop (pattern buf rest : List Char) (sizes : List Nat) : List (List Char) :=
  let n := readSize buf.length rest.length sizes
  if stop : n = 0 then []
  else
    -- `m += n`, the lines, then `memmove(buf, p, m)` keeps what is left
    let round := scanLines pattern (buf ++ rest.take n)
    round.1 ++ grepLoop pattern round.2 (rest.drop n) sizes.tail
termination_by rest.length
decreasing_by
  have := readSize_le buf.length rest.length sizes
  simp only [List.length_drop]
  omega

/-- `grep(pattern, fd)` on a file or pipe that holds `stream`: the bytes of each
`write(1, p, q+1 - p)`. -/
def grep (pattern stream : List Char) (sizes : List Nat) : List (List Char) :=
  grepLoop pattern [] stream sizes

theorem strchr_none {s : List Char} (free : '\n' ∉ s) : strchr s '\n' = none := by
  induction s with
  | nil => rfl
  | cons x s ih =>
    have other : x ≠ '\n' := fun here => free (by simp [here])
    simp [strchr, other, ih (fun inside => free (by simp [inside]))]

theorem strchr_line {l rest : List Char} (free : '\n' ∉ l) (noNul : '\x00' ∉ l) :
    strchr (l ++ '\n' :: rest) '\n' = some l.length := by
  induction l with
  | nil => rfl
  | cons x l ih =>
    have other : x ≠ '\n' := fun here => free (by simp [here])
    have notNul : x ≠ '\x00' := fun here => noNul (by simp [here])
    simp [strchr, other, notNul, ih (fun inside => free (by simp [inside])) (fun inside => noNul (by simp [inside]))]

theorem cstr_of_free {l : List Char} (noNul : '\x00' ∉ l) : cstr l = l := by
  induction l with
  | nil => rfl
  | cons x l ih =>
    have notNul : x ≠ '\x00' := fun here => noNul (by simp [here])
    have rest := ih fun inside => noNul (by simp [inside])
    unfold cstr at rest ⊢
    simp [notNul, rest]

theorem scanLines_none {pattern s : List Char} (found : strchr s '\n' = none) : scanLines pattern s = ([], s) := by
  rw [scanLines]
  split
  · rfl
  · simp_all

theorem scanLines_some {pattern s : List Char} {i : Nat} (found : strchr s '\n' = some i) :
    scanLines pattern s =
      ((if «match» pattern (cstr (s.take i)) then [s.take (i + 1)] else []) ++
        (scanLines pattern (s.drop (i + 1))).1, (scanLines pattern (s.drop (i + 1))).2) := by
  rw [scanLines]
  split
  · simp_all
  · rename_i j again
    rw [found, Option.some.injEq] at again
    subst again
    rfl

/-- The lines `grep` writes of some lines: those `match` holds of, each with its `'\n'`. -/
abbrev matching (pattern : List Char) (lines : List (List Char)) : List (List Char) :=
  (lines.filter fun l => «match» pattern l).map (· ++ ['\n'])

/-- One round over whole lines and a piece without `'\n'` writes the matching
lines and leaves the piece. -/
theorem scanLines_join {pattern tail : List Char} (tailFree : '\n' ∉ tail) :
    ∀ {lines : List (List Char)}, (∀ l ∈ lines, '\n' ∉ l ∧ '\x00' ∉ l) →
      scanLines pattern (Records.join '\n' lines ++ tail) = (matching pattern lines, tail)
  | [], _ => by
    rw [Records.join_nil, List.nil_append, scanLines_none (strchr_none tailFree)]
    rfl
  | l :: ls, shape => by
    obtain ⟨free, noNul⟩ := shape l (by simp)
    have rest : scanLines pattern (Records.join '\n' ls ++ tail) = (matching pattern ls, tail) :=
      scanLines_join tailFree fun l' inside => shape l' (by simp [inside])
    have taken : (l ++ '\n' :: (Records.join '\n' ls ++ tail)).take (l.length + 1) = l ++ ['\n'] := by
      rw [List.take_append]
      simp
    have dropped : (l ++ '\n' :: (Records.join '\n' ls ++ tail)).drop (l.length + 1) =
        Records.join '\n' ls ++ tail := by
      simp
    rw [Records.join_cons, List.append_assoc, List.cons_append, scanLines_some (strchr_line free noNul),
      List.take_left, cstr_of_free noNul, taken, dropped, rest]
    by_cases matched : «match» pattern l <;> simp [matching, matched]

/-- The rounds of `grep` from a buffer that holds the start of a line: the lines
it writes are the matching ones of what the buffer and the file hold. -/
theorem grepLoop_lines {pattern last : List Char} (lastFree : '\n' ∉ last) (buf rest : List Char)
    (sizes : List Nat) :
    ∀ lines : List (List Char), (∀ l ∈ lines, '\n' ∉ l ∧ '\x00' ∉ l ∧ l.length < 1023) → '\n' ∉ buf →
      buf ++ rest = Records.join '\n' lines ++ last → grepLoop pattern buf rest sizes = matching pattern lines := by
  fun_induction grepLoop pattern buf rest sizes with
  | case1 buf rest sizes n stop =>
    intro lines shape pending stream
    cases lines with
    | nil => rfl
    | cons l ls =>
      -- a line still to come leaves room in the buffer, so the file is at its end
      exfalso
      obtain ⟨free, -, short⟩ := shape l (by simp)
      rw [Records.join_cons, List.append_assoc, List.cons_append] at stream
      have within := Records.length_le_of_begins pending stream
      have none : readSize buf.length rest.length sizes = 0 := stop
      have empty : rest = [] := by
        unfold readSize at none
        rw [← List.length_eq_zero_iff]
        omega
      rw [empty, List.append_nil] at stream
      exact pending (by rw [stream]; simp)
  | case2 buf rest sizes n go round ih =>
    intro lines shape pending stream
    have cut : (buf ++ rest.take n) ++ rest.drop n = Records.join '\n' lines ++ last := by
      rw [List.append_assoc, List.take_append_drop, stream]
    obtain ⟨k, tail, before, tailFree, after⟩ :=
      Records.cut_join (fun l inside => (shape l inside).1) lastFree cut
    -- the round writes the lines wholly in the buffer and keeps the start of the next
    have scanned : round = (matching pattern (lines.take k), tail) := by
      rw [show round = scanLines pattern (buf ++ rest.take n) from rfl, before]
      exact scanLines_join tailFree fun l inside =>
        ⟨(shape l (List.mem_of_mem_take inside)).1, (shape l (List.mem_of_mem_take inside)).2.1⟩
    rw [scanned] at ih ⊢
    rw [ih (lines.drop k) (fun l inside => shape l (List.mem_of_mem_drop inside)) tailFree after]
    simp only [matching, ← List.map_append, ← List.filter_append, List.take_append_drop]

/-- `grep` writes each line that a `'\n'` ends, with its `'\n'`, once and in
order, when `match` holds of it, and nothing else, however the reads split the
input, as long as no line with its `'\n'` is longer than 1023 bytes. -/
theorem grep_lines_any_reads (pattern : List Char) (lines : List (List Char)) (last : List Char)
    (shape : ∀ l ∈ lines, '\n' ∉ l ∧ '\x00' ∉ l ∧ l.length + 1 ≤ 1023) (lastFree : '\n' ∉ last)
    (sizes : List Nat) :
    grep pattern (Records.join '\n' lines ++ last) sizes =
      (lines.filter fun l => «match» pattern l).map (· ++ ['\n']) :=
  grepLoop_lines lastFree [] _ sizes lines
    (fun l inside => ⟨(shape l inside).1, (shape l inside).2.1, by have := (shape l inside).2.2; omega⟩)
    (by simp) rfl

/-- Two lines, one matching, and a last piece, read one byte and then two at a time. -/
theorem grep_lines_any_reads_bytewise :
    (∀ l ∈ [['a', 'b'], ['c']], '\n' ∉ l ∧ '\x00' ∉ l ∧ l.length + 1 ≤ 1023) ∧ '\n' ∉ ['a'] ∧
      grep ['a'] (Records.join '\n' [['a', 'b'], ['c']] ++ ['a']) [1, 2, 2] =
        ([['a', 'b'], ['c']].filter fun l => «match» ['a'] l).map (· ++ ['\n']) :=
  ⟨by decide, by decide, grep_lines_any_reads _ _ _ (by decide) (by decide) _⟩


end Xv6.Grep
