import Mathlib.Data.BitVec
import Xv6.User.Grep

/-!
Contract: `wc(fd, name)` of `user/wc.c`: the counts of lines, words and bytes it
keeps while it reads its input.

`wc` reads into `buf[512]` until `read` returns 0 or less. The input is the list
of what each `read` that returned more than 0 put in `buf`, with whether the
`read` that ended the loop failed. The counters are 32-bit `int`s, incremented
as the machine adds, modulo 2^32, and printed by `%d` as signed values. A
character is white space when `strchr(" \r\t\n\v", c)` finds it, which it does
not for NUL.

Each counter holds its true count modulo 2^32, however the input arrives
(`countBuf_eq`). For an input of fewer than 2^31 bytes the counts `wc` prints
are the newlines, the words (the nonempty pieces between white space) and the
bytes of the whole input (`wc_counts`); at 2^31 bytes the byte count prints as
-2^31 (`wc_bytes_wrap`).

Owns: `Counts`, `isSpace`, `count`, `countBuf`, `wc`, `words`.
-/

namespace Xv6.Wc

/-- `l`, `w`, `c` and `inword`. -/
structure Counts where
  l : BitVec 32
  w : BitVec 32
  c : BitVec 32
  inword : Bool
  deriving DecidableEq, Repr

/-- `strchr(" \r\t\n\v", c)` finds `c`. -/
def isSpace (ch : Char) : Bool :=
  (Grep.strchr [' ', '\r', '\t', '\n', '\x0b'] ch).isSome

/-- One turn of the inner loop, on `buf[i]`. -/
def count (st : Counts) (ch : Char) : Counts :=
  let l := if ch = '\n' then st.l + 1 else st.l
  if isSpace ch then { st with l, c := st.c + 1, inword := false }
  else if !st.inword then { st with l, w := st.w + 1, c := st.c + 1, inword := true }
  else { st with l, c := st.c + 1 }

@[simp]
theorem count_l (st : Counts) (ch : Char) : (count st ch).l = st.l + if ch = '\n' then 1 else 0 := by
  unfold count
  split_ifs <;> simp

@[simp]
theorem count_c (st : Counts) (ch : Char) : (count st ch).c = st.c + 1 := by
  unfold count
  split_ifs <;> rfl

@[simp]
theorem count_w (st : Counts) (ch : Char) :
    (count st ch).w = st.w + if !isSpace ch && !st.inword then 1 else 0 := by
  unfold count
  split_ifs <;> simp_all

@[simp]
theorem count_inword (st : Counts) (ch : Char) : (count st ch).inword = !isSpace ch := by
  unfold count
  split_ifs <;> simp_all

/-- The inner loop over the `n` bytes one `read` returned. -/
def countBuf (st : Counts) (buf : List Char) : Counts :=
  buf.foldl count st

/-- `wc(fd, name)`: the counts it prints with `%d`, or `none` where it prints
`"wc: read error"` and exits. -/
def wc (reads : List (List Char)) (failed : Bool) : Option (Int × Int × Int) :=
  let st := reads.foldl countBuf ⟨0, 0, 0, false⟩
  if failed then none else some (st.l.toInt, st.w.toInt, st.c.toInt)

/-- The words of a text: the nonempty pieces between its white-space characters. -/
def words (text : List Char) : List (List Char) :=
  (text.splitOnP isSpace).filter (· ≠ [])

/-- Whether a text starts with a character of a word. -/
def leadsWord : List Char → Bool
  | [] => false
  | ch :: _ => !isSpace ch

/-- A character adds a word to a text exactly where it ends one: where it is not
white space and the text does not start with a word. -/
theorem length_words_cons (x : Char) (xs : List Char) :
    (words (x :: xs)).length = (words xs).length + if !isSpace x && !leadsWord xs then 1 else 0 := by
  unfold words
  rw [List.splitOnP_cons_eq_if_modifyHead]
  cases space : isSpace x
  · obtain ⟨first, rest, split⟩ := List.exists_cons_of_ne_nil (List.splitOnP_ne_nil isSpace xs)
    -- the first piece of `xs` is empty exactly when `xs` does not start with a word
    have first_nil : first = [] ↔ leadsWord xs = false := by
      cases xs with
      | nil =>
        simp only [List.splitOnP_nil, List.cons.injEq] at split
        simp [← split.1, leadsWord]
      | cons y ys =>
        rw [List.splitOnP_cons_eq_if_modifyHead] at split
        cases spaceY : isSpace y
        · simp only [spaceY, Bool.false_eq_true, if_false] at split
          obtain ⟨first', rest', split'⟩ := List.exists_cons_of_ne_nil (List.splitOnP_ne_nil isSpace ys)
          rw [split', List.modifyHead_cons, List.cons.injEq] at split
          simp [← split.1, leadsWord, spaceY]
        · simp only [spaceY, if_true, List.cons.injEq] at split
          simp [← split.1, leadsWord, spaceY]
    rw [split]
    by_cases empty : first = []
    · simp [empty, first_nil.mp empty]
    · have leads : leadsWord xs = true := by simpa [first_nil] using empty
      simp [empty, leads]
  · simp

/-- Each word is a piece of the text, so there are at most as many as characters. -/
theorem length_words_le (text : List Char) : (words text).length ≤ text.length := by
  induction text with
  | nil => simp [words]
  | cons x xs ih =>
    rw [length_words_cons, List.length_cons]
    split <;> omega

/-- **Loop lemma.** The inner loop counts a text's bytes and newlines, and its
words but the first, when that one continues a word counted before, each modulo
2^32. -/
theorem countBuf_eq (st : Counts) (text : List Char) :
    (countBuf st text).l = st.l + (text.count '\n' : BitVec 32) ∧
      (countBuf st text).c = st.c + (text.length : BitVec 32) ∧
      (countBuf st text).w + (if st.inword && leadsWord text then 1 else 0) =
        st.w + ((words text).length : BitVec 32) := by
  induction text generalizing st with
  | nil => simp [countBuf, words, leadsWord]
  | cons x xs ih =>
    obtain ⟨lines, bytes, counted⟩ := ih (count st x)
    simp only [countBuf, List.foldl_cons] at lines bytes counted ⊢
    rw [length_words_cons, List.count_cons, List.length_cons, leadsWord]
    refine ⟨?_, ?_, ?_⟩
    · rw [lines, count_l]
      by_cases newline : x = '\n'
      · simp only [newline, if_true, beq_self_eq_true]
        push_cast
        ring
      · simp [newline]
    · rw [bytes, count_c]
      push_cast
      ring
    · -- the character starts a word where the loop was not in one, and ends one
      -- where the rest does not start with a word
      rw [count_w, count_inword] at counted
      cases space : isSpace x <;> cases inword : st.inword <;> cases leads : leadsWord xs <;>
        simp [space, inword, leads] at counted ⊢ <;> linear_combination counted

/-- A count below 2^31 prints as itself. -/
theorem toInt_natCast_of_lt {n : Nat} (small : n < 2 ^ 31) : ((n : BitVec 32)).toInt = n := by
  have fits : n % 2 ^ 32 = n := Nat.mod_eq_of_lt (by omega)
  rw [BitVec.toInt_eq_toNat_cond, BitVec.natCast_eq_ofNat, BitVec.toNat_ofNat, fits, if_pos (by omega)]

/-- The counters of `wc` from its start: each true count modulo 2^32. -/
theorem foldl_countBuf (reads : List (List Char)) :
    (reads.foldl countBuf ⟨0, 0, 0, false⟩).l = (reads.flatten.count '\n' : BitVec 32) ∧
      (reads.foldl countBuf ⟨0, 0, 0, false⟩).w = ((words reads.flatten).length : BitVec 32) ∧
      (reads.foldl countBuf ⟨0, 0, 0, false⟩).c = (reads.flatten.length : BitVec 32) := by
  have whole : reads.foldl countBuf ⟨0, 0, 0, false⟩ = countBuf ⟨0, 0, 0, false⟩ reads.flatten := by
    rw [countBuf, List.foldl_flatten]
    rfl
  obtain ⟨lines, bytes, counted⟩ := countBuf_eq ⟨0, 0, 0, false⟩ reads.flatten
  simp only [Bool.false_and, Bool.false_eq_true, if_false, add_zero, zero_add] at lines bytes counted
  rw [whole]
  exact ⟨lines, counted, bytes⟩

/-- `wc` counts the same however its input arrives: for every split of an input of
fewer than 2^31 bytes into `read`s, it prints the newlines, the words and the bytes
of the whole input, unless the last `read` failed. -/
theorem wc_counts (reads : List (List Char)) (failed : Bool) (small : reads.flatten.length < 2 ^ 31) :
    wc reads failed =
      if failed then none
      else some ((reads.flatten.count '\n' : Int), ((words reads.flatten).length : Int),
        (reads.flatten.length : Int)) := by
  obtain ⟨lines, counted, bytes⟩ := foldl_countBuf reads
  have fewLines : reads.flatten.count '\n' < 2 ^ 31 := lt_of_le_of_lt (List.count_le_length) small
  have fewWords : (words reads.flatten).length < 2 ^ 31 := lt_of_le_of_lt (length_words_le _) small
  simp only [wc, lines, counted, bytes, toInt_natCast_of_lt fewLines, toInt_natCast_of_lt fewWords,
    toInt_natCast_of_lt small]

theorem wc_counts_two_reads :
    [['h', 'i', ' '], ['t', 'h', 'e', 'r', 'e', '\n']].flatten.length < 2 ^ 31 ∧
      wc [['h', 'i', ' '], ['t', 'h', 'e', 'r', 'e', '\n']] false =
        if false then none
        else some (([['h', 'i', ' '], ['t', 'h', 'e', 'r', 'e', '\n']].flatten.count '\n' : Int),
          ((words [['h', 'i', ' '], ['t', 'h', 'e', 'r', 'e', '\n']].flatten).length : Int),
          ([['h', 'i', ' '], ['t', 'h', 'e', 'r', 'e', '\n']].flatten.length : Int)) :=
  ⟨by decide, wc_counts _ _ (by decide)⟩

/-- At 2^31 bytes the `int` byte count has wrapped: `wc` prints it as -2^31. -/
theorem wc_bytes_wrap (reads : List (List Char)) (exact : reads.flatten.length = 2 ^ 31) :
    (wc reads false).map (·.2.2) = some (-2 ^ 31) := by
  obtain ⟨-, -, bytes⟩ := foldl_countBuf reads
  simp only [wc, bytes, exact, Bool.false_eq_true, if_false, Option.map_some]
  decide

end Xv6.Wc
