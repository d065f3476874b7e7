import Xv6.Printf
import Xv6.User.Grep

/-!
Contract: the routines of `user/ulib.c` that read C strings: `atoi`, `strcmp`
and `strlen`.

A C string is a list of characters whose end stands for the terminating NUL, as in
`Xv6.Grep`, whose `cstr` is the string a pointer points to. `atoi` computes in
`int`, which wraps at 32 bits.

`atoi` reads back what `printf("%d")` writes for every nonnegative `int`, and 0
for a negative one (`atoi_printf_d`); `strcmp` compares C strings
lexicographically as unsigned bytes (`strcmp_order`); `strlen` is the length of
the string (`strlen_eq`).

Owns: `isDigit`, `atoiLoop`, `atoi`, `uchar`, `strcmp`, `strlen`.
-/

namespace Xv6.Ulib

open Xv6.Printf

/-! ### `atoi` -/

/-- `'0' <= *s && *s <= '9'`. -/
def isDigit (c : Char) : Prop :=
  '0' ≤ c ∧ c ≤ '9'

instance (c : Char) : Decidable (isDigit c) :=
  inferInstanceAs (Decidable (_ ∧ _))

/-- The loop of `atoi`: `n = n*10 + *s++ - '0'` while `*s` is a digit. -/
def atoiLoop (n : BitVec 32) : List Char → BitVec 32
  | c :: s => if isDigit c then atoiLoop (n * 10 + BitVec.ofNat 32 c.toNat - 48) s else n
  | [] => n

/-- `atoi(s)`. -/
def atoi (s : List Char) : BitVec 32 :=
  atoiLoop 0 s

theorem isDigit_iff (c : Char) : isDigit c ↔ 48 ≤ c.toNat ∧ c.toNat ≤ 57 := by
  unfold isDigit
  rw [Char.le_def, Char.le_def, UInt32.le_iff_toNat_le, UInt32.le_iff_toNat_le]
  rfl

theorem atoiLoop_stop (n : BitVec 32) {s : List Char} (stops : ∀ c ∈ s.head?, ¬ isDigit c) :
    atoiLoop n s = n := by
  cases s with
  | nil => rfl
  | cons c s => simp [atoiLoop, stops c rfl]

/-- Over a run of digits the loop is Horner's rule, in 32-bit arithmetic. -/
theorem atoiLoop_digits (m : Nat) {ds : List Char} (digits : ∀ c ∈ ds, isDigit c) (rest : List Char) :
    atoiLoop (BitVec.ofNat 32 m) (ds ++ rest) =
      atoiLoop (BitVec.ofNat 32 (ds.foldl (fun v c => v * 10 + (c.toNat - 48)) m)) rest := by
  induction ds generalizing m with
  | nil => rfl
  | cons c ds ih =>
    have digit := digits c (List.mem_cons_self ..)
    have bounds := (isDigit_iff c).mp digit
    have horner : BitVec.ofNat 32 m * 10 + BitVec.ofNat 32 c.toNat - 48 =
        BitVec.ofNat 32 (m * 10 + (c.toNat - 48)) := by
      have ten : (10 : BitVec 32).toNat = 10 := rfl
      have fortyEight : (48 : BitVec 32).toNat = 48 := rfl
      apply BitVec.eq_of_toNat_eq
      simp only [BitVec.toNat_sub, BitVec.toNat_add, BitVec.toNat_mul, BitVec.toNat_ofNat, ten, fortyEight]
      omega
    rw [List.cons_append, atoiLoop, if_pos digit, horner, List.foldl_cons]
    exact ih _ fun c mem => digits c (List.mem_cons_of_mem _ mem)

/-- The decimal digits `printf` writes. -/
theorem toNat_digit {d : Nat} (small : d < 10) : (User.digits.getD d '0').toNat = 48 + d := by
  interval_cases d <;> rfl

theorem isDigit_numeral (x : Nat) : ∀ c ∈ numeral User.digits 10 x, isDigit c := by
  intro c mem
  simp only [numeral, List.mem_reverse, List.mem_map] at mem
  obtain ⟨d, mem, rfl⟩ := mem
  have small : d < 10 := by
    split at mem
    · simp at mem
      omega
    · exact Nat.digits_lt_base (by decide) mem
  rw [isDigit_iff, toNat_digit small]
  omega

/-- Read back most significant first, the digits of the numeral are its value. -/
theorem foldl_numeral (x : Nat) :
    (numeral User.digits 10 x).foldl (fun v c => v * 10 + (c.toNat - 48)) 0 = x := by
  have horner : ∀ ds : List Nat, (∀ d ∈ ds, d < 10) →
      ds.foldr (fun d v => v * 10 + ((User.digits.getD d '0').toNat - 48)) 0 = Nat.ofDigits 10 ds := by
    intro ds small
    induction ds with
    | nil => rfl
    | cons d ds ih =>
      rw [List.foldr_cons, ih fun d mem => small d (List.mem_cons_of_mem _ mem), Nat.ofDigits_cons,
        toNat_digit (small d (List.mem_cons_self ..))]
      omega
  rw [numeral, List.foldl_reverse, List.foldr_map]
  split
  · next zero =>
    subst zero
    rfl
  · rw [horner _ fun d mem => Nat.digits_lt_base (by decide) mem, Nat.ofDigits_digits]

/-- `atoi` reads back `printf("%d")`: a nonnegative `int` printed in decimal and
followed by anything but a digit reads as itself; a negative one, whose `-` stops
`atoi` at once, reads as 0. -/
theorem atoi_printf_d (v : BitVec 32) {rest : List Char} (stops : ∀ c ∈ rest.head?, ¬ isDigit c) :
    atoi (User.vprintf ['%', 'd'] [.ofInt v] ++ rest) = if 0 ≤ v.toInt then v else 0 := by
  rw [(User.vprintf_int v).1, signedNumeral]
  by_cases neg : v.toInt < 0
  · have minus : ¬ isDigit '-' := by decide
    simp [neg, atoi, atoiLoop, minus]
  · have zero : (0 : BitVec 32) = BitVec.ofNat 32 0 := rfl
    rw [if_neg neg, List.nil_append, if_pos (Int.not_lt.mp neg), atoi, zero,
      atoiLoop_digits 0 (isDigit_numeral _) rest, foldl_numeral, atoiLoop_stop _ stops,
      ← toNat_of_toInt_nonneg (Int.not_lt.mp neg), BitVec.ofNat_toNat, BitVec.setWidth_eq]

theorem atoi_printf_d_two_digits :
    (∀ c ∈ ['\n'].head?, ¬ isDigit c) ∧
      atoi (User.vprintf ['%', 'd'] [.ofInt 42] ++ ['\n']) = if 0 ≤ (42 : BitVec 32).toInt then 42 else 0 :=
  -- by cases on the one character: `decide` over `∀ c : Char` would enumerate them all
  have stops : ∀ c ∈ ['\n'].head?, ¬ isDigit c := fun c mem => by
    cases Option.mem_def.mp mem
    decide
  ⟨stops, atoi_printf_d 42 stops⟩

/-! ### `strcmp` and `strlen` -/

/-- `(uchar)c`. -/
def uchar (c : Char) : Int :=
  (c.toNat % 256 : Nat)

/-- `strcmp(p, q)`: it walks both strings while `*p` is not NUL and equals `*q`,
and returns `(uchar)*p - (uchar)*q`. -/
def strcmp : List Char → List Char → Int
  | c :: p, d :: q => if c ≠ '\x00' ∧ c = d then strcmp p q else uchar c - uchar d
  | p, q => uchar (p.headD '\x00') - uchar (q.headD '\x00')

/-- `strlen(s)`. -/
def strlen : List Char → Nat
  | c :: s => if c = '\x00' then 0 else strlen s + 1
  | [] => 0

theorem cstr_cons (c : Char) (s : List Char) :
    Grep.cstr (c :: s) = if c = '\x00' then [] else c :: Grep.cstr s := by
  unfold Grep.cstr
  by_cases nul : c = '\x00' <;> simp [nul]

theorem strlen_eq (s : List Char) : strlen s = (Grep.cstr s).length := by
  induction s with
  | nil => rfl
  | cons c s ih =>
    rw [strlen, cstr_cons]
    split <;> simp [ih]

/-- An ended string reads as its NUL: `strcmp` and `cstr` see the same. -/
theorem strcmp_pad (p q : List Char) :
    strcmp p q = strcmp (p.headD '\x00' :: p.tail) (q.headD '\x00' :: q.tail) := by
  cases p <;> cases q <;> simp [strcmp]

theorem cstr_pad (s : List Char) : Grep.cstr s = Grep.cstr (s.headD '\x00' :: s.tail) := by
  cases s with
  | nil => simp [Grep.cstr]
  | cons c s => rfl

theorem byte_head {c : Char} {s : List Char} (bytes : ∀ x ∈ Grep.cstr (c :: s), x.toNat < 256) :
    c.toNat < 256 := by
  by_cases nul : c = '\x00'
  · rw [nul]
    decide
  · exact bytes c (by simp [cstr_cons, nul])

theorem uchar_of_byte {c : Char} (byte : c.toNat < 256) : uchar c = c.toNat := by
  rw [uchar, Nat.mod_eq_of_lt byte]

/-- What a result of `strcmp p q` should tell: negative exactly when `p`'s string
comes first, zero exactly when the strings are equal. -/
def Compares (p q : List Char) (r : Int) : Prop :=
  (r < 0 ↔ Grep.cstr p < Grep.cstr q) ∧ (r = 0 ↔ Grep.cstr p = Grep.cstr q)

/-- Where `strcmp` stops, the two bytes it subtracts decide the order of the strings. -/
theorem strcmp_stop {c d : Char} {p q : List Char} (stop : ¬ (c ≠ '\x00' ∧ c = d))
    (byteC : c.toNat < 256) (byteD : d.toNat < 256) : Compares (c :: p) (d :: q) (strcmp (c :: p) (d :: q)) := by
  have nul : ('\x00' : Char).toNat = 0 := rfl
  have toNat_ne {a b : Char} (differ : a ≠ b) : a.toNat ≠ b.toNat := fun same => differ (Char.toNat_inj.mp same)
  unfold Compares
  rw [strcmp, if_neg stop, uchar_of_byte byteC, uchar_of_byte byteD, cstr_cons, cstr_cons]
  by_cases endC : c = '\x00' <;> by_cases endD : d = '\x00'
  · simp [endC, endD]
  · have := toNat_ne endD
    simp [endC, endD, nul, List.nil_lt_cons]
    omega
  · have := toNat_ne endC
    simp [endC, endD, nul, List.not_lt_nil]
    omega
  · -- two bytes of the strings, different since the loop stopped
    have differ : c ≠ d := fun same => stop ⟨endC, same⟩
    have := toNat_ne differ
    have ltIff : c < d ↔ c.toNat < d.toNat := by
      rw [Char.lt_def, UInt32.lt_iff_toNat_lt]
      rfl
    rw [if_neg endC, if_neg endD, List.cons_lt_cons_iff, ltIff]
    simp only [differ, false_and, or_false, List.cons.injEq]
    exact ⟨⟨fun neg => by omega, fun lt => by omega⟩, ⟨fun zero => by omega, False.elim⟩⟩

/-- A common byte that is not NUL: `strcmp` and the order both move on to the rest. -/
theorem strcmp_same {c d : Char} {p q : List Char} (same : c ≠ '\x00' ∧ c = d)
    (rest : Compares p q (strcmp p q)) : Compares (c :: p) (d :: q) (strcmp (c :: p) (d :: q)) := by
  unfold Compares at rest ⊢
  rw [strcmp, if_pos same, cstr_cons, cstr_cons, if_neg same.1, ← same.2, if_neg same.1,
    List.cons_lt_cons_iff, List.cons.injEq]
  simpa using rest

theorem compares_pad {p q : List Char}
    (padded : Compares (p.headD '\x00' :: p.tail) (q.headD '\x00' :: q.tail)
      (strcmp (p.headD '\x00' :: p.tail) (q.headD '\x00' :: q.tail))) :
    Compares p q (strcmp p q) := by
  unfold Compares at padded ⊢
  rwa [strcmp_pad, cstr_pad p, cstr_pad q]

/-- `strcmp` on two strings that have a first byte, by induction on the first. -/
theorem strcmp_compares_cons (p : List Char) : ∀ (c d : Char) (q : List Char),
    (∀ x ∈ Grep.cstr (c :: p) ++ Grep.cstr (d :: q), x.toNat < 256) →
      Compares (c :: p) (d :: q) (strcmp (c :: p) (d :: q)) := by
  induction p with
  | nil =>
    intro c d q bytes
    have byteD := byte_head fun x mem => bytes x (List.mem_append_right _ mem)
    by_cases same : c ≠ '\x00' ∧ c = d
    · -- `p` ends after `c`: its NUL against the next byte of `q`
      have byteQ : (q.headD '\x00').toNat < 256 := by
        apply byte_head (s := q.tail)
        intro x mem
        apply bytes x
        rw [← cstr_pad] at mem
        rw [cstr_cons, cstr_cons, if_neg same.1, ← same.2, if_neg same.1]
        simp [mem]
      exact strcmp_same same (compares_pad (strcmp_stop (by simp) (by decide) byteQ))
    · exact strcmp_stop same (byte_head fun x mem => bytes x (List.mem_append_left _ mem)) byteD
  | cons x p ih =>
    intro c d q bytes
    by_cases same : c ≠ '\x00' ∧ c = d
    · have rest : ∀ y ∈ Grep.cstr (x :: p) ++ Grep.cstr (q.headD '\x00' :: q.tail), y.toNat < 256 := by
        intro y mem
        apply bytes y
        rw [← cstr_pad] at mem
        rw [cstr_cons c, cstr_cons d, if_neg same.1, ← same.2, if_neg same.1]
        simp only [List.cons_append, List.mem_cons, List.mem_append] at mem ⊢
        tauto
      exact strcmp_same same (compares_pad (ih x _ q.tail rest))
    · exact strcmp_stop same (byte_head fun y mem => bytes y (List.mem_append_left _ mem))
        (byte_head fun y mem => bytes y (List.mem_append_right _ mem))

/-- `strcmp` compares the strings as unsigned bytes, lexicographically: for strings
of bytes it is negative exactly when `p`'s string comes first, and zero exactly
when the strings are equal. -/
theorem strcmp_order (p q : List Char) (bytes : ∀ c ∈ Grep.cstr p ++ Grep.cstr q, c.toNat < 256) :
    (strcmp p q < 0 ↔ Grep.cstr p < Grep.cstr q) ∧ (strcmp p q = 0 ↔ Grep.cstr p = Grep.cstr q) := by
  apply compares_pad
  apply strcmp_compares_cons
  rwa [← cstr_pad, ← cstr_pad]

theorem strcmp_order_dot :
    (∀ c ∈ Grep.cstr ['.', '\x00'] ++ Grep.cstr ['.', '.', '\x00'], c.toNat < 256) ∧
      ((strcmp ['.', '\x00'] ['.', '.', '\x00'] < 0 ↔ Grep.cstr ['.', '\x00'] < Grep.cstr ['.', '.', '\x00']) ∧
        (strcmp ['.', '\x00'] ['.', '.', '\x00'] = 0 ↔ Grep.cstr ['.', '\x00'] = Grep.cstr ['.', '.', '\x00'])) :=
  ⟨by simp [Grep.cstr], strcmp_order _ _ (by simp [Grep.cstr])⟩

end Xv6.Ulib
