import Mathlib.Data.Nat.Digits.Lemmas

/-!
Contract: the integer conversions of the kernel's `printf` (kernel/printf.c) and of
user space's `vprintf` (user/printf.c).

Both files carry their own `printint`: the same do-while loop that fills `buf[16]`
with the digits of the magnitude, least significant first, adds a `-` last, and
then prints `buf` backwards. They differ in the width of the value (`long long`
against `int`) and in the case of the hex digits. That loop is `intBuf`, with the
width a parameter; each file's `printint` is `printintWith` at its own digits and
width. The format loops are each file's own, sharing the chain of tests after a `%`
(`conv`) and what a conversion prints (`Conv.emit`).

A variadic argument is its 64-bit slot: an `int` is passed sign-extended,
`va_arg(ap, int)` reads the low 32 bits back, and `va_arg(ap, uint64)` reads the
whole slot. `printint` then gets the value converted to its parameter's width,
sign-extended from `int` and truncated from `uint64`.

The specification is `numeral`, the digits of `Nat.digits` most significant first.
`printintWith_signed` and `printintWith_unsigned` say what `printint` prints, and
`intBuf_length` how many bytes of `buf` it writes.
-/

namespace Xv6.Printf

/-! ### `printint` and `printptr` -/

/-- `printint`'s do-while loop: `buf[i++] = digits[x % base]` until `x /= base` reaches 0.
The fuel only bounds the recursion; `intBuf` gives it `x + 1` turns. -/
def digitLoop (digits : List Char) (base : Nat) : Nat → Nat → List Char
  | 0, _ => []
  | fuel + 1, x =>
    digits.getD (x % base) '0' :: if x / base = 0 then [] else digitLoop digits base fuel (x / base)

/-- `printint`'s `buf` when it starts printing: the digits of the magnitude, least
significant first, then `-` for a negative value printed as signed. `xx` has the width
of `printint`'s parameter; `x = -xx` negates it at that width. -/
def intBuf (digits : List Char) {w : Nat} (xx : BitVec w) (base : Nat) (sign : Bool) :
    List Char :=
  let neg := sign && xx.slt 0
  let x := (if neg then -xx else xx).toNat
  digitLoop digits base (x + 1) x ++ if neg then ['-'] else []

/-- `printint`: `while(--i >= 0)` puts `buf[i]`, so `buf` is printed backwards. -/
def printintWith (digits : List Char) {w : Nat} (xx : BitVec w) (base : Nat) (sign : Bool) :
    List Char :=
  (intBuf digits xx base sign).reverse

/-- `printptr`'s loop: the top four bits of `x` as a digit, sixteen times, with `x <<= 4`. -/
def printptrLoop (digits : List Char) : Nat → BitVec 64 → List Char
  | 0, _ => []
  | n + 1, x => digits.getD (x >>> 60).toNat '0' :: printptrLoop digits n (x <<< 4)

/-- `printptr`: `0x` and the sixteen hex digits of `x`. -/
def printptrWith (digits : List Char) (x : BitVec 64) : List Char :=
  ['0', 'x'] ++ printptrLoop digits 16 x

/-! ### Arguments and conversions -/

/-- A variadic argument as `va_arg` finds it: a 64-bit slot, or a string pointer,
`none` for a null one, held as the characters before its NUL. -/
inductive Arg where
  | word (w : BitVec 64)
  | str (s : Option (List Char))

/-- `va_arg(ap, uint64)`. -/
def Arg.uint64 : Arg → BitVec 64
  | .word w => w
  | .str _ => 0

/-- `va_arg(ap, int)`: the low 32 bits of the slot. -/
def Arg.int (a : Arg) : BitVec 32 :=
  a.uint64.setWidth 32

/-- `va_arg(ap, char*)`, with a null pointer read as `"(null)"`. -/
def Arg.chars : Arg → List Char
  | .str (some s) => s
  | _ => ['(', 'n', 'u', 'l', 'l', ')']

/-- An `int` argument as a caller passes it: sign-extended into its slot. -/
def Arg.ofInt (v : BitVec 32) : Arg :=
  .word (v.signExtend 64)

/-- `va_arg(ap, int)` reads back the `int` the caller passed. -/
@[simp] theorem Arg.int_ofInt (v : BitVec 32) : (Arg.ofInt v).int = v := by
  ext i below
  simp [Arg.ofInt, Arg.int, Arg.uint64, BitVec.getLsbD_signExtend, below]
  omega

/-- What the chain of tests after a `%` makes of `c0`, `c1`, `c2`. -/
inductive Conv where
  /-- `%d`, `%u`, `%x`: `va_arg(ap, int)`. -/
  | int (base : Nat) (sign : Bool)
  /-- The `l` and `ll` forms: `va_arg(ap, uint64)`. -/
  | long (base : Nat) (sign : Bool)
  | ptr
  | str
  | percent
  /-- `c0 == 0`: the kernel's `break`. -/
  | stop
  | unknown (c0 : Char)
deriving DecidableEq

/-- `fmt[i]` of a format held as its characters: 0 past the end. -/
def charAt (fmt : List Char) (i : Nat) : Char :=
  fmt.getD i '\x00'

/-- `c0`, `c1`, `c2` as both loops read them from the characters after a `%`: `c1` only
when `c0` is not 0, and `c2` only when `c1` is not 0. -/
def lookahead (rest : List Char) : Char × Char × Char :=
  let c0 := charAt rest 0
  let c1 := if c0 = '\x00' then '\x00' else charAt rest 1
  let c2 := if c1 = '\x00' then '\x00' else charAt rest 2
  (c0, c1, c2)

/-- The chain of tests on `c0`, `c1`, `c2`, with the characters the conversion
takes after the `%` (`c0` and what `i += 1` or `i += 2` skips). -/
def conv : Char × Char × Char → Conv × Nat
  | (c0, c1, c2) =>
    if c0 = 'd' then (.int 10 true, 1)
    else if c0 = 'l' ∧ c1 = 'd' then (.long 10 true, 2)
    else if c0 = 'l' ∧ c1 = 'l' ∧ c2 = 'd' then (.long 10 true, 3)
    else if c0 = 'u' then (.int 10 false, 1)
    else if c0 = 'l' ∧ c1 = 'u' then (.long 10 false, 2)
    else if c0 = 'l' ∧ c1 = 'l' ∧ c2 = 'u' then (.long 10 false, 3)
    else if c0 = 'x' then (.int 16 false, 1)
    else if c0 = 'l' ∧ c1 = 'x' then (.long 16 false, 2)
    else if c0 = 'l' ∧ c1 = 'l' ∧ c2 = 'x' then (.long 16 false, 3)
    else if c0 = 'p' then (.ptr, 1)
    else if c0 = 's' then (.str, 1)
    else if c0 = '%' then (.percent, 1)
    else if c0 = '\x00' then (.stop, 0)
    else (.unknown c0, 1)

/-- Whether the conversion calls `va_arg`. -/
def Conv.takesArg : Conv → Bool
  | .int .. | .long .. | .ptr | .str => true
  | _ => false

/-- What a conversion prints, given the `printint` and `printptr` of the file at hand
and the argument `va_arg` would read. The value reaches `printint`'s parameter
sign-extended from `int` and truncated from `uint64`. -/
def Conv.emit {w : Nat} (printint : BitVec w → Nat → Bool → List Char)
    (printptr : BitVec 64 → List Char) (a : Arg) : Conv → List Char
  | .int base sign => printint (a.int.signExtend w) base sign
  | .long base sign => printint (a.uint64.setWidth w) base sign
  | .ptr => printptr a.uint64
  | .str => a.chars
  | .percent => ['%']
  | .stop => []
  | .unknown c0 => ['%', c0]

/-! ### The specification -/

/-- `x` in `base`, most significant digit first, with zero written as one digit. -/
def numeral (digits : List Char) (base x : Nat) : List Char :=
  ((if x = 0 then [0] else Nat.digits base x).map fun d => digits.getD d '0').reverse

/-- `v` in `base`, with a leading `-` when it is negative. -/
def signedNumeral (digits : List Char) (base : Nat) (v : Int) : List Char :=
  (if v < 0 then ['-'] else []) ++ numeral digits base v.natAbs

/-! ### The digit loop meets the specification -/

section Digits

variable (digits : List Char) {base : Nat} (wide : 1 < base)

/-- The numeral has one digit for zero and one per `Nat.digits` otherwise. -/
theorem numeral_length (x : Nat) :
    (numeral digits base x).length = if x = 0 then 1 else (Nat.digits base x).length := by
  by_cases zero : x = 0 <;> simp [numeral, zero]

include wide

/-- The digit loop writes the numeral backwards, given a turn for each digit. -/
theorem digitLoop_eq : ∀ fuel x, 0 < fuel → (Nat.digits base x).length ≤ fuel →
    digitLoop digits base fuel x = (numeral digits base x).reverse
  | 0, _, pos, _ => absurd pos (Nat.lt_irrefl 0)
  | fuel + 1, x, _, enough => by
    by_cases zero : x = 0
    · subst zero
      simp [digitLoop, numeral]
    -- a nonzero `x` is its last digit in front of the digits of `x / base`
    have split : Nat.digits base x = x % base :: Nat.digits base (x / base) :=
      Nat.digits_def' wide (Nat.pos_of_ne_zero zero)
    rw [split, List.length_cons] at enough
    simp only [digitLoop, numeral, zero, if_false, split, List.map_cons, List.reverse_reverse]
    by_cases last : x / base = 0
    · simp [last]
    have more : 0 < (Nat.digits base (x / base)).length := by
      rw [Nat.digits_def' wide (Nat.pos_of_ne_zero last)]
      exact Nat.succ_pos _
    rw [if_neg last, digitLoop_eq fuel (x / base) (by omega) (by omega)]
    simp [numeral, last]

/-- A number below `base ^ n` has at most `n` digits. -/
theorem numeral_length_le {x n : Nat} (small : x < base ^ n) (pos : 0 < n) :
    (numeral digits base x).length ≤ n := by
  rw [numeral_length]
  split
  · exact pos
  · exact (Nat.digits_length_le_iff wide x).2 small

/-- A number of at least `base ^ n` has more than `n` digits. -/
theorem lt_numeral_length {x n : Nat} (big : base ^ n ≤ x) :
    n < (numeral digits base x).length := by
  have nonzero : x ≠ 0 := Nat.pos_iff_ne_zero.1 (lt_of_lt_of_le (Nat.pow_pos (by omega)) big)
  rw [numeral_length, if_neg nonzero]
  exact (Nat.lt_digits_length_iff wide x).2 big

/-- `x + 1` turns are enough for the digits of `x`. -/
theorem digitLoop_self (x : Nat) :
    digitLoop digits base (x + 1) x = (numeral digits base x).reverse := by
  have fits : (Nat.digits base x).length ≤ x :=
    (Nat.digits_length_le_iff wide x).2 (Nat.lt_pow_self wide)
  exact digitLoop_eq digits wide (x + 1) x (Nat.succ_pos x) (by omega)


end Digits

/-! ### What `printint` prints -/

section Magnitude

variable {w : Nat}

/-- Negating a negative value at its width gives its magnitude, also for the most
negative one, whose negation wraps back to itself. -/
theorem toNat_neg_of_toInt_neg {xx : BitVec w} (neg : xx.toInt < 0) :
    (-xx).toNat = xx.toInt.natAbs := by
  have below := xx.isLt
  rw [BitVec.toInt_eq_toNat_cond] at neg ⊢
  rw [BitVec.toNat_neg]
  split at neg
  · omega
  · rename_i high
    have big : 2 ^ w - xx.toNat < 2 ^ w := by omega
    rw [Nat.mod_eq_of_lt big]
    omega

/-- A nonnegative value is its own magnitude. -/
theorem toNat_of_toInt_nonneg {xx : BitVec w} (nonneg : 0 ≤ xx.toInt) :
    xx.toNat = xx.toInt.natAbs := by
  rw [BitVec.toInt_eq_toNat_cond] at nonneg ⊢
  split at nonneg
  · omega
  · omega

end Magnitude

section Printint

variable (digits : List Char) {base : Nat} (wide : 1 < base) {w : Nat}
include wide

/-- `buf` holds the numeral of the magnitude backwards, then the sign. -/
theorem intBuf_eq (xx : BitVec w) (sign : Bool) :
    intBuf digits xx base sign =
      (numeral digits base (if sign && xx.slt 0 then -xx else xx).toNat).reverse ++
        if sign && xx.slt 0 then ['-'] else [] := by
  simp only [intBuf, digitLoop_self digits wide]

/-- The number of bytes `printint` writes into `buf`: a digit each, and one for the sign. -/
theorem intBuf_length (xx : BitVec w) (sign : Bool) :
    (intBuf digits xx base sign).length =
      (numeral digits base (if sign && xx.slt 0 then -xx else xx).toNat).length +
        if sign && xx.slt 0 then 1 else 0 := by
  rw [intBuf_eq digits wide]
  split <;> simp

/-- Printed as signed, a value comes out as its signed numeral. -/
theorem printintWith_signed (xx : BitVec w) :
    printintWith digits xx base true = signedNumeral digits base xx.toInt := by
  rw [printintWith, intBuf_eq digits wide, List.reverse_append, List.reverse_reverse]
  by_cases neg : xx.toInt < 0
  · have slt : xx.slt 0#w = true := by simp [BitVec.slt_eq_decide, neg]
    simp [slt, signedNumeral, neg, toNat_neg_of_toInt_neg neg]
  · have slt : xx.slt 0#w = false := by simp [BitVec.slt_eq_decide, neg]
    simp [slt, signedNumeral, neg, toNat_of_toInt_nonneg (Int.not_lt.1 neg)]

/-- Printed as unsigned, a value comes out as the numeral of its bits. -/
theorem printintWith_unsigned (xx : BitVec w) :
    printintWith digits xx base false = numeral digits base xx.toNat := by
  simp [printintWith, intBuf_eq digits wide]

end Printint

/-! ### Kernel `printf` -/

namespace Kernel

/-- `digits[]`: lower-case hex. -/
def digits : List Char :=
  ['0', '1', '2', '3', '4', '5', '6', '7', '8', '9', 'a', 'b', 'c', 'd', 'e', 'f']

/-- `printint(long long xx, int base, int sign)`. -/
def printint (xx : BitVec 64) (base : Nat) (sign : Bool) : List Char :=
  printintWith digits xx base sign

/-- `printptr(uint64 x)`. -/
def printptr (x : BitVec 64) : List Char :=
  printptrWith digits x

/-- `printf`'s loop over `fmt`: a character other than `%` is printed; after a `%` the
chain of tests reads `c0`, `c1`, `c2`, the conversion prints and `i` moves past what it
read; `c0 == 0` breaks. The fuel bounds the turns; `printf` gives one per character. -/
def printfLoop : Nat → List Char → List Arg → List Char
  | 0, _, _ => []
  | _ + 1, [], _ => []
  | fuel + 1, cx :: rest, args =>
    if cx = '\x00' then []
    else if cx ≠ '%' then cx :: printfLoop fuel rest args
    else
      let (k, n) := conv (lookahead rest)
      if k = .stop then []
      else
        k.emit printint printptr (args.headD (.word 0)) ++
          printfLoop fuel (rest.drop n) (if k.takesArg then args.tail else args)

/-- `printf(fmt, ...)`: the characters it hands to `consputc`. -/
def printf (fmt : List Char) (args : List Arg) : List Char :=
  printfLoop fmt.length fmt args

theorem printfLoop_nil (fuel : Nat) (args : List Arg) : printfLoop fuel [] args = [] := by
  cases fuel <;> rfl

/-- A format made of a `%` and one conversion that the chain of tests reads whole
prints what that conversion prints. -/
theorem printf_one {spec : List Char} {k : Conv} (read : conv (lookahead spec) = (k, spec.length))
    (go : k ≠ .stop) (a : Arg) :
    printf ('%' :: spec) [a] = k.emit printint printptr a := by
  simp [printf, printfLoop, read, go, printfLoop_nil]

/-- The `l` and `ll` forms hand the whole slot to `printint`. -/
theorem printf_long_one (spec : List Char) (base : Nat) (sign : Bool)
    (read : conv (lookahead spec) = (.long base sign, spec.length)) (u : BitVec 64) :
    printf ('%' :: spec) [.word u] = printintWith digits u base sign := by
  rw [printf_one read (by simp)]
  simp [Conv.emit, printint, Arg.uint64]

/-- `%d` of an `int` prints its signed decimal. -/
theorem printf_d (v : BitVec 32) :
    printf ['%', 'd'] [.ofInt v] = signedNumeral digits 10 v.toInt := by
  rw [printf_one (k := .int 10 true) (by decide) (by simp)]
  simp only [Conv.emit, printint, Arg.int_ofInt, printintWith_signed digits (by decide : 1 < 10)]
  rw [BitVec.toInt_signExtend_of_le (by decide)]

/-- `%u` and `%x` of an `int` print the 64-bit value its sign extension makes of it. -/
theorem printf_u_x (v : BitVec 32) :
    printf ['%', 'u'] [.ofInt v] = numeral digits 10 (v.signExtend 64).toNat ∧
      printf ['%', 'x'] [.ofInt v] = numeral digits 16 (v.signExtend 64).toNat := by
  constructor
  · rw [printf_one (k := .int 10 false) (by decide) (by simp)]
    simp [Conv.emit, printint, printintWith_unsigned digits (by decide : 1 < 10)]
  · rw [printf_one (k := .int 16 false) (by decide) (by simp)]
    simp [Conv.emit, printint, printintWith_unsigned digits (by decide : 1 < 16)]

/-- The `l` and `ll` conversions print the full 64-bit argument: signed decimal,
unsigned decimal and hex. -/
theorem printf_long (u : BitVec 64) :
    printf ['%', 'l', 'd'] [.word u] = signedNumeral digits 10 u.toInt ∧
      printf ['%', 'l', 'l', 'd'] [.word u] = signedNumeral digits 10 u.toInt ∧
      printf ['%', 'l', 'u'] [.word u] = numeral digits 10 u.toNat ∧
      printf ['%', 'l', 'l', 'u'] [.word u] = numeral digits 10 u.toNat ∧
      printf ['%', 'l', 'x'] [.word u] = numeral digits 16 u.toNat ∧
      printf ['%', 'l', 'l', 'x'] [.word u] = numeral digits 16 u.toNat := by
  have decimal : 1 < 10 := by decide
  have hex : 1 < 16 := by decide
  refine ⟨?_, ?_, ?_, ?_, ?_, ?_⟩
  · rw [printf_long_one ['l', 'd'] 10 true (by decide), printintWith_signed digits decimal]
  · rw [printf_long_one ['l', 'l', 'd'] 10 true (by decide), printintWith_signed digits decimal]
  · rw [printf_long_one ['l', 'u'] 10 false (by decide), printintWith_unsigned digits decimal]
  · rw [printf_long_one ['l', 'l', 'u'] 10 false (by decide), printintWith_unsigned digits decimal]
  · rw [printf_long_one ['l', 'x'] 16 false (by decide), printintWith_unsigned digits hex]
  · rw [printf_long_one ['l', 'l', 'x'] 16 false (by decide), printintWith_unsigned digits hex]

/-- `%u` of a negative `int` has `printint` write at least 19 digits into its 16-byte
`buf`, where the 32-bit value has at most 10. -/
theorem printf_u_of_neg (v : BitVec 32) (neg : v.toInt < 0) :
    (numeral digits 10 v.toNat).length ≤ 10 ∧
      19 ≤ (intBuf digits ((Arg.ofInt v).int.signExtend 64) 10 false).length := by
  have decimal : 1 < 10 := by decide
  -- sign extension puts a negative value in the top half of the 64-bit range
  have top : 10 ^ 18 ≤ (v.signExtend 64).toNat := by
    have same := BitVec.toInt_signExtend_of_le (x := v) (v := 64) (by decide)
    have least := BitVec.le_toInt v
    rw [BitVec.toInt_eq_toNat_cond (v.signExtend 64)] at same
    norm_num at least
    split at same <;> omega
  constructor
  · exact numeral_length_le digits decimal (by have := v.isLt; omega) (by decide)
  · rw [Arg.int_ofInt, intBuf_length digits decimal]
    have long := lt_numeral_length digits decimal top
    simp only [Bool.false_and, Bool.false_eq_true, if_false, Nat.add_zero]
    omega

theorem printf_u_minus_one :
    printf ['%', 'u'] [.ofInt (-1)] =
        ['1', '8', '4', '4', '6', '7', '4', '4', '0', '7', '3', '7', '0', '9', '5', '5', '1', '6',
          '1', '5'] ∧
      (intBuf digits ((Arg.ofInt (-1)).int.signExtend 64) 10 false).length = 20 := by
  decide

end Kernel

/-! ### User `vprintf` -/

namespace User

/-- `digits[]`: upper-case hex. -/
def digits : List Char :=
  ['0', '1', '2', '3', '4', '5', '6', '7', '8', '9', 'A', 'B', 'C', 'D', 'E', 'F']

/-- `printint(int fd, int xx, int base, int sgn)`. -/
def printint (xx : BitVec 32) (base : Nat) (sgn : Bool) : List Char :=
  printintWith digits xx base sgn

/-- `printptr(int fd, uint64 x)`. -/
def printptr (x : BitVec 64) : List Char :=
  printptrWith digits x

/-- `vprintf`'s loop: `state` is `state == '%'`. In state 0 a `%` moves to state `%`
and any other character is printed; in state `%` the character is `c0` of the chain of
tests, the conversion prints, `i` moves past what it read and the state returns to 0. -/
def vprintfLoop : Nat → Bool → List Char → List Arg → List Char
  | 0, _, _, _ => []
  | _ + 1, _, [], _ => []
  | fuel + 1, state, c0 :: rest, args =>
    if c0 = '\x00' then []
    else if !state then
      if c0 = '%' then vprintfLoop fuel true rest args
      else c0 :: vprintfLoop fuel false rest args
    else
      -- `c1` and `c2` follow `c0`: the lookahead of the format from `c0` on
      let (k, n) := conv (lookahead (c0 :: rest))
      k.emit printint printptr (args.headD (.word 0)) ++
        vprintfLoop fuel false (rest.drop (n - 1)) (if k.takesArg then args.tail else args)

/-- `vprintf(fd, fmt, ap)`: the characters it writes to `fd`. -/
def vprintf (fmt : List Char) (args : List Arg) : List Char :=
  vprintfLoop fmt.length false fmt args

theorem vprintfLoop_nil (fuel : Nat) (state : Bool) (args : List Arg) :
    vprintfLoop fuel state [] args = [] := by
  cases fuel <;> rfl

/-- A format made of a `%` and one conversion that the chain of tests reads whole
prints what that conversion prints. -/
theorem vprintf_one {spec : List Char} {k : Conv} (read : conv (lookahead spec) = (k, spec.length))
    (go : k ≠ .stop) (a : Arg) :
    vprintf ('%' :: spec) [a] = k.emit printint printptr a := by
  -- a format that ends after the `%`, or has a NUL there, reads as `c0 == 0`
  cases spec with
  | nil =>
    have stops : conv (lookahead []) = (.stop, 0) := rfl
    rw [stops, Prod.mk.injEq] at read
    exact absurd read.1.symm go
  | cons c0 rest =>
    have named : c0 ≠ '\x00' := by
      rintro rfl
      have stops : conv (lookahead ('\x00' :: rest)) = (.stop, 0) := rfl
      rw [stops, Prod.mk.injEq] at read
      exact go read.1.symm
    simp [vprintf, vprintfLoop, named, read, vprintfLoop_nil]

/-- The `l` and `ll` forms hand `printint` the low 32 bits of the slot. -/
theorem vprintf_long_one (spec : List Char) (base : Nat) (sign : Bool)
    (read : conv (lookahead spec) = (.long base sign, spec.length)) (u : BitVec 64) :
    vprintf ('%' :: spec) [.word u] = printintWith digits (u.setWidth 32) base sign := by
  rw [vprintf_one read (by simp)]
  simp [Conv.emit, printint, Arg.uint64]

/-- `%d`, `%u` and `%x` of an `int` print its signed decimal, unsigned decimal and hex. -/
theorem vprintf_int (v : BitVec 32) :
    vprintf ['%', 'd'] [.ofInt v] = signedNumeral digits 10 v.toInt ∧
      vprintf ['%', 'u'] [.ofInt v] = numeral digits 10 v.toNat ∧
      vprintf ['%', 'x'] [.ofInt v] = numeral digits 16 v.toNat := by
  refine ⟨?_, ?_, ?_⟩
  · rw [vprintf_one (k := .int 10 true) (by decide) (by simp)]
    simp [Conv.emit, printint, printintWith_signed digits (by decide : 1 < 10)]
  · rw [vprintf_one (k := .int 10 false) (by decide) (by simp)]
    simp [Conv.emit, printint, printintWith_unsigned digits (by decide : 1 < 10)]
  · rw [vprintf_one (k := .int 16 false) (by decide) (by simp)]
    simp [Conv.emit, printint, printintWith_unsigned digits (by decide : 1 < 16)]

/-- The `l` and `ll` conversions print the low 32 bits of their argument: `%ld` as a
signed `int`, `%lu` and `%lx` as an unsigned one. -/
theorem vprintf_long (u : BitVec 64) :
    vprintf ['%', 'l', 'd'] [.word u] = signedNumeral digits 10 (u.setWidth 32).toInt ∧
      vprintf ['%', 'l', 'l', 'd'] [.word u] = signedNumeral digits 10 (u.setWidth 32).toInt ∧
      vprintf ['%', 'l', 'u'] [.word u] = numeral digits 10 (u.toNat % 2 ^ 32) ∧
      vprintf ['%', 'l', 'l', 'u'] [.word u] = numeral digits 10 (u.toNat % 2 ^ 32) ∧
      vprintf ['%', 'l', 'x'] [.word u] = numeral digits 16 (u.toNat % 2 ^ 32) ∧
      vprintf ['%', 'l', 'l', 'x'] [.word u] = numeral digits 16 (u.toNat % 2 ^ 32) := by
  have decimal : 1 < 10 := by decide
  have hex : 1 < 16 := by decide
  have low : (u.setWidth 32).toNat = u.toNat % 2 ^ 32 := BitVec.toNat_setWidth 32 u
  refine ⟨?_, ?_, ?_, ?_, ?_, ?_⟩
  · rw [vprintf_long_one ['l', 'd'] 10 true (by decide), printintWith_signed digits decimal]
  · rw [vprintf_long_one ['l', 'l', 'd'] 10 true (by decide), printintWith_signed digits decimal]
  · rw [vprintf_long_one ['l', 'u'] 10 false (by decide), printintWith_unsigned digits decimal, low]
  · rw [vprintf_long_one ['l', 'l', 'u'] 10 false (by decide), printintWith_unsigned digits decimal,
      low]
  · rw [vprintf_long_one ['l', 'x'] 16 false (by decide), printintWith_unsigned digits hex, low]
  · rw [vprintf_long_one ['l', 'l', 'x'] 16 false (by decide), printintWith_unsigned digits hex,
      low]

theorem vprintf_long_two_pow_32 :
    vprintf ['%', 'l', 'd'] [.word 4294967296] = ['0'] ∧
      vprintf ['%', 'l', 'u'] [.word 4294967296] = ['0'] ∧
      vprintf ['%', 'l', 'x'] [.word 4294967296] = ['0'] := by
  decide

end User

end Xv6.Printf
