import Mathlib
import Xv6.Malloc

/-!
# The user library's `printf` (`user/printf.c`)

`vprintf` walks the format with a `state` of 0 or `'%'`; `printf` and
`fprintf` call it. A conversion takes its argument from `ap`: each argument
is passed in a 64-bit slot, and `va_arg(ap, T)` reads the slot as a `T`, so an
`int` or a `uint` is its low 32 bits. A call passes as many arguments as its
format asks for; past them the model reads 0.

- `printint` writes the digits of `x` into `buf`, least significant first, in
  the loop `do ... while ((x /= base) != 0)` (`digitLoop`), then writes `buf`
  back to front.
- `printptr` writes `0x` and then, sixteen times, the top four bits of `x`,
  shifting `x` left by four each time.

The model's result is the bytes a call writes to `fd`; `strAt p` is the string
at address `p`, up to its `NUL`.

`render` is the rendering stated apart from the code, with the digits of
`Nat.digits`: `%d` the signed decimal of the `int`, `%x` the hexadecimal of its
32 bits, `%p` exactly sixteen hexadecimal digits, and `%l` the decimal of the
low `w` bits of its argument. The code is `render 32` (`vprintf_eq_render`):
`%l` goes through `printint`'s `int` parameter and loses the high half, which
`render 64` prints (`printf_long_drops_high_bits`).
-/

namespace Xv6

namespace Printf

open Umalloc (toInt)

/-! ## The code -/

/-- `'%'`. -/
def cPercent : UInt8 := '%'.toNat.toUInt8

/-- `'d'`. -/
def cD : UInt8 := 'd'.toNat.toUInt8

/-- `'l'`. -/
def cL : UInt8 := 'l'.toNat.toUInt8

/-- `'x'`. -/
def cX : UInt8 := 'x'.toNat.toUInt8

/-- `'p'`. -/
def cP : UInt8 := 'p'.toNat.toUInt8

/-- `'s'`. -/
def cS : UInt8 := 's'.toNat.toUInt8

/-- `'c'`. -/
def cC : UInt8 := 'c'.toNat.toUInt8

/-- `'-'`. -/
def cMinus : UInt8 := '-'.toNat.toUInt8

/-- `'0'`. -/
def cZero : UInt8 := '0'.toNat.toUInt8

/-- `"(null)"`. -/
def nullStr : List UInt8 := "(null)".toList.map fun c => c.toNat.toUInt8

/-- `static char digits[] = "0123456789ABCDEF"`. -/
def digits : List UInt8 := "0123456789ABCDEF".toList.map fun c => c.toNat.toUInt8

/-- A `base` of `printint`: at least 2, so that the digit loop ends, and at
most 16, the digits there are. The code passes 10 and 16. -/
structure Radix where
  val : Nat
  two_le : 2 ≤ val
  le_sixteen : val ≤ 16

def Radix.ten : Radix := ⟨10, by decide, by decide⟩

def Radix.sixteen : Radix := ⟨16, by decide, by decide⟩

@[simp] theorem Radix.ten_val : Radix.ten.val = 10 := rfl

@[simp] theorem Radix.sixteen_val : Radix.sixteen.val = 16 := rfl

/-- The loop `do buf[i++] = digits[x % base]; while ((x /= base) != 0)`:
`buf` from index 0, the digits of `x`, least significant first. -/
def digitLoop (base : Radix) (x : Nat) : List UInt8 :=
  digits.getD (x % base.val) 0 :: if x / base.val = 0 then [] else digitLoop base (x / base.val)
termination_by x
decreasing_by
  have hx : 0 < x := Nat.pos_of_ne_zero fun h => ‹¬ x / base.val = 0› (by rw [h, Nat.zero_div])
  exact Nat.div_lt_self hx base.two_le

/-- `printint(fd, xx, base, sgn)`: `x` is `-xx` or `xx` stored in a `uint`,
and `buf` goes out back to front. -/
def printint (xx : Int) (base : Radix) (sgn : Bool) : List UInt8 :=
  let neg := sgn && decide (xx < 0)
  let x := if neg then ((-xx) % 2 ^ 32).toNat else (xx % 2 ^ 32).toNat
  (digitLoop base x ++ if neg then [cMinus] else []).reverse

/-- The loop of `printptr` with `i` turns left: `digits[x >> 60]`, then
`x <<= 4`. -/
def printptrLoop : Nat → UInt64 → List UInt8
  | 0, _ => []
  | i + 1, x => digits.getD (x >>> 60).toNat 0 :: printptrLoop i (x <<< 4)

/-- `printptr(fd, x)`. -/
def printptr (x : UInt64) : List UInt8 := cZero :: cX :: printptrLoop 16 x

/-- `vprintf`'s `state`: 0, or `'%'` after a percent sign. -/
inductive State
  | zero
  | percent
  deriving DecidableEq, Repr

/-- The turn of `vprintf`'s loop on the character `c` after a `'%'`: what it
writes, and the arguments left. -/
def conversion (strAt : UInt64 → List UInt8) (c : UInt8) (ap : List UInt64) :
    List UInt8 × List UInt64 :=
  if c = cD then (printint (toInt (ap.headD 0).toNat) .ten true, ap.tail)
  else if c = cL then (printint (toInt (ap.headD 0).toNat) .ten false, ap.tail)
  else if c = cX then (printint (toInt (ap.headD 0).toNat) .sixteen false, ap.tail)
  else if c = cP then (printptr (ap.headD 0), ap.tail)
  else if c = cS then (if ap.headD 0 = 0 then nullStr else strAt (ap.headD 0), ap.tail)
  else if c = cC then ([(ap.headD 0).toUInt8], ap.tail)
  else if c = cPercent then ([c], ap)
  -- an unknown sequence is printed to draw attention
  else ([cPercent, c], ap)

/-- The loop of `vprintf` from `state`. -/
def vprintfLoop (strAt : UInt64 → List UInt8) : State → List UInt8 → List UInt64 → List UInt8
  | _, [], _ => []
  | .zero, c :: fmt, ap =>
    if c = cPercent then vprintfLoop strAt .percent fmt ap else c :: vprintfLoop strAt .zero fmt ap
  | .percent, c :: fmt, ap =>
    (conversion strAt c ap).1 ++ vprintfLoop strAt .zero fmt (conversion strAt c ap).2

/-- `vprintf(fd, fmt, ap)`: the bytes written to `fd`. -/
def vprintf (strAt : UInt64 → List UInt8) (fmt : List UInt8) (ap : List UInt64) : List UInt8 :=
  vprintfLoop strAt .zero fmt ap

/-! ## The rendering -/

/-- Digit `d` in printf's alphabet: `0`-`9`, then `A`-`F`. -/
def hexChar (d : Nat) : UInt8 := if d < 10 then (48 + d).toUInt8 else (55 + d).toUInt8

/-- `n` in base `b`, the most significant digit first; `0` for zero. -/
def numeral (b n : Nat) : List UInt8 :=
  if n = 0 then [hexChar 0] else (Nat.digits b n).reverse.map hexChar

/-- The signed decimal of an `int`. -/
def signedDecimal (v : Int) : List UInt8 :=
  if v < 0 then cMinus :: numeral 10 v.natAbs else numeral 10 v.natAbs

/-- Exactly `n` hexadecimal digits of `x`, the most significant first. -/
def hexDigits (n x : Nat) : List UInt8 :=
  (List.range n).map fun j => hexChar (x / 16 ^ (n - 1 - j) % 16)

/-- What a conversion renders, and the arguments left; `%l` renders the low
`w` bits of its argument. -/
def renderConv (w : Nat) (strAt : UInt64 → List UInt8) (c : UInt8) (ap : List UInt64) :
    List UInt8 × List UInt64 :=
  if c = cD then (signedDecimal (toInt (ap.headD 0).toNat), ap.tail)
  else if c = cL then (numeral 10 ((ap.headD 0).toNat % 2 ^ w), ap.tail)
  else if c = cX then (numeral 16 ((ap.headD 0).toNat % 2 ^ 32), ap.tail)
  else if c = cP then (cZero :: cX :: hexDigits 16 (ap.headD 0).toNat, ap.tail)
  else if c = cS then (if ap.headD 0 = 0 then nullStr else strAt (ap.headD 0), ap.tail)
  else if c = cC then ([(ap.headD 0).toUInt8], ap.tail)
  else if c = cPercent then ([cPercent], ap)
  else ([cPercent, c], ap)

/-- The rendering of a format: ordinary characters copied, a conversion
after each `'%'`, and nothing for a trailing lone `'%'`. -/
def render (w : Nat) (strAt : UInt64 → List UInt8) : List UInt8 → List UInt64 → List UInt8
  | [], _ => []
  | [c], _ => if c = cPercent then [] else [c]
  | c :: d :: fmt, ap =>
    if c = cPercent then (renderConv w strAt d ap).1 ++ render w strAt fmt (renderConv w strAt d ap).2
    else c :: render w strAt (d :: fmt) ap

/-! ## Numbers -/

/-- The table `digits` holds `0`-`9`, then `A`-`F`. -/
theorem digits_getD {d : Nat} (hd : d < 16) : digits.getD d 0 = hexChar d := by
  have htable : ∀ d < 16, digits.getD d 0 = hexChar d := by decide
  exact htable d hd

/-- The digit loop writes the digits of `x`, least significant first, and
one `0` for zero. -/
theorem digitLoop_eq (base : Radix) (x : Nat) :
    digitLoop base x = if x = 0 then [hexChar 0] else (Nat.digits base.val x).map hexChar := by
  have hb : 1 < base.val := base.two_le
  have hdigit : digits.getD (x % base.val) 0 = hexChar (x % base.val) :=
    digits_getD (by have := Nat.mod_lt x (by omega : 0 < base.val); have := base.le_sixteen; omega)
  rw [digitLoop, hdigit]
  by_cases hq : x / base.val = 0
  · -- the last digit
    rw [if_pos hq]
    by_cases hx : x = 0
    · simp [hx]
    · have hlt : x < base.val := by
        rcases Nat.lt_or_ge x base.val with h | h
        · exact h
        · exact absurd hq (Nat.ne_of_gt (Nat.div_pos h (by omega)))
      rw [if_neg hx, Nat.digits_of_lt base.val x hx hlt, Nat.mod_eq_of_lt hlt]
      rfl
  · -- a digit, then the digits of `x / base`
    have hx : x ≠ 0 := fun h => hq (by rw [h, Nat.zero_div])
    rw [if_neg hq, digitLoop_eq base (x / base.val), if_neg hq, if_neg hx,
      Nat.digits_def' hb (Nat.pos_of_ne_zero hx), List.map_cons]
termination_by x
decreasing_by
  exact Nat.div_lt_self (Nat.pos_of_ne_zero fun h => hq (by rw [h, Nat.zero_div])) base.two_le

theorem reverse_digitLoop (base : Radix) (x : Nat) : (digitLoop base x).reverse = numeral base.val x := by
  rw [digitLoop_eq, numeral]
  split <;> simp [List.map_reverse]

/-- `printint` writes the numeral of the `uint` `x`, after a `'-'` when it
negated a negative `xx`. -/
theorem printint_eq (xx : Int) (base : Radix) (sgn : Bool) :
    printint xx base sgn =
      if sgn ∧ xx < 0 then cMinus :: numeral base.val ((-xx) % 2 ^ 32).toNat
      else numeral base.val (xx % 2 ^ 32).toNat := by
  unfold printint
  by_cases hneg : sgn ∧ xx < 0
  · have hb : (sgn && decide (xx < 0)) = true := by simp [hneg.1, hneg.2]
    simp only [hb, if_true, if_pos hneg, List.reverse_append, List.reverse_singleton,
      List.singleton_append, reverse_digitLoop]
  · have hb : (sgn && decide (xx < 0)) = false := by
      cases sgn <;> simp_all
    simp only [hb, Bool.false_eq_true, if_false, if_neg hneg, List.append_nil, reverse_digitLoop]

theorem toInt_range (n : Nat) : -2 ^ 31 ≤ toInt n ∧ toInt n < 2 ^ 31 := by
  unfold toInt
  split <;> omega

/-- Stored back in a `uint`, an `int` read from a slot is the slot's low 32
bits. -/
theorem toNat_toInt_emod (n : Nat) : (toInt n % 2 ^ 32).toNat = n % 2 ^ 32 := by
  unfold toInt
  split <;> omega

/-- `%d`: the signed decimal of the `int`, `INT_MIN` included, whose
negation is `2^31` as a `uint`. -/
theorem printint_signed (n : Nat) : printint (toInt n) .ten true = signedDecimal (toInt n) := by
  obtain ⟨hlo, hhi⟩ := toInt_range n
  rw [printint_eq, signedDecimal]
  by_cases hneg : toInt n < 0
  · rw [if_pos ⟨rfl, hneg⟩, if_pos hneg]
    congr 2
    omega
  · rw [if_neg (fun h => hneg h.2), if_neg hneg]
    congr 1
    omega

/-- `%x` and `%l`: the numeral of the slot's low 32 bits. -/
theorem printint_unsigned (n : Nat) (base : Radix) :
    printint (toInt n) base false = numeral base.val (n % 2 ^ 32) := by
  rw [printint_eq, if_neg (fun h => Bool.false_ne_true h.1), toNat_toInt_emod]

/-- Four bits of `x` from bit `k + 4` on, after `x` is shifted left by four
in 64 bits: the four bits from `k` on. -/
theorem nibble_shift (x k : Nat) (hk : k + 8 ≤ 64) :
    x * 16 % 2 ^ 64 / 2 ^ (k + 4) % 16 = x / 2 ^ k % 16 := by
  have hdvd : 2 ^ (k + 4) * 16 ∣ 2 ^ 64 := by
    rw [show 2 ^ (k + 4) * 16 = 2 ^ (k + 8) by rw [pow_add, pow_add, mul_assoc]; rfl]
    exact Nat.pow_dvd_pow 2 hk
  calc x * 16 % 2 ^ 64 / 2 ^ (k + 4) % 16
      = x * 16 % 2 ^ 64 % (2 ^ (k + 4) * 16) / 2 ^ (k + 4) := (Nat.mod_mul_right_div_self _ _ _).symm
    _ = x * 16 % (2 ^ (k + 4) * 16) / 2 ^ (k + 4) := by rw [Nat.mod_mod_of_dvd _ hdvd]
    _ = x * 16 / 2 ^ (k + 4) % 16 := Nat.mod_mul_right_div_self _ _ _
    _ = x / 2 ^ k % 16 := by
      rw [pow_add, show (2 : Nat) ^ 4 = 16 from rfl, Nat.mul_div_mul_right _ _ (by norm_num)]

/-- The loop of `printptr` writes, in turn `j`, the four bits of `x` from bit
`60 - 4j` on. -/
theorem printptrLoop_eq : ∀ (i : Nat) (x : UInt64), i ≤ 16 →
    printptrLoop i x = (List.range i).map fun j => hexChar (x.toNat / 2 ^ (60 - 4 * j) % 16)
  | 0, _, _ => rfl
  | i + 1, x, hi => by
    have hx := x.toNat_lt
    -- the top four bits
    have htop : (x >>> 60).toNat = x.toNat / 2 ^ 60 := by
      rw [UInt64.toNat_shiftRight, Nat.shiftRight_eq_div_pow]
      rfl
    have hlt : x.toNat / 2 ^ 60 < 16 := by omega
    -- the rest, from `x <<< 4`
    have hrest : ∀ j ∈ List.range i, hexChar ((x <<< 4).toNat / 2 ^ (60 - 4 * j) % 16) =
        hexChar (x.toNat / 2 ^ (60 - 4 * (j + 1)) % 16) := by
      intro j hj
      have hj : j < i := List.mem_range.mp hj
      have hshift : (x <<< 4).toNat = x.toNat * 16 % 2 ^ 64 := by
        rw [UInt64.toNat_shiftLeft, Nat.shiftLeft_eq]
        rfl
      rw [hshift, show 60 - 4 * j = (60 - 4 * (j + 1)) + 4 by omega,
        nibble_shift _ _ (by omega)]
    rw [printptrLoop, printptrLoop_eq i (x <<< 4) (by omega), List.range_succ_eq_map,
      List.map_cons, List.map_map, htop, digits_getD hlt, Nat.mod_eq_of_lt hlt,
      List.map_congr_left hrest]
    rfl

/-- `%p`: `0x` and exactly sixteen hexadecimal digits. -/
theorem printptr_eq (x : UInt64) : printptr x = cZero :: cX :: hexDigits 16 x.toNat := by
  -- the bit `60 - 4j` is the hexadecimal digit `15 - j`
  have hpow : ∀ j ∈ List.range 16, hexChar (x.toNat / 2 ^ (60 - 4 * j) % 16) =
      hexChar (x.toNat / 16 ^ (16 - 1 - j) % 16) := by
    intro j hj
    have hj : j < 16 := List.mem_range.mp hj
    rw [show 16 - 1 - j = 15 - j by omega, show 60 - 4 * j = 4 * (15 - j) by omega, pow_mul]
    rfl
  rw [printptr, printptrLoop_eq 16 x (Nat.le_refl 16), hexDigits, List.map_congr_left hpow]

/-! ## The loop -/

/-- Each conversion writes what `render 32` says. -/
theorem conversion_eq (strAt : UInt64 → List UInt8) (c : UInt8) (ap : List UInt64) :
    conversion strAt c ap = renderConv 32 strAt c ap := by
  simp only [conversion, renderConv, printint_signed, printint_unsigned, printptr_eq, Radix.ten_val,
    Radix.sixteen_val]
  by_cases hc : c = cPercent
  · -- the code writes the `c` it tested
    subst hc
    rfl
  · simp only [hc, if_false]

/-- `vprintf` renders its format, with `%l` printing the low 32 bits of its
argument: for every format and every argument list. -/
theorem vprintf_eq_render (strAt : UInt64 → List UInt8) :
    ∀ (fmt : List UInt8) (ap : List UInt64), vprintf strAt fmt ap = render 32 strAt fmt ap
  | [], _ => rfl
  | [c], ap => by
    by_cases hc : c = cPercent <;> simp [vprintf, vprintfLoop, render, hc]
  | c :: d :: fmt, ap => by
    by_cases hc : c = cPercent
    · -- a conversion, then the rest from state 0
      rw [vprintf, vprintfLoop, if_pos hc, vprintfLoop, render, if_pos hc, conversion_eq,
        ← vprintf_eq_render strAt fmt]
      rfl
    · rw [vprintf, vprintfLoop, if_neg hc, render, if_neg hc, ← vprintf_eq_render strAt (d :: fmt)]
      rfl

/-- `%l` alone renders the low `w` bits of its argument. -/
theorem render_long (w : Nat) (strAt : UInt64 → List UInt8) (a : UInt64) :
    render w strAt [cPercent, cL] [a] = numeral 10 (a.toNat % 2 ^ w) := by
  have hLD : cL ≠ cD := by decide
  rw [render, if_pos rfl, renderConv, if_neg hLD, if_pos rfl, render, List.append_nil]
  rfl

/-- `printf("%l", 2^32)` prints `0`, where the unsigned decimal of the
64-bit argument is `4294967296`. -/
theorem printf_long_drops_high_bits (strAt : UInt64 → List UInt8) :
    vprintf strAt [cPercent, cL] [2 ^ 32] = [cZero] ∧
      render 64 strAt [cPercent, cL] [2 ^ 32] = [52, 50, 57, 52, 57, 54, 55, 50, 57, 54] := by
  rw [vprintf_eq_render, render_long, render_long]
  exact ⟨by decide, by decide⟩

end Printf

end Xv6
