import GfeDriver.Foundation.TextStream
import Mathlib.Algebra.Order.Ring.WithTop
import Mathlib.Data.Int.Log
import Mathlib.Tactic

/-!
# Numbers of type `double`

The numbers of type `double` that are not negative are rational numbers, and infinity. An integer is
converted to the nearest one, and so is the number that a text denotes. Of two that are equally near
it is the one whose last bit is zero. An integer of at most 53 bits is not changed.

## Main definitions

* `roundDouble q`: the number of type `double` that is nearest to a rational number
* `strtod`: the number in a text

## Main results

* `roundDouble_natCast`: an integer below `2 ^ 53`
* `strtod_append`: what is behind white space does not matter
-/

namespace Foundation

/-! ## Rounding -/

/-- The nearest integer, and the even one of two. -/
def roundEven (q : ℚ) : ℤ :=
  let n := ⌊q⌋
  if q - n < 1 / 2 then n
  else if 1 / 2 < q - n then n + 1
  else if n % 2 = 0 then n
  else n + 1

/-- The exponent of the last bit of a number: there are 53 bits, and fewer in small numbers. -/
def lastBit (q : ℚ) : ℤ := max (Int.log 2 q - 52) (-1074)

/-- **The nearest number of type `double`**, for a number that is not negative. -/
def roundDouble (q : ℚ) : WithTop ℚ :=
  let v : ℚ := roundEven (q / 2 ^ lastBit q) * 2 ^ lastBit q
  if v < 2 ^ 1024 then (v : WithTop ℚ) else ⊤

theorem roundEven_intCast (n : ℤ) : roundEven n = n := by
  have hlt : (n : ℚ) - ⌊(n : ℚ)⌋ < 1 / 2 := by
    rw [Int.floor_intCast, sub_self]
    norm_num
  rw [roundEven, if_pos hlt, Int.floor_intCast]

/-- **An integer of at most 53 bits** is a number of type `double`. -/
theorem roundDouble_natCast {n : ℕ} (h : n < 2 ^ 53) : roundDouble n = ((n : ℚ) : WithTop ℚ) := by
  have hlog : Int.log 2 (n : ℚ) ≤ 52 := by
    rw [Int.log_natCast]
    have hlt : Nat.log 2 n < 53 := Nat.log_lt_of_lt_pow' (by norm_num) h
    exact_mod_cast Nat.le_of_lt_succ hlt
  obtain ⟨k, hk⟩ : ∃ k : ℕ, lastBit n = -(k : ℤ) := by
    refine ⟨(-lastBit n).toNat, ?_⟩
    have hle : lastBit n ≤ 0 := max_le (by omega) (by norm_num)
    omega
  have hscale : (n : ℚ) / 2 ^ lastBit n = ((n * 2 ^ k : ℕ) : ℤ) := by
    rw [hk, zpow_neg, zpow_natCast, div_inv_eq_mul]
    push_cast
    ring
  have hvalue : (roundEven ((n : ℚ) / 2 ^ lastBit n) : ℚ) * 2 ^ lastBit n = n := by
    rw [hscale, roundEven_intCast, ← hscale]
    exact div_mul_cancel₀ _ (zpow_ne_zero _ two_ne_zero)
  have hlt : (n : ℚ) < 2 ^ 1024 := by
    have hpow : (2 : ℚ) ^ 53 ≤ 2 ^ 1024 := pow_le_pow_right₀ one_le_two (by norm_num)
    exact lt_of_lt_of_le (by exact_mod_cast h) hpow
  rw [roundDouble, hvalue, if_pos hlt]

/-! ## Numbers in a text -/

/-- The value of a hexadecimal digit. -/
def hexDigit? (c : UInt8) : Option ℕ :=
  if isDigit c then some (c.toNat - 48)
  else if 97 ≤ c && c ≤ 102 then some (c.toNat - 87)
  else if 65 ≤ c && c ≤ 70 then some (c.toNat - 55)
  else none

def isHexDigit (c : UInt8) : Bool := (hexDigit? c).isSome

/-- The value of some hexadecimal digits. -/
def hexValue (s : List UInt8) : ℕ := s.foldl (fun n c => 16 * n + (hexDigit? c).getD 0) 0

/-- The exponent behind one of two letters, zero when there is none. -/
def exponent (lower upper : UInt8) : List UInt8 → ℤ
  | c :: 45 :: s =>
    if (c = lower || c = upper) && startsWithDigit s then -digitsValue (spanDigits s).1 else 0
  | c :: 43 :: s =>
    if (c = lower || c = upper) && startsWithDigit s then digitsValue (spanDigits s).1 else 0
  | c :: s =>
    if (c = lower || c = upper) && startsWithDigit s then digitsValue (spanDigits s).1 else 0
  | [] => 0

/-- The digits of a number in front of its point, those behind it, and what follows. -/
def mantissa (digit : UInt8 → Bool) (s : List UInt8) : List UInt8 × List UInt8 × List UInt8 :=
  match s.dropWhile digit with
  | 46 :: rest => (s.takeWhile digit, rest.takeWhile digit, rest.dropWhile digit)
  | rest => (s.takeWhile digit, [], rest)

/-- A decimal number. -/
def decimal (s : List UInt8) : ℚ :=
  let (int, fraction, rest) := mantissa isDigit s
  digitsValue (int ++ fraction) * 10 ^ (exponent 101 69 rest - fraction.length)

/-- A hexadecimal number, without its prefix. -/
def hexadecimal (s : List UInt8) : ℚ :=
  let (int, fraction, rest) := mantissa isHexDigit s
  hexValue (int ++ fraction) * 2 ^ (exponent 112 80 rest - 4 * fraction.length)

/-- The number that a text starts with. It is hexadecimal if there is a digit behind the prefix,
perhaps behind a point. -/
def numberValue (s : List UInt8) : ℚ :=
  match s with
  | 48 :: x :: rest =>
    if (x = 120 || x = 88) &&
        ((mantissa isHexDigit rest).1 ≠ [] || (mantissa isHexDigit rest).2.1 ≠ []) then
      hexadecimal rest
    else decimal s
  | _ => decimal s

/-- `strtod(s, nullptr)`, for a text that starts with a digit. There is no white space in a number,
so that it ends in front of the first one. -/
def strtod (s : List UInt8) : WithTop ℚ :=
  roundDouble (numberValue (s.takeWhile fun c => !isSpace c))

/-- **What is behind white space does not matter**. -/
theorem strtod_append {s rest : List UInt8} (hs : ∀ c ∈ s, isSpace c = false)
    (hrest : ∀ c ∈ rest.head?, isSpace c = true) : strtod (s ++ rest) = strtod s := by
  have hself : ∀ c ∈ s, (!isSpace c) = true := fun c hc => by rw [hs c hc]; rfl
  have hnil : rest.takeWhile (fun c => !isSpace c) = [] := by
    cases rest with
    | nil => rfl
    | cons c rest => exact List.takeWhile_cons_of_neg (by simp [hrest c rfl])
  rw [strtod, strtod, List.takeWhile_append_of_pos hself, hnil, List.append_nil,
    List.takeWhile_eq_self_iff.mpr hself]

end Foundation
