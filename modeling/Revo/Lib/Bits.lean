/-
  Revo.Lib.Bits

  Bit operations on natural numbers and bytes as the codecs use them: a
  mask of the low bits is a remainder, and setting a bit above all the set
  bits adds it.  With these the byte arithmetic of a codec becomes `omega`
  arithmetic on `toNat`.  Clearing or setting the lowest bit of a word
  gives the even index of a pair and the odd one after it.  The high word
  of a product of two 64-bit words is assembled from the four products of
  their 32-bit halves (`mul_div_two_pow_64`), each of which fits a word.
  A 32-bit count that does not wrap reads as its `Nat`.
-/

import Mathlib.Data.BitVec
import Mathlib.Tactic.Ring

namespace Bits

/-- Setting a bit above every set bit of `d` adds it. -/
theorem or_two_pow_of_lt {d i : Nat} (h : d < 2 ^ i) : d ||| 2 ^ i = d + 2 ^ i := by
  have hor := Nat.two_pow_add_eq_or_of_lt h 1
  rw [Nat.mul_one] at hor
  rw [Nat.or_comm, ← hor, Nat.add_comm]

/-- Bits below `2 ^ k` or-ed into a multiple of `2 ^ k` add. -/
theorem or_eq_add_of_mod {a b k : Nat} (ha : a % 2 ^ k = 0) (hb : b < 2 ^ k) : a ||| b = a + b := by
  have hmul : a = 2 ^ k * (a / 2 ^ k) := (Nat.mul_div_cancel' (Nat.dvd_of_mod_eq_zero ha)).symm
  rw [hmul, Nat.two_pow_add_eq_or_of_lt hb]

/-- The low seven bits of a byte. -/
theorem byte_and_0x7f (b : UInt8) : (b &&& 0x7f).toNat = b.toNat % 128 := by
  rw [UInt8.toNat_and]
  exact Nat.and_two_pow_sub_one_eq_mod _ 7

/-- The top bit set on a byte below `0x80`. -/
theorem byte_or_0x80 {b : UInt8} (h : b.toNat < 128) : (b ||| 0x80).toNat = b.toNat + 128 := by
  rw [UInt8.toNat_or]
  exact or_two_pow_of_lt (show b.toNat < 2 ^ 7 from h)

/-- `p & ~1`: the even number at or below `p`. -/
theorem and_not_one_toNat (p : UInt32) : (p &&& ~~~1).toNat = 2 * (p.toNat / 2) := by
  have hn : (~~~(1 : UInt32)).toNat = (2 ^ 31 - 1) * 2 ^ 1 := by decide
  rw [UInt32.toNat_and, hn, show 2 * (p.toNat / 2) = p.toNat / 2 * 2 ^ 1 by rw [Nat.pow_one, Nat.mul_comm]]
  apply Nat.eq_of_testBit_eq
  intro i
  rw [Nat.testBit_and, Nat.testBit_mul_two_pow, Nat.testBit_two_pow_sub_one, Nat.testBit_mul_two_pow]
  cases i with
  | zero => simp
  | succ i =>
    rw [Nat.add_sub_cancel, Nat.testBit_div_two]
    by_cases hi : i < 31
    · simp [hi]
    · -- above bit `31` a `uint32_t` has no bits
      have hp := Nat.testBit_lt_two_pow
        (lt_of_lt_of_le p.toNat_lt (Nat.pow_le_pow_right (by decide) (show 32 ≤ i + 1 by omega)))
      simp [hi, hp]

/-- `p | 1`: the odd number at or above `p`. -/
theorem or_one_toNat (p : UInt32) : (p ||| 1).toNat = 2 * (p.toNat / 2) + 1 := by
  rw [UInt32.toNat_or, UInt32.toNat_one]
  apply Nat.eq_of_testBit_eq
  intro i
  rw [Nat.testBit_or]
  cases i with
  | zero => simp [Nat.testBit_zero]
  | succ i =>
    rw [Nat.testBit_succ, Nat.testBit_succ, Nat.testBit_succ,
      show (2 * (p.toNat / 2) + 1) / 2 = p.toNat / 2 by omega]
    simp

/-! ## Halves of a 64-bit word -/

theorem shiftRight_32_toNat (w : UInt64) : (w >>> 32).toNat = w.toNat / 2 ^ 32 := by
  rw [UInt64.toNat_shiftRight, show (32 : UInt64).toNat % 64 = 32 from rfl, Nat.shiftRight_eq_div_pow]

theorem and_low32_toNat (w : UInt64) : (w &&& 0xFFFFFFFF).toNat = w.toNat % 2 ^ 32 := by
  rw [UInt64.toNat_and, show (0xFFFFFFFF : UInt64).toNat = 2 ^ 32 - 1 from rfl, Nat.and_two_pow_sub_one_eq_mod]

theorem mul_lt_two_pow_64 {a b : Nat} (ha : a < 2 ^ 32) (hb : b < 2 ^ 32) : a * b < 2 ^ 64 :=
  calc a * b < 2 ^ 32 * 2 ^ 32 := Nat.mul_lt_mul'' ha hb
    _ = 2 ^ 64 := by rw [← Nat.pow_add]

/-- A product of two halves does not wrap. -/
theorem mul_toNat_of_lt {a b : UInt64} (ha : a.toNat < 2 ^ 32) (hb : b.toNat < 2 ^ 32) :
    (a * b).toNat = a.toNat * b.toNat := by
  rw [UInt64.toNat_mul, Nat.mod_eq_of_lt (mul_lt_two_pow_64 ha hb)]

theorem add_toNat_of_lt {a b : UInt64} (h : a.toNat + b.toNat < 2 ^ 64) : (a + b).toNat = a.toNat + b.toNat := by
  rw [UInt64.toNat_add, Nat.mod_eq_of_lt h]

/-! ## 32-bit counts -/

theorem add32_toNat_of_lt {a b : UInt32} (h : a.toNat + b.toNat < 2 ^ 32) : (a + b).toNat = a.toNat + b.toNat := by
  rw [UInt32.toNat_add, Nat.mod_eq_of_lt h]

theorem shiftRight_one_toNat (w : UInt32) : (w >>> 1).toNat = w.toNat / 2 := by
  rw [UInt32.toNat_shiftRight, show (1 : UInt32).toNat % 32 = 1 from rfl, Nat.shiftRight_eq_div_pow, Nat.pow_one]

/-- The high word of `x * n` from the products of the halves: the high
    product, the high halves of the two cross products, and the carry out
    of the middle column. -/
theorem mul_div_two_pow_64 (x n : Nat) :
    x * n / 2 ^ 64 =
      x / 2 ^ 32 * (n / 2 ^ 32) + x % 2 ^ 32 * (n / 2 ^ 32) / 2 ^ 32 + x / 2 ^ 32 * (n % 2 ^ 32) / 2 ^ 32 +
        (x % 2 ^ 32 * (n % 2 ^ 32) / 2 ^ 32 + x % 2 ^ 32 * (n / 2 ^ 32) % 2 ^ 32 +
          x / 2 ^ 32 * (n % 2 ^ 32) % 2 ^ 32) / 2 ^ 32 := by
  have hprod : x * n = x / 2 ^ 32 * (n / 2 ^ 32) * 2 ^ 64 + x % 2 ^ 32 * (n / 2 ^ 32) * 2 ^ 32 +
      x / 2 ^ 32 * (n % 2 ^ 32) * 2 ^ 32 + x % 2 ^ 32 * (n % 2 ^ 32) := by
    conv_lhs => rw [← Nat.div_add_mod x (2 ^ 32), ← Nat.div_add_mod n (2 ^ 32)]
    ring
  -- with the four products as atoms the rest is linear
  rw [hprod]
  omega

end Bits
