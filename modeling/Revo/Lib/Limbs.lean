/-
  Revo.Lib.Limbs

  Numbers held as lists of 32-bit limbs, least significant first: the
  number a list stands for, how it splits over `++`, `take` and `drop`, its
  bound, what each limb and each bit of a limb is, how two lists of one
  length compare from the top limb down, and how many bits a number
  needs.  `value_eq_of_toNat_getD` and `value_eq_of_testBit` recognise the
  number from its limbs or its bits.
-/

import Mathlib.Data.Nat.Bitwise
import Mathlib.Data.Nat.Size
import Mathlib.Tactic.Ring

namespace Limbs

/-- The number the limbs stand for, least significant first. -/
def value : List UInt32 → Nat
  | [] => 0
  | w :: ws => w.toNat + 2 ^ 32 * value ws

@[simp] theorem value_nil : value [] = 0 := rfl

@[simp] theorem value_cons (w : UInt32) (ws : List UInt32) :
    value (w :: ws) = w.toNat + 2 ^ 32 * value ws := rfl

theorem value_append (xs ys : List UInt32) :
    value (xs ++ ys) = value xs + 2 ^ (32 * xs.length) * value ys := by
  induction xs with
  | nil => simp
  | cons x xs ih =>
    rw [List.cons_append, value_cons, value_cons, ih, List.length_cons, Nat.mul_succ, Nat.pow_add]
    ring

theorem value_lt (ws : List UInt32) : value ws < 2 ^ (32 * ws.length) := by
  induction ws with
  | nil => exact Nat.one_pos
  | cons w ws ih =>
    have hw := w.toNat_lt
    -- `w + 2^32 * v < 2^32 * (v + 1) ≤ 2^32 * 2^(32 * n)`
    have hstep := Nat.mul_le_mul_left (2 ^ 32) (Nat.succ_le_of_lt ih)
    rw [Nat.mul_succ] at hstep
    rw [value_cons, List.length_cons, Nat.mul_succ, Nat.pow_add, Nat.mul_comm (2 ^ (32 * ws.length))]
    omega

@[simp] theorem value_replicate_zero (n : Nat) : value (List.replicate n 0) = 0 := by
  induction n with
  | zero => rfl
  | succ n ih => rw [List.replicate_succ, value_cons, ih]; rfl

theorem value_take_append_drop (ws : List UInt32) (n : Nat) :
    value ws = value (ws.take n) + 2 ^ (32 * n) * value (ws.drop n) := by
  by_cases hn : n ≤ ws.length
  · conv_lhs => rw [← List.take_append_drop n ws]
    rw [value_append, List.length_take, Nat.min_eq_left hn]
  · rw [List.take_of_length_le (by omega), List.drop_of_length_le (by omega), value_nil,
      Nat.mul_zero, Nat.add_zero]

theorem value_take_lt (ws : List UInt32) (n : Nat) : value (ws.take n) < 2 ^ (32 * n) :=
  calc value (ws.take n) < 2 ^ (32 * (ws.take n).length) := value_lt _
    _ ≤ 2 ^ (32 * n) := Nat.pow_le_pow_right (by decide) (by rw [List.length_take]; omega)

theorem value_take (ws : List UInt32) (n : Nat) : value (ws.take n) = value ws % 2 ^ (32 * n) := by
  rw [value_take_append_drop ws n, Nat.add_mul_mod_self_left, Nat.mod_eq_of_lt (value_take_lt ws n)]

theorem value_drop (ws : List UInt32) (n : Nat) : value (ws.drop n) = value ws / 2 ^ (32 * n) := by
  rw [value_take_append_drop ws n, Nat.add_mul_div_left _ _ (Nat.two_pow_pos _),
    Nat.div_eq_of_lt (value_take_lt ws n), Nat.zero_add]

theorem value_headD_tail (ws : List UInt32) :
    value ws = (ws.headD 0).toNat + 2 ^ 32 * value ws.tail := by
  cases ws with
  | nil => rfl
  | cons w ws => rfl

/-- A carry into the digits above `P`: `T < P` stays where it is. -/
theorem add_mul_mod_mul_of_lt {T P : Nat} (hT : T < P) (Y M : Nat) :
    (T + P * Y) % (P * M) = T + P * (Y % M) := by
  have hP : 0 < P := by omega
  rw [Nat.mod_mul, Nat.add_mul_mod_self_left, Nat.mod_eq_of_lt hT, Nat.add_mul_div_left _ _ hP,
    Nat.div_eq_of_lt hT, Nat.zero_add]

/-- Limb `i` is digit `i` of the number in base `2 ^ 32`; past the end both
    are zero. -/
theorem toNat_getD (ws : List UInt32) (i : Nat) :
    (ws.getD i 0).toNat = value ws / 2 ^ (32 * i) % 2 ^ 32 := by
  induction ws generalizing i with
  | nil => simp
  | cons w ws ih =>
    cases i with
    | zero =>
      rw [List.getD_cons_zero, value_cons, Nat.mul_zero, Nat.pow_zero, Nat.div_one,
        Nat.add_mul_mod_self_left, Nat.mod_eq_of_lt w.toNat_lt]
    | succ i =>
      -- one limb further up is one digit further up
      rw [List.getD_cons_succ, ih, value_cons, Nat.mul_succ, Nat.pow_add,
        Nat.mul_comm (2 ^ (32 * i)) (2 ^ 32), ← Nat.div_div_eq_div_mul,
        Nat.add_mul_div_left _ _ (Nat.two_pow_pos 32), Nat.div_eq_of_lt w.toNat_lt, Nat.zero_add]

/-- A list whose limbs are the digits of `x` in base `2 ^ 32` stands for `x`
    cut to the list's width. -/
theorem value_eq_of_toNat_getD {ws : List UInt32} {x : Nat}
    (h : ∀ i < ws.length, (ws.getD i 0).toNat = x / 2 ^ (32 * i) % 2 ^ 32) :
    value ws = x % 2 ^ (32 * ws.length) := by
  induction ws generalizing x with
  | nil => rw [value_nil, List.length_nil, Nat.mul_zero, Nat.pow_zero, Nat.mod_one]
  | cons w ws ih =>
    have h0 : w.toNat = x % 2 ^ 32 := by simpa using h 0 (by simp)
    have hrest : value ws = x / 2 ^ 32 % 2 ^ (32 * ws.length) := by
      apply ih
      intro i hi
      have := h (i + 1) (by simp; omega)
      rw [List.getD_cons_succ, Nat.mul_succ, Nat.pow_add, Nat.mul_comm, ← Nat.div_div_eq_div_mul] at this
      exact this
    rw [value_cons, h0, hrest, List.length_cons, Nat.mul_succ, Nat.pow_add, Nat.mul_comm _ (2 ^ 32),
      Nat.mod_mul]

theorem value_take_succ (ws : List UInt32) (j : Nat) :
    value (ws.take (j + 1)) = value (ws.take j) + 2 ^ (32 * j) * (ws.getD j 0).toNat := by
  rw [value_take, value_take, toNat_getD, Nat.mul_succ, Nat.pow_add, Nat.mod_mul]

/-- Bit `i` of limb `p` is bit `32 * p + i` of the number; a limb has no
    bits from `32` on. -/
theorem testBit_toNat_getD (ws : List UInt32) (p i : Nat) :
    (ws.getD p 0).toNat.testBit i = (decide (i < 32) && (value ws).testBit (32 * p + i)) := by
  rw [toNat_getD, Nat.testBit_mod_two_pow, Nat.testBit_div_two_pow, Nat.add_comm]

theorem testBit_value_of_le (ws : List UInt32) {i : Nat} (h : 32 * ws.length ≤ i) :
    (value ws).testBit i = false :=
  Nat.testBit_lt_two_pow (Nat.lt_of_lt_of_le (value_lt ws) (Nat.pow_le_pow_right (by decide) h))

/-- A list whose limbs have the bits of `x` stands for `x` cut to the list's
    width. -/
theorem value_eq_of_testBit {ws : List UInt32} {x : Nat}
    (h : ∀ p < ws.length, ∀ b < 32, (ws.getD p 0).toNat.testBit b = x.testBit (32 * p + b)) :
    value ws = x % 2 ^ (32 * ws.length) := by
  apply Nat.eq_of_testBit_eq
  intro j
  rw [Nat.testBit_mod_two_pow]
  by_cases hj : j < 32 * ws.length
  · -- bit `j` is bit `j % 32` of limb `j / 32`
    have hb : j % 32 < 32 := Nat.mod_lt _ (by decide)
    have hlimb := h (j / 32) (by omega) (j % 32) hb
    rw [testBit_toNat_getD, decide_eq_true hb, Bool.true_and, Nat.div_add_mod] at hlimb
    rw [hlimb, decide_eq_true hj, Bool.true_and]
  · rw [decide_eq_false hj, Bool.false_and, testBit_value_of_le ws (by omega)]

/-- Below a limb of more weight the lower limbs only break a tie. -/
theorem value_concat_lt_iff {xs ys : List UInt32} (h : xs.length = ys.length) (x y : UInt32) :
    value (xs ++ [x]) < value (ys ++ [y]) ↔ x < y ∨ (x = y ∧ value xs < value ys) := by
  have hx := value_lt xs
  have hy := value_lt ys
  rw [h] at hx
  rw [value_append, value_append, h, value_cons, value_cons, value_nil, Nat.mul_zero, Nat.add_zero,
    Nat.add_zero, UInt32.lt_iff_toNat_lt, ← UInt32.toNat_inj]
  generalize 2 ^ (32 * ys.length) = P at hx hy
  constructor
  · intro hlt
    by_cases hxy : x.toNat < y.toNat
    · exact Or.inl hxy
    · -- the high limbs are equal, or the left side would be the larger
      have hyx : y.toNat ≤ x.toNat := Nat.le_of_not_lt hxy
      have hle : P * y.toNat ≤ P * x.toNat := Nat.mul_le_mul_left P hyx
      have heq : x.toNat = y.toNat := by
        by_contra hne
        have hgt : P * (y.toNat + 1) ≤ P * x.toNat := Nat.mul_le_mul_left P (by omega)
        rw [Nat.mul_succ] at hgt
        omega
      refine Or.inr ⟨heq, ?_⟩
      rw [heq] at hlt
      omega
  · rintro (hlt | ⟨heq, hlt⟩)
    · have hgt : P * (x.toNat + 1) ≤ P * y.toNat := Nat.mul_le_mul_left P hlt
      rw [Nat.mul_succ] at hgt
      omega
    · rw [heq]
      omega

/-- A number needs the bits of a digit `x ≠ 0` above `2 ^ n`, on top of
    the `n` bits below it. -/
theorem size_add_two_pow_mul {v n x : Nat} (hv : v < 2 ^ n) (hx : x ≠ 0) :
    (v + 2 ^ n * x).size = n + x.size := by
  have htop : x < 2 ^ x.size := Nat.lt_size_self _
  have hpos := Nat.size_pos.mpr (Nat.pos_of_ne_zero hx)
  have hbot : 2 ^ (x.size - 1) ≤ x := Nat.lt_size.mp (by omega)
  apply Nat.le_antisymm
  · -- `v + 2^n * x < 2^n * (x + 1) ≤ 2^n * 2^(size x)`
    rw [Nat.size_le, Nat.pow_add]
    have := Nat.mul_le_mul_left (2 ^ n) (Nat.succ_le_of_lt htop)
    rw [Nat.mul_succ] at this
    omega
  · -- `2^n * 2^(size x - 1) ≤ 2^n * x ≤ v + 2^n * x`
    have hm : 2 ^ (n + (x.size - 1)) ≤ v + 2 ^ n * x := by
      rw [Nat.pow_add]
      have := Nat.mul_le_mul_left (2 ^ n) hbot
      omega
    have := Nat.lt_size.mpr hm
    omega

end Limbs
