/-
  Revo.Arith.ArithUint256Proofs

  `base_uint<BITS>` computes natural-number arithmetic modulo
  `2 ^ (32 * WIDTH)`.

    * The carry loops keep a conservation law: what the limbs written so far
      stand for, with the carry, is what the limbs read so far stand for.
      No `uint64_t` sum or product wraps.
    * The shift loops put every bit where a shift of the whole number puts
      it: bit `b` of a limb is bit `32 * p + b` of the number
      (`Limbs.testBit_toNat_getD`).
    * `CompareTo` is the comparison of the numbers, `bits()` their
      `Nat.size`.
    * Long division keeps `num + q * b` and divides the remainder below
      `b * 2 ^ (shift + 1)` at every round, so that it ends with the
      quotient.
-/

import Revo.Arith.ArithUint256
import Revo.Lib.Lists

namespace Revo

namespace BaseUint

open Limbs

/-! ## Carry loops -/

/-- `pn[i] = n & 0xffffffff` keeps the low limb of `n`. -/
theorem toNat_ofNat_and_mask (n : Nat) : (UInt32.ofNat (n &&& 0xffffffff)).toNat = n % 2 ^ 32 := by
  rw [UInt32.toNat_ofNat', show (0xffffffff : Nat) = 2 ^ 32 - 1 from rfl,
    Nat.and_two_pow_sub_one_eq_mod, Nat.mod_mod]

/-- One step of a carry loop: the low limb of `n` and the carry `n / 2 ^ 32`
    into the limbs above, which stand for `R` cut to `M`. -/
theorem carry_step (n R M : Nat) :
    n % 2 ^ 32 + 2 ^ 32 * ((n / 2 ^ 32 + R) % M) = (n + 2 ^ 32 * R) % (2 ^ 32 * M) := by
  rw [← add_mul_mod_mul_of_lt (Nat.mod_lt n (Nat.two_pow_pos 32)), Nat.mul_add, ← Nat.add_assoc,
    Nat.mod_add_div]

theorem two_pow_limbs_succ (n : Nat) : 2 ^ 32 * 2 ^ (32 * n) = 2 ^ (32 * (n + 1)) := by
  rw [← Nat.pow_add, Nat.mul_succ, Nat.add_comm]

/-- `operator+=` adds modulo the width, from a carry that fits a limb. -/
theorem value_addLoop {carry : Nat} (hc : carry < 2 ^ 32) (ps bs : List UInt32) :
    value (addLoop carry ps bs) = (carry + value ps + value bs) % 2 ^ (32 * ps.length) := by
  induction ps generalizing carry bs with
  | nil => rw [addLoop, value_nil, List.length_nil, Nat.mul_zero, Nat.pow_zero, Nat.mod_one]
  | cons p ps ih =>
    have hp := p.toNat_lt
    have hb := (bs.headD 0).toNat_lt
    -- the sum of a carry and two limbs does not wrap, and carries at most `2`
    have hn : carry + p.toNat + (bs.headD 0).toNat < 2 ^ 64 := by omega
    rw [addLoop]
    rw [Nat.mod_eq_of_lt hn, value_cons, toNat_ofNat_and_mask, Nat.shiftRight_eq_div_pow,
      ih (by omega), Nat.add_assoc (_ / 2 ^ 32), carry_step, two_pow_limbs_succ, List.length_cons, value_cons, value_headD_tail bs]
    congr 1
    ring

/-- `operator*=(uint32_t)` multiplies modulo the width. -/
theorem value_mulU32Loop (b32 : UInt32) {carry : Nat} (hc : carry < 2 ^ 32) (ps : List UInt32) :
    value (mulU32Loop b32 carry ps) = (carry + b32.toNat * value ps) % 2 ^ (32 * ps.length) := by
  induction ps generalizing carry with
  | nil => rw [mulU32Loop, value_nil, List.length_nil, Nat.mul_zero, Nat.pow_zero, Nat.mod_one]
  | cons p ps ih =>
    have hp := p.toNat_lt
    have hb := b32.toNat_lt
    -- `carry + b32 * p ≤ 2^32 - 1 + (2^32 - 1)^2 < 2^64`
    have hprod : b32.toNat * p.toNat ≤ (2 ^ 32 - 1) * (2 ^ 32 - 1) :=
      Nat.mul_le_mul (by omega) (by omega)
    have hn : carry + b32.toNat * p.toNat < 2 ^ 64 := by omega
    rw [mulU32Loop]
    rw [Nat.mod_eq_of_lt hn, value_cons, toNat_ofNat_and_mask, Nat.shiftRight_eq_div_pow,
      ih (Nat.div_lt_of_lt_mul (by omega)), carry_step, two_pow_limbs_succ, List.length_cons,
      value_cons]
    congr 1
    ring

/-- The inner loop of `operator*=` adds `x * b` into the limbs it runs over,
    modulo their width. -/
theorem value_mulAddLoop (x : UInt32) {carry : Nat} (hc : carry < 2 ^ 32) (acc bs : List UInt32) :
    value (mulAddLoop x carry acc bs) =
      (carry + value acc + x.toNat * value bs) % 2 ^ (32 * acc.length) := by
  induction acc generalizing carry bs with
  | nil => rw [mulAddLoop, value_nil, List.length_nil, Nat.mul_zero, Nat.pow_zero, Nat.mod_one]
  | cons a acc ih =>
    have ha := a.toNat_lt
    have hx := x.toNat_lt
    have hb := (bs.headD 0).toNat_lt
    -- `carry + a + x * b ≤ 2 * (2^32 - 1) + (2^32 - 1)^2 = 2^64 - 1`
    have hprod : x.toNat * (bs.headD 0).toNat ≤ (2 ^ 32 - 1) * (2 ^ 32 - 1) :=
      Nat.mul_le_mul (by omega) (by omega)
    have hn : carry + a.toNat + x.toNat * (bs.headD 0).toNat < 2 ^ 64 := by omega
    rw [mulAddLoop]
    rw [Nat.mod_eq_of_lt hn, value_cons, toNat_ofNat_and_mask, Nat.shiftRight_eq_div_pow,
      ih (Nat.div_lt_of_lt_mul (by omega)), Nat.add_assoc (_ / 2 ^ 32), carry_step,
      two_pow_limbs_succ, List.length_cons, value_cons, value_headD_tail bs]
    congr 1
    ring

/-- After `j` rows the product holds `pn` cut to its first `j` limbs,
    times `b`, modulo the width. -/
theorem value_mulLimbs (pn b : List UInt32) :
    value (mulLimbs pn b) = value pn * value b % 2 ^ (32 * pn.length) := by
  have hrows : (mulLimbs pn b).length = pn.length ∧
      value (mulLimbs pn b) = value (pn.take pn.length) * value b % 2 ^ (32 * pn.length) := by
    apply Fold.foldl_range_inv (fun j (a : List UInt32) => a.length = pn.length ∧
      value a = value (pn.take j) * value b % 2 ^ (32 * pn.length)) pn.length
      ⟨List.length_replicate, by simp⟩
    rintro j a hj ⟨hlen, hval⟩
    -- row `j` adds `pn[j] * b` at limb `j`; the limbs below it stay
    have htake : (a.take j).length = j := by rw [List.length_take, hlen]; omega
    have hrow := value_mulAddLoop (pn.getD j 0) (Nat.two_pow_pos 32) (a.drop j) b
    rw [Nat.zero_add, List.length_drop, hlen] at hrow
    refine ⟨by rw [List.length_append, length_mulAddLoop, htake, List.length_drop, hlen]; omega, ?_⟩
    have hsplit : 2 ^ (32 * pn.length) = 2 ^ (32 * j) * 2 ^ (32 * (pn.length - j)) := by
      rw [← Nat.pow_add]
      congr 1
      omega
    rw [value_append, htake, hrow, ← add_mul_mod_mul_of_lt (value_take_lt a j), ← hsplit,
      value_take_succ, Nat.mul_add (2 ^ (32 * j)), ← Nat.add_assoc, ← value_take_append_drop, hval,
      Nat.add_mul, Nat.mod_add_mod]
    congr 1
    ring
  rw [hrows.2, List.take_of_length_le (Nat.le_refl _)]

/-! ## Shifts -/

/-- Iteration `i` of `operator<<=` ors into limb `p` the high part of limb
    `i` if `p = i + k + 1`, and its low part if `p = i + k`. -/
theorem shiftLeftStep_getD (a : List UInt32) (k s : Nat) {pn : List UInt32}
    (hpn : pn.length = a.length) (i : Nat) {p : Nat} (hp : p < a.length) :
    (shiftLeftStep a k s pn i).getD p 0 = pn.getD p 0 |||
      ((if p = i + k + 1 ∧ s ≠ 0 then a.getD i 0 >>> UInt32.ofNat (32 - s) else 0) |||
        (if p = i + k then a.getD i 0 <<< UInt32.ofNat s else 0)) := by
  have hp' : p < pn.length := hpn ▸ hp
  have hp'' : ∀ j (f : UInt32 → UInt32), p < (pn.modify j f).length := fun j f => by
    rw [List.length_modify]; exact hp'
  unfold shiftLeftStep
  dsimp only
  by_cases hA : p = i + k
  · -- the low part of limb `i` lands here; its high part, if any, one limb up
    subst hA
    have hne : i + k + 1 ≠ i + k := Nat.succ_ne_self _
    rw [if_pos hp, if_neg (show ¬(i + k = i + k + 1 ∧ s ≠ 0) from fun h => hne h.1.symm),
      if_pos rfl, UInt32.zero_or]
    split
    · rw [Lists.getD_modify _ _ _ (hp'' _ _), if_pos rfl, Lists.getD_modify _ _ _ hp', if_neg hne]
    · rw [Lists.getD_modify _ _ _ hp', if_pos rfl]
  · by_cases hB : p = i + k + 1 ∧ s ≠ 0
    · -- the high part of limb `i` lands here
      obtain ⟨rfl, hs⟩ := hB
      have hne : i + k ≠ i + k + 1 := Nat.ne_of_lt (Nat.lt_succ_self _)
      rw [if_pos (show i + k < a.length by omega), if_pos (show i + k + 1 < a.length ∧ s ≠ 0 from ⟨hp, hs⟩),
        if_pos (show i + k + 1 = i + k + 1 ∧ s ≠ 0 from ⟨rfl, hs⟩), if_neg hA, UInt32.or_zero,
        Lists.getD_modify _ _ _ (hp'' _ _), if_neg hne, Lists.getD_modify _ _ _ hp', if_pos rfl]
    · -- limb `i` leaves this limb as it is
      rw [if_neg hB, if_neg hA, UInt32.or_zero, UInt32.or_zero]
      have hA' : i + k ≠ p := Ne.symm hA
      by_cases hc1 : i + k + 1 < a.length ∧ s ≠ 0
      · have hB' : i + k + 1 ≠ p := fun h => hB ⟨h.symm, hc1.2⟩
        rw [if_pos hc1, if_pos (show i + k < a.length by omega), Lists.getD_modify _ _ _ (hp'' _ _),
          if_neg hA', Lists.getD_modify _ _ _ hp', if_neg hB']
      · rw [if_neg hc1]
        split
        · rw [Lists.getD_modify _ _ _ hp', if_neg hA']
        · rfl

/-- After `n` iterations of the loop of `operator<<=`, limb `p` holds the
    high part of limb `p - k - 1` and the low part of limb `p - k`, of the
    limbs the loop has reached. -/
theorem shiftLeftFold_getD (a : List UInt32) (k s n : Nat) :
    ((List.range n).foldl (shiftLeftStep a k s) (List.replicate a.length 0)).length = a.length ∧
    ∀ p < a.length, ((List.range n).foldl (shiftLeftStep a k s) (List.replicate a.length 0)).getD p 0 =
      (if k + 1 ≤ p ∧ p - k - 1 < n ∧ s ≠ 0 then a.getD (p - k - 1) 0 >>> UInt32.ofNat (32 - s) else 0) |||
        (if k ≤ p ∧ p - k < n then a.getD (p - k) 0 <<< UInt32.ofNat s else 0) := by
  apply Fold.foldl_range_inv (fun n (pn : List UInt32) => pn.length = a.length ∧ ∀ p < a.length,
    pn.getD p 0 =
      (if k + 1 ≤ p ∧ p - k - 1 < n ∧ s ≠ 0 then a.getD (p - k - 1) 0 >>> UInt32.ofNat (32 - s) else 0) |||
        (if k ≤ p ∧ p - k < n then a.getD (p - k) 0 <<< UInt32.ofNat s else 0))
    n ⟨List.length_replicate, fun p _ => by simp⟩
  rintro i pn - ⟨hlen, hpn⟩
  refine ⟨by rw [length_shiftLeftStep, hlen], fun p hp => ?_⟩
  rw [shiftLeftStep_getD a k s hlen i hp, hpn p hp]
  by_cases hB : p = i + k + 1 ∧ s ≠ 0
  · -- the high part of limb `i` arrives
    rw [if_pos hB, if_neg (show p ≠ i + k by omega), UInt32.or_zero,
      if_neg (show ¬(k + 1 ≤ p ∧ p - k - 1 < i ∧ s ≠ 0) by omega), if_neg (show ¬(k ≤ p ∧ p - k < i) by omega),
      UInt32.zero_or, UInt32.zero_or, if_pos (show k + 1 ≤ p ∧ p - k - 1 < i + 1 ∧ s ≠ 0 by omega),
      if_neg (show ¬(k ≤ p ∧ p - k < i + 1) by omega), UInt32.or_zero, show p - k - 1 = i by omega]
  · by_cases hA : p = i + k
    · -- the low part of limb `i` arrives; the high part of limb `i - 1` is already here
      rw [if_neg hB, if_pos hA, UInt32.zero_or, if_neg (show ¬(k ≤ p ∧ p - k < i) by omega),
        UInt32.or_zero, if_pos (show k ≤ p ∧ p - k < i + 1 by omega), show p - k = i by omega]
      congr 2
      exact propext (by omega)
    · rw [if_neg hB, if_neg hA, UInt32.or_zero, UInt32.or_zero]
      congr 2
      · exact propext (by omega)
      · exact propext (by omega)

/-- The bits of a limb shifted up within its 32 bits. -/
theorem testBit_shiftLeft_limb (x : UInt32) {s : Nat} (hs : s < 32) (b : Nat) :
    (x <<< UInt32.ofNat s).toNat.testBit b = (decide (b < 32) && (decide (s ≤ b) && x.toNat.testBit (b - s))) := by
  rw [UInt32.toNat_shiftLeft, UInt32.toNat_ofNat', Nat.mod_eq_of_lt (show s < 2 ^ 32 by omega),
    Nat.mod_eq_of_lt hs, Nat.testBit_mod_two_pow, Nat.testBit_shiftLeft]

theorem testBit_shiftRight_limb (x : UInt32) {s : Nat} (hs : s < 32) (b : Nat) :
    (x >>> UInt32.ofNat s).toNat.testBit b = x.toNat.testBit (s + b) := by
  rw [UInt32.toNat_shiftRight, UInt32.toNat_ofNat', Nat.mod_eq_of_lt (show s < 2 ^ 32 by omega),
    Nat.mod_eq_of_lt hs, Nat.testBit_shiftRight]

/-- `operator<<=` multiplies by `2 ^ shift` modulo the width. -/
theorem value_shiftLeftLimbs (a : List UInt32) (shift : Nat) :
    value (shiftLeftLimbs a shift) = value a * 2 ^ shift % 2 ^ (32 * a.length) := by
  have hlen := (shiftLeftFold_getD a (shift / 32) (shift % 32) a.length).1
  have hlimb := (shiftLeftFold_getD a (shift / 32) (shift % 32) a.length).2
  unfold shiftLeftLimbs
  conv_rhs => rw [← hlen]
  apply value_eq_of_testBit
  intro p hp b hb
  rw [hlen] at hp
  have hs : shift % 32 < 32 := Nat.mod_lt _ (by decide)
  have hshift := Nat.div_add_mod shift 32
  rw [hlimb p hp, UInt32.toNat_or, Nat.testBit_or, Nat.testBit_mul_two_pow]
  generalize shift / 32 = k at *
  generalize shift % 32 = s at *
  subst hshift
  by_cases hk : k ≤ p
  · rw [if_pos (show k ≤ p ∧ p - k < a.length by omega), testBit_shiftLeft_limb _ hs, testBit_toNat_getD]
    by_cases hk1 : k + 1 ≤ p ∧ s ≠ 0
    · rw [if_pos (show k + 1 ≤ p ∧ p - k - 1 < a.length ∧ s ≠ 0 by omega),
        testBit_shiftRight_limb _ (by omega), testBit_toNat_getD]
      by_cases hsb : s ≤ b
      · -- from the low part of limb `p - k`
        rw [decide_eq_false (show ¬(32 - s + b < 32) by omega), Bool.false_and, Bool.false_or,
          decide_eq_true hb, decide_eq_true hsb, decide_eq_true (show b - s < 32 by omega),
          decide_eq_true (show 32 * k + s ≤ 32 * p + b by omega),
          show 32 * (p - k) + (b - s) = 32 * p + b - (32 * k + s) by omega]
        rfl
      · -- from the high part of limb `p - k - 1`
        rw [decide_eq_true (show 32 - s + b < 32 by omega), decide_eq_false hsb, Bool.true_and,
          decide_eq_true hb, Bool.false_and, Bool.and_false, Bool.or_false,
          decide_eq_true (show 32 * k + s ≤ 32 * p + b by omega),
          show 32 * (p - k - 1) + (32 - s + b) = 32 * p + b - (32 * k + s) by omega]
        rfl
    · rw [if_neg (show ¬(k + 1 ≤ p ∧ p - k - 1 < a.length ∧ s ≠ 0) by omega), UInt32.toNat_zero,
        Nat.zero_testBit, Bool.false_or, decide_eq_true hb, Bool.true_and]
      by_cases hsb : s ≤ b
      · rw [decide_eq_true hsb, decide_eq_true (show b - s < 32 by omega),
          decide_eq_true (show 32 * k + s ≤ 32 * p + b by omega),
          show 32 * (p - k) + (b - s) = 32 * p + b - (32 * k + s) by omega]
        rfl
      · -- `p = k`, or no bits move up a limb: nothing lands below `shift`
        have hpk : p = k ∨ s = 0 := by omega
        rw [decide_eq_false hsb, Bool.false_and]
        rcases hpk with rfl | rfl
        · rw [decide_eq_false (show ¬(32 * p + s ≤ 32 * p + b) by omega), Bool.false_and]
        · omega
  · -- limbs below `k` stay zero
    rw [if_neg (show ¬(k + 1 ≤ p ∧ p - k - 1 < a.length ∧ s ≠ 0) by omega),
      if_neg (show ¬(k ≤ p ∧ p - k < a.length) by omega), UInt32.toNat_zero, Nat.zero_testBit,
      decide_eq_false (show ¬(32 * k + s ≤ 32 * p + b) by omega), Bool.false_and, Bool.false_or]

/-- Iteration `i` of `operator>>=` ors into limb `p` the low part of limb
    `i` if `p + k + 1 = i`, and its high part if `p + k = i`. -/
theorem shiftRightStep_getD (a : List UInt32) (k s : Nat) {pn : List UInt32}
    (hpn : pn.length = a.length) (i : Nat) {p : Nat} (hp : p < a.length) :
    (shiftRightStep a k s pn i).getD p 0 = pn.getD p 0 |||
      ((if p + k + 1 = i ∧ s ≠ 0 then a.getD i 0 <<< UInt32.ofNat (32 - s) else 0) |||
        (if p + k = i then a.getD i 0 >>> UInt32.ofNat s else 0)) := by
  have hp' : p < pn.length := hpn ▸ hp
  have hp'' : ∀ j (f : UInt32 → UInt32), p < (pn.modify j f).length := fun j f => by
    rw [List.length_modify]; exact hp'
  unfold shiftRightStep
  dsimp only
  by_cases hA : p + k = i
  · -- the high part of limb `i` lands here; its low part, if any, one limb down
    subst hA
    have hne : p + k + 1 ≠ p + k := Nat.succ_ne_self _
    rw [if_pos (show k ≤ p + k by omega), if_neg (show ¬(p + k + 1 = p + k ∧ s ≠ 0) from fun h => hne h.1),
      if_pos rfl, UInt32.zero_or, show p + k - k = p by omega]
    split
    · rename_i hc1
      rw [Lists.getD_modify _ _ _ (hp'' _ _), if_pos rfl, Lists.getD_modify _ _ _ hp',
        if_neg (show p - 1 ≠ p by omega)]
    · rw [Lists.getD_modify _ _ _ hp', if_pos rfl]
  · by_cases hB : p + k + 1 = i ∧ s ≠ 0
    · -- the low part of limb `i` lands here
      obtain ⟨rfl, hs⟩ := hB
      rw [if_pos (show k ≤ p + k + 1 by omega), if_pos (show k + 1 ≤ p + k + 1 ∧ s ≠ 0 from ⟨by omega, hs⟩),
        if_pos (show p + k + 1 = p + k + 1 ∧ s ≠ 0 from ⟨rfl, hs⟩), if_neg hA, UInt32.or_zero,
        Lists.getD_modify _ _ _ (hp'' _ _), if_neg (show p + k + 1 - k ≠ p by omega),
        Lists.getD_modify _ _ _ hp', if_pos (show p + k + 1 - k - 1 = p by omega)]
    · -- limb `i` leaves this limb as it is
      rw [if_neg hB, if_neg hA, UInt32.or_zero, UInt32.or_zero]
      by_cases hc1 : k + 1 ≤ i ∧ s ≠ 0
      · rw [if_pos hc1, if_pos (show k ≤ i by omega), Lists.getD_modify _ _ _ (hp'' _ _),
          if_neg (show i - k ≠ p by omega), Lists.getD_modify _ _ _ hp',
          if_neg (show i - k - 1 ≠ p by omega)]
      · rw [if_neg hc1]
        split
        · rename_i hk
          rw [Lists.getD_modify _ _ _ hp', if_neg (show i - k ≠ p by omega)]
        · rfl

/-- After `n` iterations of the loop of `operator>>=`, limb `p` holds the
    low part of limb `p + k + 1` and the high part of limb `p + k`, of the
    limbs the loop has reached. -/
theorem shiftRightFold_getD (a : List UInt32) (k s n : Nat) :
    ((List.range n).foldl (shiftRightStep a k s) (List.replicate a.length 0)).length = a.length ∧
    ∀ p < a.length, ((List.range n).foldl (shiftRightStep a k s) (List.replicate a.length 0)).getD p 0 =
      (if p + k + 1 < n ∧ s ≠ 0 then a.getD (p + k + 1) 0 <<< UInt32.ofNat (32 - s) else 0) |||
        (if p + k < n then a.getD (p + k) 0 >>> UInt32.ofNat s else 0) := by
  apply Fold.foldl_range_inv (fun n (pn : List UInt32) => pn.length = a.length ∧ ∀ p < a.length,
    pn.getD p 0 =
      (if p + k + 1 < n ∧ s ≠ 0 then a.getD (p + k + 1) 0 <<< UInt32.ofNat (32 - s) else 0) |||
        (if p + k < n then a.getD (p + k) 0 >>> UInt32.ofNat s else 0))
    n ⟨List.length_replicate, fun p _ => by simp⟩
  rintro i pn - ⟨hlen, hpn⟩
  refine ⟨by rw [length_shiftRightStep, hlen], fun p hp => ?_⟩
  rw [shiftRightStep_getD a k s hlen i hp, hpn p hp]
  by_cases hB : p + k + 1 = i ∧ s ≠ 0
  · -- the low part of limb `i` arrives below the high part of limb `i - 1`
    rw [if_pos hB, if_neg (show p + k ≠ i by omega), UInt32.or_zero,
      if_neg (show ¬(p + k + 1 < i ∧ s ≠ 0) by omega), UInt32.zero_or,
      if_pos (show p + k + 1 < i + 1 ∧ s ≠ 0 by omega), if_pos (show p + k < i by omega),
      if_pos (show p + k < i + 1 by omega), show p + k + 1 = i from hB.1, UInt32.or_comm]
  · by_cases hA : p + k = i
    · -- the high part of limb `i` arrives
      rw [if_neg hB, if_pos hA, UInt32.zero_or, if_neg (show ¬(p + k + 1 < i ∧ s ≠ 0) by omega),
        if_neg (show ¬(p + k < i) by omega), UInt32.zero_or,
        if_neg (show ¬(p + k + 1 < i + 1 ∧ s ≠ 0) by omega), if_pos (show p + k < i + 1 by omega),
        UInt32.zero_or, hA, UInt32.zero_or]
    · rw [if_neg hB, if_neg hA, UInt32.or_zero, UInt32.or_zero]
      congr 2
      · exact propext (by omega)
      · exact propext (by omega)

/-- `operator>>=` divides by `2 ^ shift`. -/
theorem value_shiftRightLimbs (a : List UInt32) (shift : Nat) :
    value (shiftRightLimbs a shift) = value a / 2 ^ shift := by
  have hlen := (shiftRightFold_getD a (shift / 32) (shift % 32) a.length).1
  have hlimb := (shiftRightFold_getD a (shift / 32) (shift % 32) a.length).2
  have hlt : value a / 2 ^ shift < 2 ^ (32 * a.length) :=
    Nat.lt_of_le_of_lt (Nat.div_le_self _ _) (value_lt a)
  unfold shiftRightLimbs
  rw [← Nat.mod_eq_of_lt hlt]
  conv_rhs => rw [← hlen]
  apply value_eq_of_testBit
  intro p hp b hb
  rw [hlen] at hp
  have hs : shift % 32 < 32 := Nat.mod_lt _ (by decide)
  have hshift := Nat.div_add_mod shift 32
  rw [hlimb p hp, UInt32.toNat_or, Nat.testBit_or, Nat.testBit_div_two_pow]
  generalize shift / 32 = k at *
  generalize shift % 32 = s at *
  subst hshift
  by_cases hsb : s + b < 32
  · -- from the high part of limb `p + k`
    have hhi : (if p + k + 1 < a.length ∧ s ≠ 0 then a.getD (p + k + 1) 0 <<< UInt32.ofNat (32 - s)
        else 0).toNat.testBit b = false := by
      split
      · rw [testBit_shiftLeft_limb _ (by omega), decide_eq_false (show ¬(32 - s ≤ b) by omega),
          Bool.false_and, Bool.and_false]
      · rw [UInt32.toNat_zero, Nat.zero_testBit]
    rw [hhi, Bool.false_or]
    split
    · rw [testBit_shiftRight_limb _ hs, testBit_toNat_getD, decide_eq_true hsb, Bool.true_and,
        show 32 * (p + k) + (s + b) = 32 * p + b + (32 * k + s) by omega]
    · rw [UInt32.toNat_zero, Nat.zero_testBit, testBit_value_of_le a (by omega)]
  · -- from the low part of limb `p + k + 1`
    have hlo : (if p + k < a.length then a.getD (p + k) 0 >>> UInt32.ofNat s else 0).toNat.testBit b
        = false := by
      split
      · rw [testBit_shiftRight_limb _ hs, testBit_toNat_getD, decide_eq_false hsb, Bool.false_and]
      · rw [UInt32.toNat_zero, Nat.zero_testBit]
    rw [hlo, Bool.or_false]
    split
    · rw [testBit_shiftLeft_limb _ (by omega), testBit_toNat_getD, decide_eq_true hb,
        decide_eq_true (show 32 - s ≤ b by omega), decide_eq_true (show b - (32 - s) < 32 by omega),
        Bool.true_and, Bool.true_and, Bool.true_and,
        show 32 * (p + k + 1) + (b - (32 - s)) = 32 * p + b + (32 * k + s) by omega]
    · rename_i hout
      rw [UInt32.toNat_zero, Nat.zero_testBit, testBit_value_of_le a (by omega)]

/-! ## Negation, comparison and bits -/

/-- `operator++` adds one modulo the width. -/
theorem value_incLoop (ps : List UInt32) :
    value (incLoop ps) = (value ps + 1) % 2 ^ (32 * ps.length) := by
  induction ps with
  | nil => rfl
  | cons p ps ih =>
    have hps := value_lt ps
    have hinc : (p + 1).toNat = (p.toNat + 1) % 2 ^ 32 := by
      rw [UInt32.toNat_add, UInt32.toNat_one]
    have hp := p.toNat_lt
    unfold incLoop
    split
    · -- `p` was `0xffffffff`: the one carries into the limbs above
      rename_i hwrap
      have hp1 : p.toNat = 2 ^ 32 - 1 := by
        have := congrArg UInt32.toNat hwrap
        rw [hinc, UInt32.toNat_zero] at this
        omega
      rw [value_cons, value_cons, ih, hwrap, UInt32.toNat_zero, Nat.zero_add, List.length_cons, hp1,
        ← two_pow_limbs_succ, show 2 ^ 32 - 1 + 2 ^ 32 * value ps + 1 = 2 ^ 32 * (value ps + 1) by omega,
        Nat.mul_mod_mul_left]
    · rename_i hnowrap
      have hp1 : p.toNat + 1 < 2 ^ 32 := by
        by_contra hge
        apply hnowrap
        apply UInt32.toNat_inj.mp
        rw [hinc, UInt32.toNat_zero]
        omega
      rw [value_cons, value_cons, hinc, Nat.mod_eq_of_lt hp1, List.length_cons, ← two_pow_limbs_succ,
        show p.toNat + 2 ^ 32 * value ps + 1 = p.toNat + 1 + 2 ^ 32 * value ps by omega,
        add_mul_mod_mul_of_lt hp1, Nat.mod_eq_of_lt hps]

/-- Complementing every limb subtracts from `2 ^ (32 * n) - 1`. -/
theorem value_map_not (ps : List UInt32) :
    value (ps.map (~~~ ·)) = 2 ^ (32 * ps.length) - 1 - value ps := by
  induction ps with
  | nil => rfl
  | cons p ps ih =>
    have hp := p.toNat_lt
    have hps := value_lt ps
    rw [List.map_cons, value_cons, value_cons, ih, UInt32.toNat_not, List.length_cons,
      ← two_pow_limbs_succ]
    generalize 2 ^ (32 * ps.length) = M at hps ⊢
    show 2 ^ 32 - 1 - p.toNat + 2 ^ 32 * (M - 1 - value ps) = 2 ^ 32 * M - 1 - (p.toNat + 2 ^ 32 * value ps)
    omega

/-- The loop of `CompareTo` over limb lists of one length, read from the
    top limb down, compares the numbers they stand for. -/
theorem compareLoop_eq {xs ys : List UInt32} (h : xs.length = ys.length) :
    compareLoop xs ys =
      if value xs.reverse < value ys.reverse then -1
      else if value ys.reverse < value xs.reverse then 1 else 0 := by
  induction xs generalizing ys with
  | nil =>
    cases ys with
    | nil => rfl
    | cons y ys => cases h
  | cons x xs ih =>
    cases ys with
    | nil => cases h
    | cons y ys =>
      have hlen : xs.reverse.length = ys.reverse.length := by
        rw [List.length_reverse, List.length_reverse]
        simpa using h
      have hxy := value_concat_lt_iff hlen x y
      have hyx := value_concat_lt_iff hlen.symm y x
      rw [compareLoop, List.reverse_cons, List.reverse_cons]
      by_cases hlt : x < y
      · rw [if_pos hlt, if_pos (hxy.mpr (Or.inl hlt))]
      · by_cases hgt : y < x
        · rw [if_neg hlt, if_pos hgt,
            if_neg (fun h => (hxy.mp h).elim hlt fun h' => absurd h'.1 (UInt32.ne_of_lt hgt).symm),
            if_pos (hyx.mpr (Or.inl hgt))]
        · -- equal top limbs: the limbs below decide
          have heq : x = y := UInt32.le_antisymm (UInt32.not_lt.mp hgt) (UInt32.not_lt.mp hlt)
          subst heq
          rw [if_neg hlt, if_neg hgt, ih (by simpa using h)]
          simp only [hxy, hyx, hlt, false_or, true_and]

/-- The first bit set in a limb below `2 ^ (n + 1)`, counted from `n` down,
    is its top bit. -/
theorem bitsLimb_eq_size {x : UInt32} (hx : x ≠ 0) :
    ∀ n, n < 32 → x.toNat < 2 ^ (n + 1) → bitsLimb x n = x.toNat.size := by
  have hx' : x.toNat ≠ 0 := fun h => hx (UInt32.toNat_inj.mp (by rw [h]; rfl))
  intro n
  induction n with
  | zero =>
    intro _ hlt
    have hone : x.toNat = 1 := by omega
    rw [bitsLimb, hone, Nat.size_one]
  | succ n ih =>
    intro hn hlt
    -- `x & (1 << (n + 1))` is bit `n + 1` of `x`
    have hmask : (x &&& 1 <<< UInt32.ofNat (n + 1)).toNat = (x.toNat.testBit (n + 1)).toNat * 2 ^ (n + 1) := by
      rw [UInt32.toNat_and, UInt32.toNat_shiftLeft, UInt32.toNat_one, UInt32.toNat_ofNat',
        Nat.mod_eq_of_lt (show n + 1 < 2 ^ 32 by omega), Nat.mod_eq_of_lt hn, Nat.one_shiftLeft,
        Nat.mod_eq_of_lt (Nat.pow_lt_pow_right (by decide) hn), Nat.and_two_pow]
    rw [bitsLimb]
    cases hbit : x.toNat.testBit (n + 1) with
    | true =>
      have hge := Nat.ge_two_pow_of_testBit hbit
      have hne : x &&& 1 <<< UInt32.ofNat (n + 1) ≠ 0 := by
        intro h0
        have := congrArg UInt32.toNat h0
        rw [hmask, hbit, UInt32.toNat_zero, Bool.toNat_true, Nat.one_mul] at this
        exact absurd this (Nat.pos_iff_ne_zero.mp (Nat.two_pow_pos _))
      rw [if_pos hne]
      apply Nat.le_antisymm
      · exact Nat.lt_size.mpr hge
      · exact Nat.size_le.mpr hlt
    | false =>
      have heq : x &&& 1 <<< UInt32.ofNat (n + 1) = 0 := by
        apply UInt32.toNat_inj.mp
        rw [hmask, hbit, Bool.toNat_false, Nat.zero_mul, UInt32.toNat_zero]
      -- no bit at `n + 1`: the limb is below `2 ^ (n + 1)`
      have hlt' : x.toNat < 2 ^ (n + 1) := by
        apply Nat.lt_pow_two_of_testBit
        intro i hi
        by_cases hin : i = n + 1
        · rw [hin, hbit]
        · exact Nat.testBit_lt_two_pow (Nat.lt_of_lt_of_le hlt (Nat.pow_le_pow_right (by decide) (by omega)))
      rw [if_neg (fun h => h heq)]
      exact ih (by omega) hlt'

/-- `bits()` over the limbs below `pos` is the size of the number they stand
    for. -/
theorem bitsLoop_eq_size (pn : List UInt32) :
    ∀ pos, pos ≤ pn.length → bitsLoop pn pos = (value (pn.take pos)).size := by
  intro pos
  induction pos with
  | zero => intro _; rfl
  | succ pos ih =>
    intro hpos
    rw [bitsLoop, value_take_succ]
    split
    · rename_i hx
      have hlimb : (pn.getD pos 0).toNat < 2 ^ (31 + 1) := (pn.getD pos 0).toNat_lt
      rw [bitsLimb_eq_size hx 31 (by decide) hlimb,
        size_add_two_pow_mul (value_take_lt pn pos) (fun h => hx (UInt32.toNat_inj.mp (by rw [h]; rfl)))]
    · rename_i hx
      rw [not_not] at hx
      rw [hx, UInt32.toNat_zero, Nat.mul_zero, Nat.add_zero]
      exact ih (by omega)

/-! ## The operators -/

variable {BITS : Nat}

theorem toNat_lt (a : BaseUint BITS) : a.toNat < 2 ^ (32 * (BITS / 32)) := by
  unfold toNat
  rw [← a.pn_length]
  exact value_lt a.pn

@[simp] theorem toNat_zero : (zero : BaseUint BITS).toNat = 0 := value_replicate_zero _

/-- `base_uint(uint64_t b)` holds `b`, given the two limbs it writes. -/
theorem toNat_ofUInt64 (hW : 2 ≤ BITS / 32) {b : Nat} (hb : b < 2 ^ 64) :
    (ofUInt64 b : BaseUint BITS).toNat = b := by
  obtain ⟨w, hw⟩ : ∃ w, BITS / 32 = w + 2 := ⟨BITS / 32 - 2, by omega⟩
  unfold ofUInt64 toNat
  dsimp only
  rw [hw, List.replicate_succ, List.replicate_succ, List.set_cons_zero, List.set_cons_succ,
    List.set_cons_zero, value_cons, value_cons, value_replicate_zero, UInt32.toNat_ofNat',
    UInt32.toNat_ofNat', Nat.shiftRight_eq_div_pow, Nat.mul_zero, Nat.add_zero,
    ← Nat.mod_mul, ← Nat.pow_add, Nat.mod_eq_of_lt hb]

/-- `GetLow64()` is the number modulo `2 ^ 64`. -/
theorem getLow64_eq (a : BaseUint BITS) : a.getLow64 = a.toNat % 2 ^ 64 := by
  unfold getLow64
  have hlow := (a.pn.getD 0 0).toNat_lt
  rw [Nat.or_comm, ← Nat.shiftLeft_add_eq_or_of_lt hlow, Nat.shiftLeft_eq, toNat_getD, toNat_getD,
    show (2 : Nat) ^ 64 = 2 ^ 32 * 2 ^ 32 from rfl, Nat.mod_mul, Nat.mul_zero, Nat.pow_zero, Nat.div_one,
    Nat.mul_one]
  unfold toNat
  ring

/-- `operator<<=` computes `a * 2 ^ shift` modulo `2 ^ BITS`. -/
theorem toNat_shiftLeft (a : BaseUint BITS) (shift : Nat) :
    (a.shiftLeft shift).toNat = a.toNat * 2 ^ shift % 2 ^ (32 * (BITS / 32)) := by
  unfold shiftLeft toNat
  rw [value_shiftLeftLimbs, a.pn_length]

/-- `operator>>=` computes `a / 2 ^ shift`. -/
theorem toNat_shiftRight (a : BaseUint BITS) (shift : Nat) :
    (a.shiftRight shift).toNat = a.toNat / 2 ^ shift :=
  value_shiftRightLimbs a.pn shift

theorem toNat_add (a b : BaseUint BITS) :
    (a.add b).toNat = (a.toNat + b.toNat) % 2 ^ (32 * (BITS / 32)) := by
  unfold add toNat
  rw [value_addLoop (Nat.two_pow_pos 32), Nat.zero_add, a.pn_length]

/-- Unary `operator-` is the two's complement. -/
theorem toNat_neg (b : BaseUint BITS) :
    b.neg.toNat = (2 ^ (32 * (BITS / 32)) - b.toNat) % 2 ^ (32 * (BITS / 32)) := by
  have hb := b.toNat_lt
  unfold neg toNat
  unfold toNat at hb
  rw [value_incLoop, value_map_not, List.length_map, b.pn_length]
  congr 1
  omega

/-- `operator-=` subtracts modulo `2 ^ BITS`. -/
theorem toNat_sub (a b : BaseUint BITS) :
    (a.sub b).toNat = (a.toNat + 2 ^ (32 * (BITS / 32)) - b.toNat) % 2 ^ (32 * (BITS / 32)) := by
  have hb := b.toNat_lt
  rw [sub, toNat_add, toNat_neg, Nat.add_mod_mod, Nat.add_sub_assoc (Nat.le_of_lt hb)]

theorem toNat_sub_of_le {a b : BaseUint BITS} (h : b.toNat ≤ a.toNat) :
    (a.sub b).toNat = a.toNat - b.toNat := by
  have ha := a.toNat_lt
  rw [toNat_sub, show a.toNat + 2 ^ (32 * (BITS / 32)) - b.toNat =
      a.toNat - b.toNat + 2 ^ (32 * (BITS / 32)) * 1 by omega, Nat.add_mul_mod_self_left,
    Nat.mod_eq_of_lt (by omega)]

theorem toNat_mulU32 (a : BaseUint BITS) (b32 : UInt32) :
    (a.mulU32 b32).toNat = a.toNat * b32.toNat % 2 ^ (32 * (BITS / 32)) := by
  unfold mulU32 toNat
  rw [value_mulU32Loop b32 (Nat.two_pow_pos 32), Nat.zero_add, a.pn_length, Nat.mul_comm]

theorem toNat_mul (a b : BaseUint BITS) :
    (a.mul b).toNat = a.toNat * b.toNat % 2 ^ (32 * (BITS / 32)) := by
  unfold mul toNat
  rw [value_mulLimbs, a.pn_length]

/-- `CompareTo` orders as the numbers do. -/
theorem compareTo_eq (a b : BaseUint BITS) :
    a.compareTo b = if a.toNat < b.toNat then -1 else if b.toNat < a.toNat then 1 else 0 := by
  unfold compareTo toNat
  rw [compareLoop_eq (by rw [List.length_reverse, List.length_reverse, a.pn_length, b.pn_length]),
    List.reverse_reverse, List.reverse_reverse]

theorem compareTo_nonneg_iff (a b : BaseUint BITS) : 0 ≤ a.compareTo b ↔ b.toNat ≤ a.toNat := by
  rw [compareTo_eq]
  split
  · rename_i hlt
    simp only [Int.reduceNeg, Left.nonneg_neg_iff, Int.reduceLE, false_iff, Nat.not_le]
    exact hlt
  · rename_i hge
    constructor
    · intro _
      omega
    · intro _
      split <;> decide

theorem compareTo_pos_iff (a b : BaseUint BITS) : 0 < a.compareTo b ↔ b.toNat < a.toNat := by
  rw [compareTo_eq]
  by_cases hlt : a.toNat < b.toNat
  · rw [if_pos hlt]
    exact ⟨fun h => absurd h (by decide), fun h => absurd hlt (by omega)⟩
  · rw [if_neg hlt]
    split
    · exact ⟨fun _ => ‹_›, fun _ => by decide⟩
    · exact ⟨fun h => absurd h (by decide), fun h => by omega⟩

/-- `bits()` is the size of the number. -/
theorem bits_eq_size (a : BaseUint BITS) : a.bits = a.toNat.size := by
  unfold bits toNat
  rw [bitsLoop_eq_size a.pn (BITS / 32) (by rw [a.pn_length]), ← a.pn_length,
    List.take_of_length_le (Nat.le_refl _)]

/-- Setting bit `shift` of the quotient is an or with `2 ^ shift`. -/
theorem toNat_setBit (q : BaseUint BITS) {shift : Nat} (hs : shift < 32 * (BITS / 32)) :
    (q.setBit shift).toNat = q.toNat ||| 2 ^ shift := by
  have hq := q.toNat_lt
  have hor : q.toNat ||| 2 ^ shift < 2 ^ (32 * (BITS / 32)) :=
    Nat.or_lt_two_pow hq (Nat.pow_lt_pow_right (by decide) hs)
  unfold setBit
  unfold toNat at hq hor ⊢
  rw [← Nat.mod_eq_of_lt hor, ← q.pn_length, ← List.length_modify (· ||| 1 <<< UInt32.ofNat (shift &&& 31)) q.pn (shift / 32)]
  apply value_eq_of_testBit
  intro p hp b hb
  rw [List.length_modify] at hp
  have hbit : shift &&& 31 = shift % 32 := Nat.and_two_pow_sub_one_eq_mod shift 5
  rw [Lists.getD_modify _ _ _ hp, Nat.testBit_or, Nat.testBit_two_pow]
  split
  · rename_i hp'
    rw [UInt32.toNat_or, Nat.testBit_or, testBit_toNat_getD, UInt32.toNat_shiftLeft, UInt32.toNat_one,
      UInt32.toNat_ofNat', hbit, Nat.mod_eq_of_lt (show shift % 32 < 2 ^ 32 by omega),
      Nat.mod_eq_of_lt (Nat.mod_lt _ (by decide)), Nat.one_shiftLeft,
      Nat.mod_eq_of_lt (Nat.pow_lt_pow_right (by decide) (Nat.mod_lt _ (by decide))), Nat.testBit_two_pow,
      decide_eq_true hb, Bool.true_and]
    congr 1
    exact decide_eq_decide.mpr (by omega)
  · rename_i hp'
    rw [testBit_toNat_getD, decide_eq_true hb, Bool.true_and, decide_eq_false (by omega), Bool.or_false]

/-! ## Division -/

/-- With `n` rounds of long division left, the remainder is below
    `b * 2 ^ n`, the quotient has no bits below `n`, and the divisor stands at
    bit `n - 1`; then the loop ends with `(num + q * b) / b`. -/
theorem toNat_divLoop {B : Nat} (hB : 0 < B) (n : Nat) :
    ∀ (num div q : BaseUint BITS), num.toNat < B * 2 ^ n → q.toNat % 2 ^ n = 0 →
      (∀ m, n = m + 1 → div.toNat = B * 2 ^ m ∧ m < 32 * (BITS / 32)) →
      (divLoop num div q n).toNat = (num.toNat + q.toNat * B) / B := by
  induction n with
  | zero =>
    intro num div q hnum _ _
    rw [divLoop, Nat.add_mul_div_right _ _ hB, Nat.div_eq_of_lt (by simpa using hnum), Nat.zero_add]
  | succ n ih =>
    intro num div q hnum hq hdiv
    obtain ⟨hdivn, hn⟩ := hdiv n rfl
    -- the divisor for the rounds below: one bit down
    have hdiv' : ∀ m, n = m + 1 → (div.shiftRight 1).toNat = B * 2 ^ m ∧ m < 32 * (BITS / 32) := by
      rintro m rfl
      refine ⟨?_, by omega⟩
      rw [toNat_shiftRight, hdivn, Nat.pow_succ, ← Nat.mul_assoc, Nat.pow_one, Nat.mul_div_cancel _ (by decide)]
    have hqn : q.toNat % 2 ^ n = 0 :=
      Nat.mod_eq_zero_of_dvd (Nat.dvd_trans (Nat.pow_dvd_pow 2 (Nat.le_succ n)) (Nat.dvd_of_mod_eq_zero hq))
    rw [divLoop]
    by_cases hge : div.toNat ≤ num.toNat
    · -- `num >= div`: subtract, and set bit `n` of the quotient
      rw [if_pos ((compareTo_nonneg_iff num div).mpr hge)]
      obtain ⟨m, hm⟩ := Nat.dvd_of_mod_eq_zero hq
      have hset : (q.setBit n).toNat = q.toNat + 2 ^ n := by
        rw [toNat_setBit q hn, hm, ← Nat.two_pow_add_eq_or_of_lt (Nat.pow_lt_pow_right (by decide) (Nat.lt_succ_self n))]
      have hsub := toNat_sub_of_le hge
      have htwice : B * 2 ^ (n + 1) = 2 * (B * 2 ^ n) := by rw [Nat.pow_succ]; ring
      rw [hdivn] at hge hsub
      rw [ih _ _ _ (by rw [hsub]; omega)
          (by rw [hset, Nat.add_mod, hqn, Nat.mod_self, Nat.add_zero, Nat.zero_mod]) hdiv',
        hsub, hset, Nat.add_mul, Nat.mul_comm (2 ^ n) B]
      congr 1
      omega
    · -- `num < div`: the bit stays clear
      rw [if_neg (fun h => hge ((compareTo_nonneg_iff num div).mp h))]
      exact ih _ _ _ (by rw [hdivn] at hge; omega) hqn hdiv'

/-- `operator/=` throws exactly on a zero divisor, and otherwise computes
    the quotient. -/
theorem div_spec (a b : BaseUint BITS) :
    (b.toNat = 0 → a.div b = .error "Division by zero") ∧
      (b.toNat ≠ 0 → ∃ q, a.div b = .ok q ∧ q.toNat = a.toNat / b.toNat) := by
  have hsizeB : b.bits = 0 ↔ b.toNat = 0 := by rw [bits_eq_size, Nat.size_eq_zero]
  refine ⟨fun h0 => ?_, fun h0 => ?_⟩
  · unfold div
    rw [if_pos (hsizeB.mpr h0)]
  · unfold div
    rw [if_neg (fun h => h0 (hsizeB.mp h))]
    dsimp only
    split
    · -- more bits in the divisor than in the number: the quotient is zero
      rename_i hgt
      refine ⟨zero, rfl, ?_⟩
      rw [bits_eq_size, bits_eq_size] at hgt
      have hlt : a.toNat < b.toNat := by
        by_contra hle
        exact Nat.lt_irrefl _ (Nat.lt_of_lt_of_le hgt (Nat.size_le_size (Nat.le_of_not_lt hle)))
      rw [toNat_zero, Nat.div_eq_of_lt hlt]
    · rename_i hle
      refine ⟨_, rfl, ?_⟩
      rw [bits_eq_size, bits_eq_size] at hle ⊢
      rw [Nat.not_lt] at hle
      -- the divisor shifted to the top bit of the number, and `num < b * 2 ^ (shift + 1)`
      have hB : 0 < b.toNat := Nat.pos_of_ne_zero h0
      have hBsize := Nat.size_pos.mpr hB
      have hBlt : b.toNat < 2 ^ b.toNat.size := Nat.lt_size_self _
      have hBge : 2 ^ (b.toNat.size - 1) ≤ b.toNat := Nat.lt_size.mp (by omega)
      have hAsize : a.toNat.size ≤ 32 * (BITS / 32) := Nat.size_le.mpr a.toNat_lt
      have hAlt : a.toNat < 2 ^ a.toNat.size := Nat.lt_size_self _
      generalize hs : a.toNat.size - b.toNat.size = shift
      have hpow : 2 ^ a.toNat.size = 2 ^ b.toNat.size * 2 ^ shift := by
        rw [← Nat.pow_add]
        congr 1
        omega
      have hshifted : b.toNat * 2 ^ shift < 2 ^ (32 * (BITS / 32)) :=
        calc b.toNat * 2 ^ shift < 2 ^ b.toNat.size * 2 ^ shift :=
              Nat.mul_lt_mul_of_pos_right hBlt (Nat.two_pow_pos _)
          _ = 2 ^ a.toNat.size := hpow.symm
          _ ≤ 2 ^ (32 * (BITS / 32)) := Nat.pow_le_pow_right (by decide) hAsize
      have hnum : a.toNat < b.toNat * 2 ^ (shift + 1) :=
        calc a.toNat < 2 ^ a.toNat.size := hAlt
          _ = 2 ^ (b.toNat.size - 1) * 2 ^ (shift + 1) := by
            rw [← Nat.pow_add]
            congr 1
            omega
          _ ≤ b.toNat * 2 ^ (shift + 1) := Nat.mul_le_mul_right _ hBge
      rw [toNat_divLoop hB (shift + 1) a (b.shiftLeft shift) zero hnum (by rw [toNat_zero, Nat.zero_mod])
        (fun m hm => ⟨by rw [toNat_shiftLeft, Nat.mod_eq_of_lt hshifted, ← Nat.succ_inj.mp hm],
          by omega⟩), toNat_zero, Nat.zero_mul, Nat.add_zero]

/-- `operator/=` as a whole: an error exactly on a zero divisor, the
    quotient otherwise. -/
theorem div_map_toNat (a b : BaseUint BITS) :
    (a.div b).map toNat =
      if b.toNat = 0 then .error "Division by zero" else .ok (a.toNat / b.toNat) := by
  by_cases h0 : b.toNat = 0
  · rw [if_pos h0, (div_spec a b).1 h0]
    rfl
  · obtain ⟨q, hq, hval⟩ := (div_spec a b).2 h0
    rw [if_neg h0, hq, ← hval]
    rfl

/-! ## `toNat` is a bijection onto `[0, 2 ^ BITS)` -/

theorem toNat_injective : Function.Injective (toNat : BaseUint BITS → Nat) := by
  rintro ⟨pa, ha⟩ ⟨pb, hb⟩ h
  unfold toNat at h
  dsimp only at h
  congr 1
  apply List.ext_getElem (by rw [ha, hb])
  intro i hia hib
  -- every limb is a digit of the number
  have hlimb := toNat_getD pa i
  rw [h, ← toNat_getD pb i, List.getD_eq_getElem _ _ hia, List.getD_eq_getElem _ _ hib] at hlimb
  exact UInt32.toNat_inj.mp hlimb

theorem exists_toNat_eq (n : Fin (2 ^ (32 * (BITS / 32)))) : ∃ a : BaseUint BITS, a.toNat = n.val := by
  -- the limbs of `n` are its digits in base `2 ^ 32`
  refine ⟨⟨(List.range (BITS / 32)).map fun i => UInt32.ofNat (n.val / 2 ^ (32 * i)), by simp⟩, ?_⟩
  unfold toNat
  dsimp only
  rw [value_eq_of_toNat_getD, List.length_map, List.length_range, Nat.mod_eq_of_lt n.isLt]
  intro i hi
  rw [List.length_map, List.length_range] at hi
  rw [List.getD_eq_getElem _ _ (by simpa using hi), List.getElem_map, List.getElem_range,
    UInt32.toNat_ofNat']

end BaseUint

open BaseUint in
/-- `arith_uint256` computes natural-number arithmetic modulo `2 ^ 256`: its
    values are the numbers below `2 ^ 256`, and its products, quotients,
    shifts and comparisons are theirs. -/
theorem arithUint256_refines_nat :
    (∀ n : Fin (2 ^ 256), ∃ a : ArithUint256, a.toNat = n.val) ∧
    (∀ a b : ArithUint256, (a.mul b).toNat = a.toNat * b.toNat % 2 ^ 256) ∧
    (∀ (a : ArithUint256) (m : UInt32), (a.mulU32 m).toNat = a.toNat * m.toNat % 2 ^ 256) ∧
    (∀ a b : ArithUint256, (a.div b).map toNat =
      if b.toNat = 0 then .error "Division by zero" else .ok (a.toNat / b.toNat)) ∧
    (∀ (a : ArithUint256) (k : Nat), (a.shiftLeft k).toNat = a.toNat * 2 ^ k % 2 ^ 256) ∧
    (∀ (a : ArithUint256) (k : Nat), (a.shiftRight k).toNat = a.toNat / 2 ^ k) ∧
    (∀ a b : ArithUint256,
      a.compareTo b = if a.toNat < b.toNat then -1 else if b.toNat < a.toNat then 1 else 0) :=
  ⟨fun n => @exists_toNat_eq 256 n, toNat_mul, toNat_mulU32, div_map_toNat, toNat_shiftLeft, toNat_shiftRight,
    compareTo_eq⟩

end Revo
