/-
  Revo.Pow.MulExpProofs

  `mul_exp(a, p, q)` for every target `a` and every `0 < q`, `|p| ≤ q`, the
  calls `CalculateNextWorkRequired` makes.

    * `mulExpLoop_values`: the limb loop computes on the values of its
      operands, the product and the sums modulo `2 ^ 256` and the counter
      modulo `2 ^ 64` (`mulExpValues`).
    * With `|p| ≤ q` each term is at most the one before over its index, also
      when `a * abs_p` wraps (`wrapTerm_mul_le`), so `t * 2 ^ n ≤ 2 * a`
      (`ExpSeries.TermInv`): the terms are `0` from the `257`-th on, and the
      counter never wraps.  The loop then computes the series
      `ExpSeries.runWith` of these terms modulo `2 ^ 256`, and ends within
      `257` rounds.
    * For `p < 0` the partial sums stay in `[0, a]` (`ExpSeries.NegInv`), and
      for `p ≥ 0` within `3 * a` (`ExpSeries.SumInv`): there no sum wraps
      while `3 * a < 2 ^ 256`.  A target near `2 ^ 256` makes a positive sum
      wrap (`mulExp_max_wraps`).
-/

import Revo.Pow.Pow
import Revo.Arith.ArithUint256Proofs
import Revo.Lib.ExpSeries

namespace Revo

open BaseUint ArithUint256 ExpSeries

/-! ## Operands -/

theorem toNat_ofUInt64_256 {b : Nat} (hb : b < 2 ^ 64) : (ofUInt64 b : ArithUint256).toNat = b :=
  toNat_ofUInt64 (by decide) hb

theorem compareTo_zero_pos_iff (a : ArithUint256) : a.compareTo (ofUInt64 0) > 0 ↔ 0 < a.toNat := by
  rw [gt_iff_lt, compareTo_pos_iff, toNat_ofUInt64_256 (by decide)]

theorem toNat_lt_256 (a : ArithUint256) : a.toNat < 2 ^ 256 := a.toNat_lt

/-- `Except.map toNat` forgets nothing. -/
theorem map_toNat_injective {x y : Except String ArithUint256} (h : x.map toNat = y.map toNat) : x = y := by
  cases x with
  | error e =>
    cases y with
    | error e' => exact congrArg Except.error (Except.error.inj h)
    | ok b => cases h
  | ok a =>
    cases y with
    | error e' => cases h
    | ok b => exact congrArg Except.ok (toNat_injective (Except.ok.inj h))

theorem exists_of_map_toNat_eq_ok {x : Except String ArithUint256} {v : Nat} (h : x.map toNat = .ok v) :
    ∃ r, x = .ok r ∧ r.toNat = v := by
  cases x with
  | error e => cases h
  | ok r => exact ⟨r, rfl, Except.ok.inj h⟩

/-! ## The loop on values -/

/-- The loop of `mul_exp` on the values of its operands: the product and
    the sums modulo `2 ^ 256`, the counter modulo `2 ^ 64`, and a division
    by `0` fails. -/
def mulExpValues (abs_p q : Nat) (isNegative : Bool) : Nat → Nat → Nat → Nat → Except String Nat
  | 0, _, result, _ => .ok result
  | fuel + 1, a, result, n =>
    if 0 < a then
      let n := (n + 1) % 2 ^ 64
      if q = 0 ∨ n = 0 then .error "Division by zero"
      else
        let a := a * (abs_p % 2 ^ 32) % 2 ^ 256 / q / n
        let result := if isNegative && n % 2 == 1 then (result + 2 ^ 256 - a) % 2 ^ 256
          else (result + a) % 2 ^ 256
        mulExpValues abs_p q isNegative fuel a result n
    else .ok result

section Values

variable {abs_p q : Nat} {isNegative : Bool}

/-- `operator+=` and `operator-=` on values. -/
theorem toNat_addOrSub (c : Bool) (result b : ArithUint256) :
    (if c then result.sub b else result.add b).toNat =
      if c then (result.toNat + 2 ^ 256 - b.toNat) % 2 ^ 256 else (result.toNat + b.toNat) % 2 ^ 256 := by
  cases c with
  | true => rw [if_pos rfl, if_pos rfl, toNat_sub]
  | false => rw [if_neg Bool.false_ne_true, if_neg Bool.false_ne_true, toNat_add]

/-- The limb loop of `mul_exp` is `mulExpValues` on the values.  Induction
    on the fuel; a round is read off the specifications of `operator*`,
    `operator/`, `operator+=` and `operator-=`. -/
theorem mulExpLoop_values (hq : q < 2 ^ 64) :
    ∀ (fuel : Nat) (a result : ArithUint256) (n : Nat),
      (mulExpLoop abs_p q isNegative fuel a result n).map toNat =
        mulExpValues abs_p q isNegative fuel a.toNat result.toNat n
  | 0, _, _, _ => rfl
  | fuel + 1, a, result, n => by
    by_cases ha : 0 < a.toNat
    · have hn : (n + 1) % 2 ^ 64 < 2 ^ 64 := Nat.mod_lt _ (Nat.two_pow_pos 64)
      rw [mulExpLoop, if_pos ((compareTo_zero_pos_iff a).mpr ha), mulExpValues, if_pos ha]
      dsimp only
      by_cases hq0 : q = 0
      · -- `a * abs_p / q` throws
        rw [if_pos (.inl hq0), (div_spec _ _).1 (by rw [toNat_ofUInt64_256 hq, hq0])]
        rfl
      obtain ⟨a₁, ha₁, hv₁⟩ := (div_spec (a.mulU32 (UInt32.ofNat abs_p)) (ofUInt64 q)).2
        (by rw [toNat_ofUInt64_256 hq]; exact hq0)
      rw [ha₁]
      dsimp only [bind, Except.bind]
      by_cases hn0 : (n + 1) % 2 ^ 64 = 0
      · -- the counter wrapped to `0`: `/ n` throws
        rw [if_pos (.inr hn0), (div_spec _ _).1 (by rw [toNat_ofUInt64_256 hn, hn0])]
        rfl
      obtain ⟨a₂, ha₂, hv₂⟩ := (div_spec a₁ (ofUInt64 ((n + 1) % 2 ^ 64))).2
        (by rw [toNat_ofUInt64_256 hn]; exact hn0)
      have hterm : a₂.toNat = a.toNat * (abs_p % 2 ^ 32) % 2 ^ 256 / q / ((n + 1) % 2 ^ 64) := by
        rw [hv₂, hv₁, toNat_mulU32, UInt32.toNat_ofNat', toNat_ofUInt64_256 hq, toNat_ofUInt64_256 hn]
      rw [if_neg (fun h => h.elim hq0 hn0), ha₂]
      dsimp only
      rw [mulExpLoop_values hq fuel, toNat_addOrSub, hterm]
    · have hcmp : ¬a.compareTo (ofUInt64 0) > 0 := fun h => ha ((compareTo_zero_pos_iff a).mp h)
      rw [mulExpLoop, if_neg hcmp, mulExpValues, if_neg ha]
      rfl

end Values

/-- `mul_exp(a, p, q)` on values. -/
theorem mulExp_values (a : ArithUint256) (p q : Int) :
    (mulExp a p q).map toNat =
      mulExpValues ((if p ≥ 0 then p else -p).toNat % 2 ^ 64) (q % 2 ^ 64).toNat (decide (p < 0)) (2 ^ 64)
        a.toNat a.toNat 0 :=
  mulExpLoop_values (by omega) _ a a 0

/-! ## The terms -/

/-- The term after `t` the loop computes at the index `n`: `t * abs_p`
    modulo `2 ^ 256`, `abs_p` cut to the `uint32_t` of `operator*`. -/
def wrapTerm (abs_p q t n : Nat) : Nat := t * (abs_p % 2 ^ 32) % 2 ^ 256 / q / n

/-- With `abs_p ≤ q` a term is at most the one before over its index, also
    when the product wraps. -/
theorem wrapTerm_mul_le {abs_p q : Nat} (hx : abs_p ≤ q) (t n : Nat) : wrapTerm abs_p q t n * n ≤ t := by
  have hprod : t * (abs_p % 2 ^ 32) % 2 ^ 256 ≤ t * q :=
    calc t * (abs_p % 2 ^ 32) % 2 ^ 256 ≤ t * (abs_p % 2 ^ 32) := Nat.mod_le _ _
      _ ≤ t * q := Nat.mul_le_mul_left t (Nat.le_trans (Nat.mod_le _ _) hx)
  unfold wrapTerm
  calc t * (abs_p % 2 ^ 32) % 2 ^ 256 / q / n * n ≤ t * (abs_p % 2 ^ 32) % 2 ^ 256 / q :=
        Nat.div_mul_le_self _ _
    _ ≤ t * q / q := Nat.div_le_div_right hprod
    _ ≤ t := Nat.div_le_of_le_mul (by rw [Nat.mul_comm])

theorem wrapTerm_lt (abs_p q t n : Nat) : wrapTerm abs_p q t n < 2 ^ 256 :=
  calc wrapTerm abs_p q t n ≤ t * (abs_p % 2 ^ 32) % 2 ^ 256 :=
        Nat.le_trans (Nat.div_le_self _ _) (Nat.div_le_self _ _)
    _ < 2 ^ 256 := Nat.mod_lt _ (Nat.two_pow_pos 256)

section Series

variable {abs_p q : Nat} {neg : Bool}

/-- One round from a term that is not `0`, while the counter does not wrap. -/
theorem mulExpValues_succ (hq0 : 0 < q) {fuel t result n : Nat} (hn : n + 1 < 2 ^ 64) (ht : 0 < t) :
    mulExpValues abs_p q neg (fuel + 1) t result n =
      mulExpValues abs_p q neg fuel (wrapTerm abs_p q t (n + 1))
        (if subtracts neg (n + 1) then (result + 2 ^ 256 - wrapTerm abs_p q t (n + 1)) % 2 ^ 256
          else (result + wrapTerm abs_p q t (n + 1)) % 2 ^ 256) (n + 1) := by
  rw [mulExpValues, if_pos ht, Nat.mod_eq_of_lt hn, if_neg (by omega)]
  rfl

/-- The loop on values computes the series of `wrapTerm` modulo `2 ^ 256`
    from every state of an invariant that the terms keep and that keeps the
    counter from wrapping.  Induction on the fuel. -/
theorem mulExpValues_eq_runWith (I : Nat → Int → Nat → Prop) (hq0 : 0 < q)
    (hstep : ∀ {t s n}, I t s n → 0 < t →
      I (wrapTerm abs_p q t (n + 1))
        (if subtracts neg (n + 1) then s - wrapTerm abs_p q t (n + 1) else s + wrapTerm abs_p q t (n + 1))
        (n + 1))
    (hsafe : ∀ {t s n}, I t s n → 0 < t → n + 1 < 2 ^ 64) :
    ∀ (fuel t result : Nat) (s : Int) (n : Nat), I t s n → (result : Int) = s % 2 ^ 256 →
      mulExpValues abs_p q neg fuel t result n = .ok (runWith (wrapTerm abs_p q) neg fuel t s n % 2 ^ 256).toNat
  | 0, t, result, s, n, _, hr => by
    rw [mulExpValues, runWith, ← hr, Int.toNat_natCast]
  | fuel + 1, t, result, s, n, hI, hr => by
    by_cases ht : 0 < t
    · have hw := wrapTerm_lt abs_p q t (n + 1)
      rw [mulExpValues_succ hq0 (hsafe hI ht) ht, runWith_succ fuel s n ht]
      refine mulExpValues_eq_runWith I hq0 hstep hsafe fuel _ _ _ _ (hstep hI ht) ?_
      -- the sum on values is the exact sum modulo `2 ^ 256`
      generalize wrapTerm abs_p q t (n + 1) = w at hw ⊢
      cases subtracts neg (n + 1)
      · rw [if_neg Bool.false_ne_true, if_neg Bool.false_ne_true]
        omega
      · rw [if_pos rfl, if_pos rfl]
        omega
    · rw [mulExpValues, if_neg ht, runWith_of_not_pos _ s n ht, ← hr, Int.toNat_natCast]

end Series

/-! ## Every target -/

section Target

variable {x q : Nat} (hx : x ≤ q) (hq0 : 0 < q) (hq : q < 2 ^ 64) (a : ArithUint256)
include hx

omit hx in
/-- A term that is not `0` comes before the `257`-th: the counter does not wrap. -/
theorem termInv_safe {t n : Nat} (h : TermInv a.toNat t n) (ht : 0 < t) : n + 1 < 2 ^ 64 := by
  have hn := lt_of_decay ht h.decay (by have := toNat_lt_256 a; omega : 2 * a.toNat < 2 ^ 257)
  omega

omit hx in
theorem termInv_end {t n : Nat} (h : TermInv a.toNat t n) (hn : 257 ≤ n) : t = 0 := by
  by_contra ht
  have := lt_of_decay (Nat.pos_of_ne_zero ht) h.decay (by have := toNat_lt_256 a; omega : 2 * a.toNat < 2 ^ 257)
  omega

theorem termInv_step {t n : Nat} (h : TermInv a.toNat t n) : TermInv a.toNat (wrapTerm x q t (n + 1)) (n + 1) :=
  h.step_of_mul_le (wrapTerm_mul_le hx t (n + 1))

include hq0 hq

/-- From the target `a`, the loop computes the series of `wrapTerm` modulo
    `2 ^ 256`. -/
theorem mulExpLoop_eq_runWith (neg : Bool) (fuel : Nat) :
    (mulExpLoop x q neg fuel a a 0).map toNat =
      .ok (runWith (wrapTerm x q) neg fuel a.toNat a.toNat 0 % 2 ^ 256).toNat := by
  have ha := toNat_lt_256 a
  rw [mulExpLoop_values hq]
  exact mulExpValues_eq_runWith (fun t _ n => TermInv a.toNat t n) hq0
    (fun h _ => termInv_step hx a h) (fun h ht => termInv_safe a h ht) fuel _ _ _ 0
    (TermInv.first _) (by omega)

/-- The loop ends within `257` rounds: it has a value, and more rounds than
    `257` give the same one. -/
theorem mulExpLoop_ends (neg : Bool) :
    ∃ r, mulExpLoop x q neg (2 ^ 64) a a 0 = .ok r ∧
      ∀ fuel, 257 ≤ fuel → mulExpLoop x q neg fuel a a 0 = .ok r := by
  obtain ⟨r, hr, -⟩ := exists_of_map_toNat_eq_ok (mulExpLoop_eq_runWith hx hq0 hq a neg (2 ^ 64))
  refine ⟨r, hr, fun fuel hfuel => map_toNat_injective ?_⟩
  rw [← hr, mulExpLoop_eq_runWith hx hq0 hq a neg fuel, mulExpLoop_eq_runWith hx hq0 hq a neg (2 ^ 64),
    @runWith_fuel (wrapTerm x q) neg (fun t _ n => TermInv a.toNat t n) (fun h _ => termInv_step hx a h) 257
      (fun h hn => termInv_end a h hn) fuel (2 ^ 64) _ _ 0 (TermInv.first _) (by omega) (by omega)]

/-- For `p < 0` the sum after any number of rounds is the exact
    alternating sum, in `[0, a]`: no subtraction wraps. -/
theorem mulExpLoop_neg_range (fuel : Nat) :
    ∃ r, mulExpLoop x q true fuel a a 0 = .ok r ∧ r.toNat ≤ a.toNat ∧
      (r.toNat : Int) = runWith (wrapTerm x q) true fuel a.toNat a.toNat 0 := by
  obtain ⟨r, hr, hv⟩ := exists_of_map_toNat_eq_ok (mulExpLoop_eq_runWith hx hq0 hq a true fuel)
  obtain ⟨t', n', hinv, -⟩ := @runWith_inv (wrapTerm x q) true (NegInv a.toNat)
    (fun h _ => h.step_of_mul_le (wrapTerm_mul_le hx _ _)) fuel _ _ _ (NegInv.start a.toNat)
  have h0 := hinv.sum_nonneg
  have h1 := hinv.sum_le
  have ha := toNat_lt_256 a
  generalize runWith (wrapTerm x q) true fuel a.toNat a.toNat 0 = S at h0 h1 hv ⊢
  exact ⟨r, hr, by omega, by omega⟩

/-- For `p ≥ 0` and `3 * a < 2 ^ 256` the sum after any number of rounds is
    the exact sum, at least `a`: no addition wraps. -/
theorem mulExpLoop_pos_range (h3 : 3 * a.toNat < 2 ^ 256) (fuel : Nat) :
    ∃ r, mulExpLoop x q false fuel a a 0 = .ok r ∧ a.toNat ≤ r.toNat ∧
      (r.toNat : Int) = runWith (wrapTerm x q) false fuel a.toNat a.toNat 0 := by
  obtain ⟨r, hr, hv⟩ := exists_of_map_toNat_eq_ok (mulExpLoop_eq_runWith hx hq0 hq a false fuel)
  obtain ⟨t', n', hinv, -⟩ := @runWith_inv (wrapTerm x q) false (SumInv a.toNat)
    (fun h _ => by
      rw [subtracts_false, if_neg Bool.false_ne_true]
      exact h.step_of_mul_le (wrapTerm_mul_le hx _ _)) fuel _ _ _ (SumInv.start a.toNat)
  have h0 := hinv.le_sum
  have h1 := hinv.sum_le
  generalize runWith (wrapTerm x q) false fuel a.toNat a.toNat 0 = S at h0 h1 hv ⊢
  exact ⟨r, hr, by omega, by omega⟩

end Target

/-! ## `mul_exp` -/

/-- `abs_p` and the divisor of `mul_exp` for `0 < q < 2 ^ 63` and `|p| ≤ q`. -/
theorem mulExp_eq_mulExpLoop (a : ArithUint256) {p q : Int} (hq0 : 0 < q) (hq : q < 2 ^ 63)
    (hp : p.natAbs ≤ q.toNat) :
    mulExp a p q = mulExpLoop p.natAbs q.toNat (decide (p < 0)) (2 ^ 64) a a 0 := by
  have habs : (if p ≥ 0 then p else -p).toNat % 2 ^ 64 = p.natAbs := by
    split <;> omega
  have hq' : (q % 2 ^ 64).toNat = q.toNat := by omega
  unfold mulExp
  dsimp only
  rw [habs, hq']

/-- `mul_exp(a, p, q)` with `int64_t` operands `0 < q` and `|p| ≤ q`: for
    every target it has a value and ends within `257` rounds; for `p < 0`
    the result after any number of rounds is the exact alternating sum of
    the terms, in `[0, a]`; for `p ≥ 0` and `3 * a < 2 ^ 256` it is the exact
    sum, at least `a`. -/
theorem mulExp_terminates_in_range (a : ArithUint256) (p q : Int) (hq0 : 0 < q) (hq : q < 2 ^ 63)
    (hp : p.natAbs ≤ q.toNat) :
    (∃ r, mulExp a p q = .ok r ∧
      ∀ fuel, 257 ≤ fuel → mulExpLoop p.natAbs q.toNat (decide (p < 0)) fuel a a 0 = .ok r) ∧
    (p < 0 → ∀ fuel, ∃ r, mulExpLoop p.natAbs q.toNat true fuel a a 0 = .ok r ∧ r.toNat ≤ a.toNat ∧
      (r.toNat : Int) = runWith (wrapTerm p.natAbs q.toNat) true fuel a.toNat a.toNat 0) ∧
    (0 ≤ p → 3 * a.toNat < 2 ^ 256 → ∀ fuel, ∃ r, mulExpLoop p.natAbs q.toNat false fuel a a 0 = .ok r ∧
      a.toNat ≤ r.toNat ∧ (r.toNat : Int) = runWith (wrapTerm p.natAbs q.toNat) false fuel a.toNat a.toNat 0) := by
  have hq0' : 0 < q.toNat := by omega
  have hq' : q.toNat < 2 ^ 64 := by omega
  refine ⟨?_, fun _ => mulExpLoop_neg_range hp hq0' hq' a, fun _ h3 => mulExpLoop_pos_range hp hq0' hq' a h3⟩
  rw [mulExp_eq_mulExpLoop a hq0 hq hp]
  exact mulExpLoop_ends hp hq0' hq' a _

/-- A target of `1000` with `p = ∓3` over `q = 4`. -/
theorem mulExp_terminates_in_range_small :
    (∀ fuel, ∃ r, mulExpLoop (-3 : Int).natAbs (4 : Int).toNat true fuel (ofUInt64 1000) (ofUInt64 1000) 0 = .ok r ∧
      r.toNat ≤ (ofUInt64 1000 : ArithUint256).toNat ∧
      (r.toNat : Int) = runWith (wrapTerm (-3 : Int).natAbs (4 : Int).toNat) true fuel
        (ofUInt64 1000 : ArithUint256).toNat (ofUInt64 1000 : ArithUint256).toNat 0) ∧
    (∀ fuel, ∃ r, mulExpLoop (3 : Int).natAbs (4 : Int).toNat false fuel (ofUInt64 1000) (ofUInt64 1000) 0 = .ok r ∧
      (ofUInt64 1000 : ArithUint256).toNat ≤ r.toNat ∧
      (r.toNat : Int) = runWith (wrapTerm (3 : Int).natAbs (4 : Int).toNat) false fuel
        (ofUInt64 1000 : ArithUint256).toNat (ofUInt64 1000 : ArithUint256).toNat 0) :=
  ⟨(mulExp_terminates_in_range (ofUInt64 1000) (-3) 4 (by decide) (by decide) (by decide)).2.1 (by decide),
    (mulExp_terminates_in_range (ofUInt64 1000) 3 4 (by decide) (by decide) (by decide)).2.2 (by decide)
      (by rw [toNat_ofUInt64_256 (by decide)]; decide)⟩

/-- `2 ^ 256 - 1`, every limb all ones. -/
def maxUint256 : ArithUint256 :=
  ⟨[0xffffffff, 0xffffffff, 0xffffffff, 0xffffffff, 0xffffffff, 0xffffffff, 0xffffffff, 0xffffffff],
    rfl⟩

/-- The largest target with `p = 1` over `q = 2 ^ 62`: the first sum wraps,
    and `mul_exp` returns far less than the target. -/
theorem mulExp_max_wraps :
    maxUint256.toNat = 2 ^ 256 - 1 ∧
      (mulExp maxUint256 1 (2 ^ 62)).map toNat = .ok 25108406941546723058065416628198173372313183907429852293809 := by
  refine ⟨by decide, ?_⟩
  rw [mulExp_values]
  decide

end Revo
