/-
  Revo.Lib.ExpSeries

  The exponential series as integer code computes it: `a * exp(±x / q)` from
  the terms `t₀ = a` and `tₙ = ⌊⌊tₙ₋₁ * x / q⌋ / n⌋`, each added to the sum,
  or, for a negative exponent, subtracted at odd `n`, until a term is `0`.
  `run` takes the terms one by one, at most `fuel` of them.

    * An exponent of `0` leaves `a` (`run_zero_exponent`).
    * A positive exponent: each term grows with `x`, so the sum does
      (`run_pos_mono`), and it never falls below `a`.
    * A negative exponent with `x ≤ q`: the terms do not grow, so the sum
      lies between `a - t₁` and `a - t₁ + t₂` (`run_neg_bounds`).  When
      `(x + 1) ^ 2 ≤ 2 * q`, the second term at `x + 1` is at most what the
      first gains, so the sum does not grow with `x` (`run_neg_succ_le`).
    * `PosInv` and `NegInv` are invariants of the states of a run that bound
      its terms and partial sums and make the terms reach `0` quickly, for
      code that computes them in fixed width.
-/

import Mathlib.Data.BitVec

namespace ExpSeries

/-- The `n`-th term, after the term `t`. -/
def next (x q t n : Nat) : Nat := t * x / q / n

/-- Whether the `n`-th term is subtracted. -/
def subtracts (neg : Bool) (n : Nat) : Bool := neg && n % 2 == 1

@[simp] theorem subtracts_false (n : Nat) : subtracts false n = false := rfl

/-- The terms of a negative series are subtracted and added in turn. -/
theorem subtracts_true_succ (n : Nat) : subtracts true (n + 1) = !subtracts true n := by
  unfold subtracts
  rcases Nat.mod_two_eq_zero_or_one n with h | h <;> simp [Nat.succ_mod_two_eq_one_iff, h]

/-- The series from its `n`-th term `t` and partial sum `s` on, for at most
    `fuel` more terms. -/
def run (x q : Nat) (neg : Bool) : Nat → Nat → Int → Nat → Int
  | 0, _, s, _ => s
  | fuel + 1, t, s, n =>
    if 0 < t then
      run x q neg fuel (next x q t (n + 1))
        (if subtracts neg (n + 1) then s - next x q t (n + 1) else s + next x q t (n + 1)) (n + 1)
    else s

variable {x q : Nat}

theorem run_of_not_pos {neg : Bool} (fuel : Nat) {t : Nat} (s : Int) (n : Nat) (ht : ¬0 < t) :
    run x q neg fuel t s n = s := by
  cases fuel with
  | zero => rfl
  | succ fuel => rw [run, if_neg ht]

theorem run_succ {neg : Bool} (fuel : Nat) {t : Nat} (s : Int) (n : Nat) (ht : 0 < t) :
    run x q neg (fuel + 1) t s n =
      run x q neg fuel (next x q t (n + 1))
        (if subtracts neg (n + 1) then s - next x q t (n + 1) else s + next x q t (n + 1)) (n + 1) := by
  rw [run, if_pos ht]

/-! ## Terms -/

theorem next_mono {x' t t' : Nat} (q n : Nat) (hx : x ≤ x') (ht : t ≤ t') : next x q t n ≤ next x' q t' n :=
  Nat.div_le_div_right (Nat.div_le_div_right (Nat.mul_le_mul ht hx))

/-- With `x ≤ q` the terms do not grow. -/
theorem next_le (hx : x ≤ q) (t n : Nat) : next x q t n ≤ t := by
  unfold next
  calc t * x / q / n ≤ t * x / q := Nat.div_le_self _ _
    _ ≤ t * q / q := Nat.div_le_div_right (Nat.mul_le_mul_left t hx)
    _ ≤ t := Nat.div_le_of_le_mul (by rw [Nat.mul_comm])

/-- With `x ≤ k * q` the `n`-th term is at most `k` times the one before, over `n`. -/
theorem next_mul_le {k : Nat} (hx : x ≤ k * q) (t n : Nat) : next x q t n * n ≤ k * t := by
  unfold next
  calc t * x / q / n * n ≤ t * x / q := Nat.div_mul_le_self _ _
    _ ≤ t * (k * q) / q := Nat.div_le_div_right (Nat.mul_le_mul_left t hx)
    _ ≤ k * t := Nat.div_le_of_le_mul (Nat.le_of_eq (by ac_rfl))

/-! ## The exponent `0` -/

theorem run_zero_exponent (q : Nat) (neg : Bool) (fuel a : Nat) : run 0 q neg fuel a a 0 = a := by
  cases fuel with
  | zero => rfl
  | succ fuel =>
    by_cases ha : 0 < a
    · -- the first term after `a` is `0`, and it ends the series
      have h0 : next 0 q a 1 = 0 := by rw [next, Nat.mul_zero, Nat.zero_div, Nat.zero_div]
      rw [run_succ fuel _ _ ha, h0, run_of_not_pos _ _ _ (Nat.lt_irrefl 0)]
      split <;> simp
    · exact run_of_not_pos _ _ _ ha

/-! ## A positive exponent -/

/-- Every term of a positive series is added. -/
theorem le_run_pos : ∀ (fuel t : Nat) (s : Int) (n : Nat), s ≤ run x q false fuel t s n
  | 0, _, _, _ => Int.le_refl _
  | fuel + 1, t, s, n => by
    by_cases ht : 0 < t
    · rw [run_succ fuel s n ht]
      exact Int.le_trans (Int.le_add_of_nonneg_right (Int.natCast_nonneg _)) (le_run_pos fuel _ _ _)
    · rw [run_of_not_pos _ _ _ ht]

/-- Two positive series run side by side: the one with the larger exponent,
    term and sum stays ahead, and keeps adding when the other stops. -/
theorem run_pos_mono {x' : Nat} (hx : x ≤ x') :
    ∀ (fuel t t' : Nat) (s s' : Int) (n : Nat), t ≤ t' → s ≤ s' →
      run x q false fuel t s n ≤ run x' q false fuel t' s' n
  | 0, _, _, _, _, _, _, hs => hs
  | fuel + 1, t, t', s, s', n, ht, hs => by
    by_cases h0 : 0 < t
    · have h0' : 0 < t' := Nat.lt_of_lt_of_le h0 ht
      have hnext := next_mono q (n + 1) hx ht
      rw [run_succ fuel s n h0, run_succ fuel s' n h0']
      exact run_pos_mono hx fuel _ _ _ _ _ hnext (Int.add_le_add hs (Int.ofNat_le.mpr hnext))
    · rw [run_of_not_pos _ _ _ h0]
      exact Int.le_trans hs (le_run_pos _ _ _ _)

/-! ## A negative exponent -/

/-- A negative series with terms that do not grow stays, from any state,
    between its partial sum and that sum moved by the next term. -/
theorem run_neg_bounds (hx : x ≤ q) : ∀ (fuel t : Nat) (s : Int) (n : Nat),
    (subtracts true (n + 1) = true →
      s - next x q t (n + 1) ≤ run x q true fuel t s n ∧ run x q true fuel t s n ≤ s) ∧
    (subtracts true (n + 1) = false →
      s ≤ run x q true fuel t s n ∧ run x q true fuel t s n ≤ s + next x q t (n + 1))
  | 0, t, s, n => by
    have h0 : (0 : Int) ≤ next x q t (n + 1) := Int.natCast_nonneg _
    have hrun : run x q true 0 t s n = s := rfl
    rw [hrun]
    exact ⟨fun _ => ⟨by omega, Int.le_refl s⟩, fun _ => ⟨Int.le_refl s, by omega⟩⟩
  | fuel + 1, t, s, n => by
    have h0 : (0 : Int) ≤ next x q t (n + 1) := Int.natCast_nonneg _
    by_cases ht : 0 < t
    · -- the next term is taken; the one after it is no larger
      have hle : (next x q (next x q t (n + 1)) (n + 1 + 1) : Int) ≤ next x q t (n + 1) :=
        Int.ofNat_le.mpr (next_le hx _ _)
      have ih := run_neg_bounds hx fuel (next x q t (n + 1))
      rw [run_succ fuel s n ht]
      refine ⟨fun hsub => ?_, fun hadd => ?_⟩
      · -- subtracted now, so added next
        have hadd' : subtracts true (n + 1 + 1) = false := by rw [subtracts_true_succ, hsub]; rfl
        rw [if_pos hsub]
        obtain ⟨hlo, hhi⟩ := (ih _ (n + 1)).2 hadd'
        exact ⟨hlo, by omega⟩
      · have hsub' : subtracts true (n + 1 + 1) = true := by rw [subtracts_true_succ, hadd]; rfl
        rw [if_neg (by rw [hadd]; exact Bool.false_ne_true)]
        obtain ⟨hlo, hhi⟩ := (ih _ (n + 1)).1 hsub'
        exact ⟨by omega, hhi⟩
    · rw [run_of_not_pos _ _ _ ht]
      exact ⟨fun _ => ⟨by omega, Int.le_refl s⟩, fun _ => ⟨Int.le_refl s, by omega⟩⟩

/-- What the first term gains from `x` to `x + 1` covers the second term at
    `x + 1` when `(x + 1) ^ 2 ≤ 2 * q`:  the first gains at least `a / q`, and
    the second is at most `a * (x + 1) ^ 2 / (2 * q ^ 2)`. -/
theorem second_le_gain (hq : 0 < q) (h : (x + 1) ^ 2 ≤ 2 * q) (a : Nat) :
    next (x + 1) q (next (x + 1) q a 1) 2 + next x q a 1 ≤ next (x + 1) q a 1 := by
  have hgain : a * x / q + a / q ≤ a * (x + 1) / q := by
    rw [Nat.mul_succ]
    exact Nat.div_add_div_le_add_div
  -- the second term at `x + 1`, times `q`, is at most `a`
  have hsecond : next (x + 1) q (next (x + 1) q a 1) 2 ≤ a / q := by
    apply (Nat.le_div_iff_mul_le hq).mpr
    apply Nat.le_of_mul_le_mul_right _ (Nat.mul_pos (by decide : 0 < 2) hq)
    unfold next
    rw [Nat.div_one]
    calc a * (x + 1) / q * (x + 1) / q / 2 * q * (2 * q)
        = a * (x + 1) / q * (x + 1) / q / 2 * 2 * q * q := by ac_rfl
      _ ≤ a * (x + 1) / q * (x + 1) / q * q * q :=
          Nat.mul_le_mul_right _ (Nat.mul_le_mul_right _ (Nat.div_mul_le_self _ _))
      _ ≤ a * (x + 1) / q * (x + 1) * q :=
          Nat.mul_le_mul_right _ (Nat.div_mul_le_self _ _)
      _ = a * (x + 1) / q * q * (x + 1) := by ac_rfl
      _ ≤ a * (x + 1) * (x + 1) := Nat.mul_le_mul_right _ (Nat.div_mul_le_self _ _)
      _ = a * (x + 1) ^ 2 := by rw [Nat.pow_two, Nat.mul_assoc]
      _ ≤ a * (2 * q) := Nat.mul_le_mul_left _ h
  unfold next at hsecond ⊢
  rw [Nat.div_one, Nat.div_one] at *
  omega

/-- A negative series does not grow as `x` grows by one, while
    `(x + 1) ^ 2 ≤ 2 * q` and `x + 1 ≤ q`: the sum at `x + 1` is at most
    `a - t₁' + t₂'`, and that is at most `a - t₁`, a lower bound at `x`. -/
theorem run_neg_succ_le (hq : 0 < q) (h : (x + 1) ^ 2 ≤ 2 * q) (hx : x + 1 ≤ q) (fuel a : Nat) :
    run (x + 1) q true fuel a a 0 ≤ run x q true fuel a a 0 := by
  cases fuel with
  | zero => exact Int.le_refl _
  | succ fuel =>
    by_cases ha : 0 < a
    · -- both subtract their first term; the second term at `x + 1` is covered by the gain
      have hsub : subtracts true 1 = true := rfl
      have hadd : subtracts true (1 + 1) = false := rfl
      rw [run_succ fuel _ _ ha, run_succ fuel _ _ ha, Nat.zero_add, if_pos hsub, if_pos hsub]
      have hupper := ((run_neg_bounds hx fuel (next (x + 1) q a 1) (a - next (x + 1) q a 1) 1).2
        hadd).2
      have hlower := ((run_neg_bounds (Nat.le_of_succ_le hx) fuel (next x q a 1)
        (a - next x q a 1) 1).2 hadd).1
      have hkey : next (x + 1) q (next (x + 1) q a 1) (1 + 1) + next x q a 1 ≤ next (x + 1) q a 1 :=
        second_le_gain hq h a
      omega
    · rw [run_of_not_pos _ _ _ ha, run_of_not_pos _ _ _ ha]

/-- The sum of a negative series, for `x ≤ q`, is at most where it starts:
    its first term is subtracted. -/
theorem run_neg_le_start (hx : x ≤ q) (fuel a : Nat) : run x q true fuel a a 0 ≤ a :=
  ((run_neg_bounds hx fuel a a 0).1 rfl).2

/-- The sum of a negative series, for `x ≤ q`, is at least its start less
    the first term. -/
theorem start_sub_le_run_neg (hx : x ≤ q) (fuel a : Nat) :
    (a : Int) - next x q a 1 ≤ run x q true fuel a a 0 :=
  ((run_neg_bounds hx fuel a a 0).1 rfl).1

/-- For `x < q` the first term is below the start, so a negative series from
    `a > 0` stays above `0`. -/
theorem next_one_lt (hx : x < q) {t : Nat} (ht : 0 < t) : next x q t 1 < t := by
  unfold next
  rw [Nat.div_one]
  exact (Nat.div_lt_iff_lt_mul (by omega)).mpr (Nat.mul_lt_mul_of_pos_left hx ht)

/-- A negative series does not grow with `x`, while `x' ^ 2 ≤ 2 * q` and
    `x' ≤ q` hold for the larger one.  Induction on `x' - x`, one step of
    `run_neg_succ_le` each. -/
theorem run_neg_anti (hq : 0 < q) {x' : Nat} (hxx : x ≤ x') (h : x' ^ 2 ≤ 2 * q) (hx : x' ≤ q)
    (fuel a : Nat) : run x' q true fuel a a 0 ≤ run x q true fuel a a 0 := by
  obtain ⟨k, rfl⟩ := Nat.exists_eq_add_of_le hxx
  induction k with
  | zero => exact Int.le_refl _
  | succ k ih =>
    have hsq : (x + k) ^ 2 ≤ 2 * q :=
      Nat.le_trans (Nat.pow_le_pow_left (by omega) 2) h
    exact Int.le_trans (run_neg_succ_le hq h hx fuel a) (ih (by omega) hsq (by omega))

/-! ## A signed exponent -/

/-- The series for `a * exp(p / q)`: `|p|` with the sign of `p`. -/
def expRun (q fuel a : Nat) (p : Int) : Int := run p.natAbs q (decide (p < 0)) fuel a a 0

/-- The series grows with the exponent, across its sign too, while every
    negative exponent `p` has `p ^ 2 ≤ 2 * q` and `-p ≤ q`. -/
theorem expRun_mono (hq : 0 < q) {p p' : Int} (hpp : p ≤ p')
    (hneg : p < 0 → p.natAbs ^ 2 ≤ 2 * q ∧ p.natAbs ≤ q) (fuel a : Nat) :
    expRun q fuel a p ≤ expRun q fuel a p' := by
  unfold expRun
  by_cases hp : p < 0
  · obtain ⟨hsq, hle⟩ := hneg hp
    by_cases hp' : p' < 0
    · -- both negative: the larger exponent is the smaller `|p|`
      rw [decide_eq_true hp, decide_eq_true hp']
      exact run_neg_anti hq (by omega) hsq hle fuel a
    · -- the sign changes: below `a`, then above it
      rw [decide_eq_true hp, decide_eq_false hp']
      exact Int.le_trans (run_neg_le_start hle fuel a) (le_run_pos fuel a a 0)
  · have hp' : ¬p' < 0 := by omega
    rw [decide_eq_false hp, decide_eq_false hp']
    exact run_pos_mono (by omega) fuel a a a a 0 le_rfl (Int.le_refl _)

theorem expRun_zero (q fuel a : Nat) : expRun q fuel a 0 = a :=
  run_zero_exponent q false fuel a

/-- The series from `a > 0` stays above `0` while every negative exponent
    has `-p < q`: a positive one only adds, and a negative one first takes
    off less than `a`, then no more than it adds back. -/
theorem expRun_pos {p : Int} (hneg : p < 0 → p.natAbs < q) (fuel : Nat) {a : Nat} (ha : 0 < a) :
    0 < expRun q fuel a p := by
  unfold expRun
  by_cases hp : p < 0
  · have hlt := hneg hp
    have hfirst := next_one_lt hlt ha
    rw [decide_eq_true hp]
    have hlow := start_sub_le_run_neg (Nat.le_of_lt hlt) fuel a
    omega
  · rw [decide_eq_false hp]
    have hlow := @le_run_pos p.natAbs q fuel a a 0
    omega

/-! ## Invariants of a run

Code that computes the series in fixed width needs bounds on every state
it reaches: on the term, which it multiplies by `x`, on the partial sum,
and on the index, which it counts in a word of its own.  `PosInv` and
`NegInv` hold of the first state and of every state after one.
-/

/-- What the terms from the `n`-th on can add, in terms of the `n`-th, in
    a positive series with `x ≤ 2 * q`. -/
def weight : Nat → Nat
  | 0 => 10
  | 1 => 4
  | _ => 3

@[simp] theorem weight_zero : weight 0 = 10 := rfl

@[simp] theorem weight_one : weight 1 = 4 := rfl

theorem weight_of_two_le : ∀ {n : Nat}, 2 ≤ n → weight n = 3
  | _ + 2, _ => rfl

theorem three_le_weight (n : Nat) : 3 ≤ weight n := by
  unfold weight
  split <;> omega

/-- With `t' * (n + 1) ≤ 2 * t`, the term `t'` and what follows it add no
    more than `t` and what follows it. -/
theorem weight_step {t t' : Nat} : ∀ {n : Nat}, t' * (n + 1) ≤ 2 * t →
    t' + weight (n + 1) * t' ≤ weight n * t
  | 0, h => by
    rw [weight_zero, weight_one]
    omega
  | 1, h => by
    rw [weight_one, weight_of_two_le (by omega)]
    omega
  | n + 2, h => by
    -- from the third term on, `t' * 3 ≤ t' * (n + 3) ≤ 2 * t`
    have h3 : t' * 3 ≤ 2 * t := Nat.le_trans (Nat.mul_le_mul_left t' (by omega)) h
    rw [weight_of_two_le (by omega), weight_of_two_le (by omega)]
    omega

/-- A state of a positive series from `a`: the partial sum and what the
    terms still to come can add stay within `11 * a`, and `t * 2 ^ n` is
    bounded, so a term is `0` once `2 ^ n` passes `88 * a`. -/
structure PosInv (a t : Nat) (s : Int) (n : Nat) : Prop where
  sum_nonneg : 0 ≤ s
  bound : s + (weight n * t : Nat) ≤ 11 * (a : Int)
  decay : t * 2 ^ n ≤ 88 * a

theorem PosInv.start (a : Nat) : PosInv a a a 0 := by
  refine ⟨Int.natCast_nonneg a, ?_, ?_⟩
  · rw [weight_zero]
    omega
  · rw [Nat.pow_zero, Nat.mul_one]
    omega

theorem PosInv.term_le {a t : Nat} {s : Int} {n : Nat} (h : PosInv a t s n) : 3 * t ≤ 11 * a := by
  have hw := Nat.mul_le_mul_right t (three_le_weight n)
  have hb := h.bound
  have hs := h.sum_nonneg
  omega

theorem PosInv.sum_le {a t : Nat} {s : Int} {n : Nat} (h : PosInv a t s n) : s ≤ 11 * (a : Int) := by
  have hb := h.bound
  omega

/-- One step of a positive series with `x ≤ 2 * q` keeps `PosInv`. -/
theorem PosInv.step (hx : x ≤ 2 * q) {a t : Nat} {s : Int} {n : Nat} (h : PosInv a t s n) :
    PosInv a (next x q t (n + 1)) (s + next x q t (n + 1)) (n + 1) := by
  have hmul := next_mul_le hx t (n + 1)
  generalize next x q t (n + 1) = t' at hmul ⊢
  have hw := weight_step hmul
  have hb := h.bound
  have hs := h.sum_nonneg
  have hbound : s + t' + (weight (n + 1) * t' : Nat) ≤ 11 * (a : Int) := by omega
  refine ⟨by omega, hbound, ?_⟩
  by_cases hn : n + 1 ≤ 3
  · -- early terms: the new bound, with a weight of at least `3`
    have h3 := Nat.mul_le_mul_right t' (three_le_weight (n + 1))
    have hpow : 2 ^ (n + 1) ≤ 2 ^ 3 := Nat.pow_le_pow_right (by decide) hn
    have hlt : t' * 2 ^ (n + 1) ≤ t' * 8 := Nat.mul_le_mul_left t' hpow
    omega
  · -- from the fourth term on each term is at most half the one before
    have h4 : t' * 4 ≤ 2 * t := Nat.le_trans (Nat.mul_le_mul_left t' (by omega)) hmul
    have hd := h.decay
    calc t' * 2 ^ (n + 1) = 2 * t' * 2 ^ n := by rw [Nat.pow_succ]; ac_rfl
      _ ≤ t * 2 ^ n := Nat.mul_le_mul_right _ (by omega)
      _ ≤ 88 * a := hd

/-- A term that is not `0` and has `t * 2 ^ n ≤ C < 2 ^ N` has an index
    below `N`. -/
theorem lt_of_decay {t n C N : Nat} (ht : 0 < t) (hd : t * 2 ^ n ≤ C) (hC : C < 2 ^ N) : n < N := by
  have hpow : 2 ^ n < 2 ^ N :=
    calc 2 ^ n ≤ t * 2 ^ n := Nat.le_mul_of_pos_left _ ht
      _ ≤ C := hd
      _ < 2 ^ N := hC
  exact (Nat.pow_lt_pow_iff_right (by decide)).mp hpow

/-- A next term at most `t / (n + 1)` keeps `t * 2 ^ n ≤ 2 * a`: from the
    second term on each term is at most half the one before. -/
theorem decay_succ {a t t' n : Nat} (hmul : t' * (n + 1) ≤ t) (hfirst : n = 0 → t ≤ a)
    (hd : t * 2 ^ n ≤ 2 * a) : t' * 2 ^ (n + 1) ≤ 2 * a := by
  cases n with
  | zero =>
    have hta := hfirst rfl
    rw [Nat.zero_add, Nat.mul_one] at hmul
    rw [Nat.zero_add, Nat.pow_one]
    omega
  | succ n =>
    have h2 : t' * 2 ≤ t := Nat.le_trans (Nat.mul_le_mul_left _ (by omega : 2 ≤ n + 1 + 1)) hmul
    calc t' * 2 ^ (n + 1 + 1) = t' * 2 * 2 ^ (n + 1) := by rw [Nat.pow_succ]; ac_rfl
      _ ≤ t * 2 ^ (n + 1) := Nat.mul_le_mul_right _ h2
      _ ≤ 2 * a := hd

/-- The terms of a series from `a` whose terms are at most the one before
    over their index: the first is at most `a`, and `t * 2 ^ n ≤ 2 * a`. -/
structure TermInv (a t n : Nat) : Prop where
  start : n = 0 → t ≤ a
  decay : t * 2 ^ n ≤ 2 * a

theorem TermInv.first (a : Nat) : TermInv a a 0 := by
  refine ⟨fun _ => Nat.le_refl a, ?_⟩
  rw [Nat.pow_zero, Nat.mul_one]
  omega

theorem TermInv.step_of_mul_le {a t t' n : Nat} (hmul : t' * (n + 1) ≤ t) (h : TermInv a t n) :
    TermInv a t' (n + 1) :=
  ⟨fun h0 => absurd h0 (Nat.succ_ne_zero n), decay_succ hmul h.start h.decay⟩

/-- A state of a negative series from `a`: the partial sum lies in `[0, a]`,
    the next term, which is at most `t`, can be subtracted or added without
    leaving it, and `t * 2 ^ n ≤ 2 * a`. -/
structure NegInv (a t : Nat) (s : Int) (n : Nat) : Prop where
  sum_nonneg : 0 ≤ s
  sum_le : s ≤ a
  room_sub : subtracts true (n + 1) = true → t ≤ s
  room_add : subtracts true (n + 1) = false → s + t ≤ a
  decay : t * 2 ^ n ≤ 2 * a

theorem NegInv.start (a : Nat) : NegInv a a a 0 := by
  refine ⟨Int.natCast_nonneg a, Int.le_refl _, fun _ => Int.le_refl _, fun h => absurd h (by decide), ?_⟩
  rw [Nat.pow_zero, Nat.mul_one]
  omega

theorem NegInv.term_le {a t : Nat} {s : Int} {n : Nat} (h : NegInv a t s n) : t ≤ a := by
  have hs := h.sum_nonneg
  have hsa := h.sum_le
  cases hsub : subtracts true (n + 1)
  · have := h.room_add hsub
    omega
  · have := h.room_sub hsub
    omega

/-- A next term at most `t / (n + 1)` keeps `NegInv`. -/
theorem NegInv.step_of_mul_le {a t t' : Nat} {s : Int} {n : Nat} (hmul : t' * (n + 1) ≤ t)
    (h : NegInv a t s n) :
    NegInv a t' (if subtracts true (n + 1) then s - t' else s + t') (n + 1) := by
  have hle : t' ≤ t := Nat.le_trans (Nat.le_mul_of_pos_right t' (Nat.succ_pos n)) hmul
  have hta := h.term_le
  have hs := h.sum_nonneg
  have hsa := h.sum_le
  have hdecay := decay_succ hmul (fun _ => hta) h.decay
  have hturn := subtracts_true_succ (n + 1)
  cases hsub : subtracts true (n + 1)
  · -- added now, so subtracted next
    have hroom := h.room_add hsub
    rw [hsub] at hturn
    rw [if_neg Bool.false_ne_true]
    exact ⟨by omega, by omega, fun _ => by omega, fun h' => absurd (h'.symm.trans hturn) (by decide),
      hdecay⟩
  · -- subtracted now, so added next
    have hroom := h.room_sub hsub
    rw [hsub] at hturn
    rw [if_pos rfl]
    exact ⟨by omega, by omega, fun h' => absurd (h'.symm.trans hturn) (by decide), fun _ => by omega,
      hdecay⟩

/-- One step of a negative series with `x ≤ q` keeps `NegInv`. -/
theorem NegInv.step (hx : x ≤ q) {a t : Nat} {s : Int} {n : Nat} (h : NegInv a t s n) :
    NegInv a (next x q t (n + 1))
      (if subtracts true (n + 1) then s - next x q t (n + 1) else s + next x q t (n + 1)) (n + 1) := by
  have hmul := @next_mul_le x q 1 (by rw [Nat.one_mul]; exact hx) t (n + 1)
  rw [Nat.one_mul] at hmul
  exact h.step_of_mul_le hmul

/-- A state of a positive series from `a` whose terms are at most the one
    before over their index: the partial sum and the term stay within
    `3 * a`, the first term counted twice, and `t * 2 ^ n ≤ 2 * a`. -/
structure SumInv (a t : Nat) (s : Int) (n : Nat) : Prop where
  le_sum : (a : Int) ≤ s
  bound : s + t ≤ 3 * (a : Int)
  bound_start : n = 0 → s + 2 * t ≤ 3 * (a : Int)
  decay : t * 2 ^ n ≤ 2 * a

theorem SumInv.start (a : Nat) : SumInv a a a 0 := by
  refine ⟨Int.le_refl _, by omega, fun _ => by omega, ?_⟩
  rw [Nat.pow_zero, Nat.mul_one]
  omega

theorem SumInv.sum_le {a t : Nat} {s : Int} {n : Nat} (h : SumInv a t s n) : s ≤ 3 * (a : Int) := by
  have hb := h.bound
  omega

/-- A next term at most `t / (n + 1)` keeps `SumInv`. -/
theorem SumInv.step_of_mul_le {a t t' : Nat} {s : Int} {n : Nat} (hmul : t' * (n + 1) ≤ t)
    (h : SumInv a t s n) : SumInv a t' (s + t') (n + 1) := by
  have hs := h.le_sum
  have hb := h.bound
  have hdecay := decay_succ hmul (fun h0 => by have := h.bound_start h0; omega) h.decay
  refine ⟨by omega, ?_, fun h0 => absurd h0 (Nat.succ_ne_zero n), hdecay⟩
  cases n with
  | zero =>
    -- the first term after `a` is at most `a`, which was counted twice
    have hstart := h.bound_start rfl
    rw [Nat.zero_add, Nat.mul_one] at hmul
    omega
  | succ n =>
    -- from the second term on each term is at most half the one before
    have h2 : t' * 2 ≤ t := Nat.le_trans (Nat.mul_le_mul_left _ (by omega : 2 ≤ n + 1 + 1)) hmul
    omega

/-! ## Any rule for the terms

Code that computes the terms in fixed width may follow another rule than
`next`, such as a product taken modulo a power of two.  `runWith f` is the
series whose `n`-th term after `t` is `f t n`.  An invariant that every term
keeps holds where a run stops (`runWith_inv`), and once it makes the terms
vanish from some index on, more fuel changes nothing (`runWith_fuel`).
-/

/-- The series with the `n`-th term after `t` given by `f t n`. -/
def runWith (f : Nat → Nat → Nat) (neg : Bool) : Nat → Nat → Int → Nat → Int
  | 0, _, s, _ => s
  | fuel + 1, t, s, n =>
    if 0 < t then
      runWith f neg fuel (f t (n + 1))
        (if subtracts neg (n + 1) then s - f t (n + 1) else s + f t (n + 1)) (n + 1)
    else s

section Rule

variable {f : Nat → Nat → Nat} {neg : Bool}

theorem runWith_of_not_pos (fuel : Nat) {t : Nat} (s : Int) (n : Nat) (ht : ¬0 < t) :
    runWith f neg fuel t s n = s := by
  cases fuel with
  | zero => rfl
  | succ fuel => rw [runWith, if_neg ht]

theorem runWith_succ (fuel : Nat) {t : Nat} (s : Int) (n : Nat) (ht : 0 < t) :
    runWith f neg (fuel + 1) t s n =
      runWith f neg fuel (f t (n + 1))
        (if subtracts neg (n + 1) then s - f t (n + 1) else s + f t (n + 1)) (n + 1) := by
  rw [runWith, if_pos ht]

variable (I : Nat → Int → Nat → Prop)
  (hstep : ∀ {t s n}, I t s n → 0 < t →
    I (f t (n + 1)) (if subtracts neg (n + 1) then s - f t (n + 1) else s + f t (n + 1)) (n + 1))
include hstep

/-- A run stops at a state of the invariant, with a zero term or no fuel left. -/
theorem runWith_inv : ∀ (fuel t : Nat) (s : Int) (n : Nat), I t s n →
    ∃ t' n', I t' (runWith f neg fuel t s n) n' ∧ (t' = 0 ∨ n' = n + fuel)
  | 0, t, s, n, h => ⟨t, n, h, .inr rfl⟩
  | fuel + 1, t, s, n, h => by
    by_cases ht : 0 < t
    · obtain ⟨t', n', h', hend⟩ := runWith_inv fuel _ _ _ (hstep h ht)
      rw [runWith_succ fuel s n ht]
      exact ⟨t', n', h', by omega⟩
    · rw [runWith_of_not_pos _ s n ht]
      exact ⟨t, n, h, .inl (by omega)⟩

/-- Once the invariant makes every term from the `N`-th on zero, fuel that
    reaches the `N`-th term is enough.  Induction on the fuel. -/
theorem runWith_fuel {N : Nat} (hend : ∀ {t s n}, I t s n → N ≤ n → t = 0) :
    ∀ {fuel fuel' t : Nat} {s : Int} {n : Nat}, I t s n → N ≤ n + fuel → N ≤ n + fuel' →
      runWith f neg fuel t s n = runWith f neg fuel' t s n
  | 0, fuel', t, s, n, h, h₁, _ => by
    have ht : ¬0 < t := by rw [hend h (by omega)]; exact Nat.lt_irrefl 0
    rw [runWith_of_not_pos _ s n ht, runWith_of_not_pos _ s n ht]
  | fuel + 1, 0, t, s, n, h, _, h₂ => by
    have ht : ¬0 < t := by rw [hend h (by omega)]; exact Nat.lt_irrefl 0
    rw [runWith_of_not_pos _ s n ht, runWith_of_not_pos _ s n ht]
  | fuel + 1, fuel' + 1, t, s, n, h, h₁, h₂ => by
    by_cases ht : 0 < t
    · rw [runWith_succ fuel s n ht, runWith_succ fuel' s n ht]
      exact runWith_fuel hend (hstep h ht) (by omega) (by omega)
    · rw [runWith_of_not_pos _ s n ht, runWith_of_not_pos _ s n ht]

end Rule

end ExpSeries
