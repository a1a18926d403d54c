/-
  Revo.Pow.PowProofs

  `mul_exp` computes the exponential series of `ExpSeries` exactly, and from
  QIP9 on the retarget moves the target with the spacing and keeps it in
  range.

    * `mulExpLoop_eq_run`: the limb loop and `ExpSeries.run` agree from
      every state of an invariant that keeps each term times `abs_p` and each
      partial sum within 256 bits and the counter below `2 ^ 64`.  `PosInv`
      and `NegInv` are such invariants for a target below `2 ^ 240` and
      `-q ≤ p ≤ 2 * q` with `q < 2 ^ 12` (`mulExp_eq_expRun`).
    * With the reduced block time's parameters (spacing `32`, timespan
      `1000`, stake mask `3`) the exponent is `p ∈ [-16, 304]` over
      `q = 256`; the series grows with `p` (`ExpSeries.expRun_mono`), and the
      clamp and the compact rounding keep the order.
-/

import Revo.Pow.MulExpProofs
import Revo.Arith.CompactProofs

namespace Revo

open BaseUint ArithUint256 ExpSeries

/-! ## The loop of `mul_exp` -/

section Loop

variable {abs_p q : Nat} {isNegative : Bool}

/-- The partial sum of the series after the `(n + 1)`-th term `t`. -/
def stepSum (isNegative : Bool) (n : Nat) (s : Int) (t : Nat) : Int :=
  if subtracts isNegative (n + 1) then s - t else s + t

/-- One round of the loop from a term that is not `0`: the next term and
    partial sum are those of the series, while `a * abs_p` and the new sum
    fit 256 bits and `++n` does not wrap. -/
theorem mulExpLoop_succ (fuel : Nat) {a result : ArithUint256} {n : Nat} (hp : abs_p < 2 ^ 32)
    (hq0 : 0 < q) (hq : q < 2 ^ 64) (ha : 0 < a.toNat) (hmul : a.toNat * abs_p < 2 ^ 256)
    (hn : n + 1 < 2 ^ 64) (hsum : 0 ≤ stepSum isNegative n result.toNat (next abs_p q a.toNat (n + 1)))
    (hsum' : stepSum isNegative n result.toNat (next abs_p q a.toNat (n + 1)) < 2 ^ 256) :
    ∃ a' result' : ArithUint256, a'.toNat = next abs_p q a.toNat (n + 1) ∧
      (result'.toNat : Int) = stepSum isNegative n result.toNat (next abs_p q a.toNat (n + 1)) ∧
      mulExpLoop abs_p q isNegative (fuel + 1) a result n =
        mulExpLoop abs_p q isNegative fuel a' result' (n + 1) := by
  -- the product and the two quotients are exact
  have hprod : (a.mulU32 (UInt32.ofNat abs_p)).toNat = a.toNat * abs_p := by
    rw [toNat_mulU32, UInt32.toNat_ofNat', Nat.mod_eq_of_lt hp]
    exact Nat.mod_eq_of_lt hmul
  obtain ⟨a₁, ha₁, hv₁⟩ := (div_spec (a.mulU32 (UInt32.ofNat abs_p)) (ofUInt64 q)).2
    (by rw [toNat_ofUInt64_256 hq]; omega)
  obtain ⟨a₂, ha₂, hv₂⟩ := (div_spec a₁ (ofUInt64 (n + 1))).2
    (by rw [toNat_ofUInt64_256 hn]; omega)
  have hterm : a₂.toNat = next abs_p q a.toNat (n + 1) := by
    rw [hv₂, hv₁, hprod, toNat_ofUInt64_256 hq, toNat_ofUInt64_256 hn]
    rfl
  refine ⟨a₂, if isNegative && (n + 1) % 2 == 1 then result.sub a₂ else result.add a₂, hterm, ?_, ?_⟩
  · -- a subtraction that stays at or above `0`, or an addition that does not wrap
    unfold stepSum at hsum hsum' ⊢
    rw [← hterm] at hsum hsum' ⊢
    by_cases hs : subtracts isNegative (n + 1) = true
    · have hs' : (isNegative && (n + 1) % 2 == 1) = true := hs
      rw [if_pos hs] at hsum ⊢
      rw [if_pos hs', toNat_sub_of_le (by omega)]
      omega
    · have hs' : ¬(isNegative && (n + 1) % 2 == 1) = true := hs
      rw [if_neg hs] at hsum' ⊢
      rw [if_neg hs', toNat_add]
      exact congrArg _ (Nat.mod_eq_of_lt (by omega))
  · rw [mulExpLoop, if_pos ((compareTo_zero_pos_iff a).mpr ha), Nat.mod_eq_of_lt hn, ha₁]
    dsimp only [bind, Except.bind]
    rw [ha₂]

/-- The loop of `mul_exp` computes the series exactly from every state of
    an invariant `I` that one step of the series keeps and that bounds the
    product, the counter and the partial sum.  Induction on the fuel. -/
theorem mulExpLoop_eq_run (I : Nat → Int → Nat → Prop) (hp : abs_p < 2 ^ 32) (hq0 : 0 < q)
    (hq : q < 2 ^ 64)
    (hstep : ∀ {t s n}, I t s n → 0 < t →
      I (next abs_p q t (n + 1)) (stepSum isNegative n s (next abs_p q t (n + 1))) (n + 1))
    (hsafe : ∀ {t s n}, I t s n → 0 < t → t * abs_p < 2 ^ 256 ∧ n + 1 < 2 ^ 64)
    (hrange : ∀ {t s n}, I t s n → 0 ≤ s ∧ s < 2 ^ 256) :
    ∀ (fuel : Nat) (a result : ArithUint256) (n : Nat), I a.toNat result.toNat n →
      ∃ r, mulExpLoop abs_p q isNegative fuel a result n = .ok r ∧
        (r.toNat : Int) = run abs_p q isNegative fuel a.toNat result.toNat n
  | 0, _, result, _, _ => ⟨result, rfl, rfl⟩
  | fuel + 1, a, result, n, hI => by
    by_cases ha : 0 < a.toNat
    · obtain ⟨hmul, hn⟩ := hsafe hI ha
      have hI' := hstep hI ha
      obtain ⟨hs0, hs1⟩ := hrange hI'
      obtain ⟨a', result', ha', hr', hloop⟩ := mulExpLoop_succ fuel hp hq0 hq ha hmul hn hs0 hs1
      rw [← hr', ← ha'] at hI'
      obtain ⟨r, hr, hval⟩ := mulExpLoop_eq_run I hp hq0 hq hstep hsafe hrange fuel a' result' (n + 1) hI'
      refine ⟨r, hloop.trans hr, ?_⟩
      rw [hval, run_succ fuel _ n ha, ha', hr']
      rfl
    · have hcmp : ¬a.compareTo (ofUInt64 0) > 0 := fun h => ha ((compareTo_zero_pos_iff a).mp h)
      refine ⟨result, by rw [mulExpLoop, if_neg hcmp], ?_⟩
      rw [run_of_not_pos _ _ _ ha]

end Loop

/-! ## `mul_exp` is the series

The invariants of `ExpSeries` bound the states of a run from a target below
`2 ^ 240`: every term times `|p| < 2 ^ 13` fits 256 bits, every partial sum
is at most `11` times the target, and a term that is not `0` has an index
below `256`.
-/

section MulExp

/-- A bound on `t * 2 ^ n` for a term `t` that is not `0` bounds the
    counter. -/
theorem index_lt_of_decay {t n C : Nat} (ht : 0 < t) (hd : t * 2 ^ n ≤ C) (hC : C < 2 ^ 256) :
    n + 1 < 2 ^ 64 := by
  have hpow : 2 ^ n < 2 ^ 256 :=
    calc 2 ^ n ≤ t * 2 ^ n := Nat.le_mul_of_pos_left _ ht
      _ ≤ C := hd
      _ < 2 ^ 256 := hC
  have hn : n < 256 := (Nat.pow_lt_pow_iff_right (by decide)).mp hpow
  omega

theorem mul_lt_of_lt_two_pow_242 {t x : Nat} (ht : t < 2 ^ 242) (hx : x < 2 ^ 13) : t * x < 2 ^ 256 :=
  calc t * x < 2 ^ 242 * 2 ^ 13 := Nat.mul_lt_mul'' ht hx
    _ < 2 ^ 256 := by decide

variable {A x t n : Nat} {s : Int}

theorem posInv_safe (hA : A < 2 ^ 240) (hx : x < 2 ^ 13) (h : PosInv A t s n) (ht : 0 < t) :
    t * x < 2 ^ 256 ∧ n + 1 < 2 ^ 64 := by
  have hterm := h.term_le
  exact ⟨mul_lt_of_lt_two_pow_242 (by omega) hx, index_lt_of_decay ht h.decay (by omega)⟩

theorem posInv_range (hA : A < 2 ^ 240) (h : PosInv A t s n) : 0 ≤ s ∧ s < 2 ^ 256 := by
  have hs := h.sum_le
  exact ⟨h.sum_nonneg, by omega⟩

theorem negInv_safe (hA : A < 2 ^ 240) (hx : x < 2 ^ 13) (h : NegInv A t s n) (ht : 0 < t) :
    t * x < 2 ^ 256 ∧ n + 1 < 2 ^ 64 := by
  have hterm := h.term_le
  exact ⟨mul_lt_of_lt_two_pow_242 (by omega) hx, index_lt_of_decay ht h.decay (by omega)⟩

theorem negInv_range (hA : A < 2 ^ 240) (h : NegInv A t s n) : 0 ≤ s ∧ s < 2 ^ 256 := by
  have hs := h.sum_le
  exact ⟨h.sum_nonneg, by omega⟩

/-- `mul_exp(a, p, q)` is the series `ExpSeries.expRun` for a target below
    `2 ^ 240` and `-q ≤ p ≤ 2 * q` with `0 < q < 2 ^ 12`: it has a value, and
    every round the source makes is a term of the series. -/
theorem mulExp_eq_expRun {a : ArithUint256} (ha : a.toNat < 2 ^ 240) {p q : Int} (hq0 : 0 < q)
    (hq : q < 2 ^ 12) (hlo : -q ≤ p) (hhi : p ≤ 2 * q) :
    ∃ r, mulExp a p q = .ok r ∧ (r.toNat : Int) = expRun q.toNat (2 ^ 64) a.toNat p := by
  have habs : (if p ≥ 0 then p else -p).toNat % 2 ^ 64 = p.natAbs := by
    split <;> omega
  have hq' : (q % 2 ^ 64).toNat = q.toNat := by omega
  have hp32 : p.natAbs < 2 ^ 32 := by omega
  have hx : p.natAbs < 2 ^ 13 := by omega
  unfold mulExp expRun
  dsimp only
  rw [habs, hq']
  by_cases hp : p < 0
  · -- a negative exponent: `|p| ≤ q`
    rw [decide_eq_true hp]
    exact mulExpLoop_eq_run (NegInv a.toNat) hp32 (by omega) (by omega)
      (fun hI _ => NegInv.step (by omega) hI) (fun hI ht => negInv_safe ha hx hI ht) (fun hI => negInv_range ha hI)
      (2 ^ 64) a a 0 (NegInv.start a.toNat)
  · -- a positive exponent: `p ≤ 2 * q`
    rw [decide_eq_false hp]
    exact mulExpLoop_eq_run (PosInv a.toNat) hp32 (by omega) (by omega)
      (fun hI _ => PosInv.step (by omega) hI) (fun hI ht => posInv_safe ha hx hI ht) (fun hI => posInv_range ha hI)
      (2 ^ 64) a a 0 (PosInv.start a.toNat)

end MulExp

/-! ## The clamp and the compact form -/

/-- `clampTarget` on the numbers: a target that is `0` or above the limit
    becomes the limit. -/
def clampNat (L v : Nat) : Nat := if v = 0 ∨ L < v then L else v

theorem clampTarget_cond_iff (L b : ArithUint256) :
    (decide (b.compareTo (ofUInt64 0) ≤ 0) || decide (b.compareTo L > 0)) = true ↔
      b.toNat = 0 ∨ L.toNat < b.toNat := by
  have hzero : b.compareTo (ofUInt64 0) ≤ 0 ↔ b.toNat = 0 := by
    rw [← Int.not_lt, ← gt_iff_lt, compareTo_zero_pos_iff]
    omega
  rw [Bool.or_eq_true, decide_eq_true_iff, decide_eq_true_iff, hzero, gt_iff_lt, compareTo_pos_iff]

theorem toNat_clampTarget (L b : ArithUint256) : (clampTarget L b).toNat = clampNat L.toNat b.toNat := by
  unfold clampTarget clampNat
  by_cases h : b.toNat = 0 ∨ L.toNat < b.toNat
  · rw [if_pos ((clampTarget_cond_iff L b).mpr h), if_pos h]
  · rw [if_neg (fun h' => h ((clampTarget_cond_iff L b).mp h')), if_neg h]

theorem clampNat_pos_le {L : Nat} (hL : 0 < L) (v : Nat) : 0 < clampNat L v ∧ clampNat L v ≤ L := by
  unfold clampNat
  split <;> omega

theorem clampNat_mono {L v w : Nat} (hv : 0 < v) (h : v ≤ w) : clampNat L v ≤ clampNat L w := by
  unfold clampNat
  split <;> split <;> omega

theorem clampNat_of_le {L v : Nat} (hv : 0 < v) (h : v ≤ L) : clampNat L v = v :=
  if_neg (by omega)

/-- What `GetCompact` writes, `SetCompact` reads back rounded. -/
theorem setCompact_getCompact (v : ArithUint256) :
    ∃ c, v.getCompact false = .ok c ∧ (setCompact c).1.toNat = compactRound v.toNat :=
  ⟨_, getCompact_eq v, setCompact_compactCode_toNat v.toNat_lt⟩

/-! ## The exponent of the reduced block time

With a target spacing of `32` and a stake mask of `3`, the clamped spacing
`c ∈ [0, 640]` gives `p = (2 * (c - 32)) / 4 ∈ [-16, 304]`, truncated, and
`q = 32 * 32 / 4 = 256`.
-/

theorem limitSpacing_bounds {T f s : Int} (hT : 0 ≤ T) (hTf : T ≤ T * f) :
    0 ≤ limitSpacing T f s ∧ limitSpacing T f s ≤ T * f := by
  unfold limitSpacing
  dsimp only
  split <;> split <;> omega

theorem limitSpacing_of_mem {T f s : Int} (h0 : 0 ≤ s) (h : s ≤ T * f) : limitSpacing T f s = s := by
  unfold limitSpacing
  dsimp only
  rw [if_neg (Int.not_lt.mpr h0), if_neg (Int.not_lt.mpr h)]

/-- The exponent of the retarget, from a spacing clamped to `[0, 640]`. -/
def rbtExponent (c : Int) : Int := Int.tdiv (2 * (c - 32)) 4

theorem rbtExponent_mono {c c' : Int} (h : c ≤ c') : rbtExponent c ≤ rbtExponent c' :=
  Int.tdiv_le_tdiv (by decide) (by omega)

theorem rbtExponent_bounds {c : Int} (h0 : 0 ≤ c) (h1 : c ≤ 640) :
    -16 ≤ rbtExponent c ∧ rbtExponent c ≤ 304 :=
  ⟨(rbtExponent_mono h0 : rbtExponent 0 ≤ _), (rbtExponent_mono h1 : _ ≤ rbtExponent 640)⟩

theorem retargetExp_rbt (a : ArithUint256) (s : Int) :
    retargetExp a 31 32 s 3 = mulExp a (rbtExponent (limitSpacing 32 20 s)) 256 := by
  have hdiv : (((3 : UInt32) + 1).toNat : Int) = 4 := rfl
  unfold retargetExp
  rw [hdiv]
  dsimp only
  rw [if_neg (by decide), show Int.tdiv ((31 + 1) * 32) 4 = 256 by decide]
  rfl

/-! ## The retarget from QIP9 on -/

/-- The target the retarget decodes to, from the limit `L`, the last target
    `a` and the exponent `p`: the series over `q = 256`, clamped, rounded to
    its compact form. -/
def retargetValue (L a : Nat) (p : Int) : Nat :=
  compactRound (clampNat L (expRun 256 (2 ^ 64) a p).toNat)

section Retarget

variable {L a : Nat} {p p' : Int}

/-- Every exponent of the retarget has `p ^ 2 ≤ 2 * q` and `-p < q` when it
    is negative. -/
theorem rbt_neg (hp : -16 ≤ p) : p < 0 → p.natAbs ^ 2 ≤ 2 * 256 ∧ p.natAbs ≤ 256 := by
  intro hneg
  have h16 : p.natAbs ≤ 16 := by omega
  exact ⟨Nat.le_trans (Nat.pow_le_pow_left h16 2) (by decide), by omega⟩

theorem expRun_rbt_pos (hp : -16 ≤ p) (ha : 0 < a) : 0 < expRun 256 (2 ^ 64) a p :=
  expRun_pos (fun hneg => by omega) _ ha

theorem retargetValue_mono (hp : -16 ≤ p) (hpp : p ≤ p') (ha : 0 < a) :
    retargetValue L a p ≤ retargetValue L a p' := by
  have hmono := expRun_mono (by decide) hpp (rbt_neg hp) (2 ^ 64) a
  have hpos := expRun_rbt_pos hp ha
  exact compactRound_mono (clampNat_mono (by omega) (by omega))

theorem retargetValue_range (hL : 0 < L) (a : Nat) (p : Int) :
    0 < retargetValue L a p ∧ retargetValue L a p ≤ L := by
  obtain ⟨hpos, hle⟩ := clampNat_pos_le hL (expRun 256 (2 ^ 64) a p).toNat
  exact ⟨compactRound_pos hpos, Nat.le_trans (compactRound_le _) hle⟩

theorem retargetValue_zero (ha : 0 < a) (haL : a ≤ L) : retargetValue L a 0 = compactRound a := by
  unfold retargetValue
  rw [expRun_zero, Int.toNat_natCast, clampNat_of_le ha haL]

end Retarget

section CalculateNextWorkRequired

variable {params : ConsensusParams} {pindexLast : BlockIndex}

/-- From QIP9 on, with proof-of-stake retargeting on, the retarget is
    `mul_exp` of the last target, then the clamp and `GetCompact`. -/
theorem calculateNextWorkRequired_eq_retargetExp (hflag : params.fPoSNoRetargeting = false)
    (hQIP9 : params.QIP9Height ≤ pindexLast.nHeight + 1) (nFirstBlockTime : Int) :
    calculateNextWorkRequired pindexLast nFirstBlockTime params true =
      (retargetExp (setCompact pindexLast.nBits).1
        (params.difficultyAdjustmentInterval (pindexLast.nHeight + 1))
        (params.targetSpacing (pindexLast.nHeight + 1)) (pindexLast.getBlockTime - nFirstBlockTime)
        (params.stakeTimestampMask (pindexLast.nHeight + 1))) >>= fun bnNew =>
        (clampTarget (getLimit (pindexLast.nHeight + 1) params true) bnNew).getCompact false := by
  unfold calculateNextWorkRequired
  rw [if_pos rfl, hflag, if_neg Bool.false_ne_true, if_neg (Int.not_lt.mpr hQIP9)]

/-- With the reduced block time's parameters, from QIP9 on, the retarget
    of a target in `(0, L]` for a limit `L` below `2 ^ 240` has a value, and
    it decodes to `retargetValue` of the exponent of the clamped spacing. -/
theorem calculateNextWorkRequired_decode (hflag : params.fPoSNoRetargeting = false)
    (hQIP9 : params.QIP9Height ≤ pindexLast.nHeight + 1)
    (hspacing : params.targetSpacing (pindexLast.nHeight + 1) = 32)
    (htimespan : params.targetTimespan (pindexLast.nHeight + 1) = 1000)
    (hmask : params.stakeTimestampMask (pindexLast.nHeight + 1) = 3)
    (hlimit : (getLimit (pindexLast.nHeight + 1) params true).toNat < 2 ^ 240)
    (hbits : (setCompact pindexLast.nBits).1.toNat ≤ (getLimit (pindexLast.nHeight + 1) params true).toNat)
    (nFirstBlockTime : Int) :
    ∃ c, calculateNextWorkRequired pindexLast nFirstBlockTime params true = .ok c ∧
      (setCompact c).1.toNat = retargetValue (getLimit (pindexLast.nHeight + 1) params true).toNat
        (setCompact pindexLast.nBits).1.toNat
        (rbtExponent (limitSpacing 32 20 (pindexLast.getBlockTime - nFirstBlockTime))) := by
  have hinterval : params.difficultyAdjustmentInterval (pindexLast.nHeight + 1) = 31 := by
    unfold ConsensusParams.difficultyAdjustmentInterval
    rw [htimespan, hspacing]
    decide
  obtain ⟨hc0, hc1⟩ := @limitSpacing_bounds 32 20 (pindexLast.getBlockTime - nFirstBlockTime)
    (by decide) (by decide)
  obtain ⟨hp0, hp1⟩ := rbtExponent_bounds hc0 hc1
  obtain ⟨r, hr, hval⟩ := @mulExp_eq_expRun _ (Nat.lt_of_le_of_lt hbits hlimit)
    (rbtExponent (limitSpacing 32 20 (pindexLast.getBlockTime - nFirstBlockTime))) 256 (by decide)
    (by decide) (by omega) (by omega)
  obtain ⟨c, hc, hdec⟩ := setCompact_getCompact (clampTarget (getLimit (pindexLast.nHeight + 1) params true) r)
  refine ⟨c, ?_, ?_⟩
  · rw [calculateNextWorkRequired_eq_retargetExp hflag hQIP9, hinterval, hspacing, hmask, retargetExp_rbt,
      hr]
    exact hc
  · -- `q.toNat` of `q = 256` is the `256` of `retargetValue`
    have hval' : (r.toNat : Int) = expRun 256 (2 ^ 64) (setCompact pindexLast.nBits).1.toNat
        (rbtExponent (limitSpacing 32 20 (pindexLast.getBlockTime - nFirstBlockTime))) := hval
    rw [hdec, toNat_clampTarget]
    unfold retargetValue
    rw [← hval', Int.toNat_natCast]

end CalculateNextWorkRequired

end Revo
