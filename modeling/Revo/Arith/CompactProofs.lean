/-
  Revo.Arith.CompactProofs

  The compact form of a target round-trips up to the precision it keeps.

    * `GetCompact` writes the exponent `compactExponent v`, the number of
      bytes that hold `v` with the top bit of the top byte clear, and the
      mantissa `compactMantissa v`, `v` moved so that its top byte is the
      third byte of the 23 mantissa bits.
    * `SetCompact` reads the mantissa `c % 2 ^ 23` and the exponent
      `c / 2 ^ 24` back as `mantissa * 256 ^ (exponent - 3)`.
    * So `SetCompact (GetCompact v)` is `v` with the bytes below the
      mantissa cleared, never negative and never an overflow: three bytes of
      `v` survive when its top byte is below `0x80`, two when it is `0x80` or
      more, since that byte would be the sign bit.
-/

import Revo.Arith.ArithUint256Proofs

namespace Revo

namespace ArithUint256

open BaseUint

/-- The exponent of the compact form of `v`: the least number of bytes that
    hold `v` with the top bit of the top one clear; `0` for `0`. -/
def compactExponent (v : Nat) : Nat := if v = 0 then 0 else (v.size + 8) / 8

/-- The mantissa of the compact form of `v`: `v` scaled by `256 ^ (3 - e)`
    for the exponent `e`, cutting the bytes below it. -/
def compactMantissa (v : Nat) : Nat :=
  if compactExponent v ≤ 3 then v * 2 ^ (8 * (3 - compactExponent v))
  else v / 2 ^ (8 * (compactExponent v - 3))

/-- The compact word of `v`: the mantissa under the exponent byte. -/
def compactCode (v : Nat) : UInt32 := UInt32.ofNat (compactMantissa v + 2 ^ 24 * compactExponent v)

/-- `v` with the bytes below its compact mantissa cleared. -/
def compactRound (v : Nat) : Nat :=
  v / 2 ^ (8 * (compactExponent v - 3)) * 2 ^ (8 * (compactExponent v - 3))

/-- The mantissa word `SetCompact` keeps of the code `c`: its 23 low bits,
    moved down by the missing bytes when the exponent is below `3`. -/
def compactWord (c : Nat) : Nat :=
  if c / 2 ^ 24 ≤ 3 then c % 2 ^ 23 / 2 ^ (8 * (3 - c / 2 ^ 24)) else c % 2 ^ 23

/-! ## The fields of a compact word -/

theorem toNat_and_mantissaMask (c : UInt32) : (c &&& 0x007fffff).toNat = c.toNat % 2 ^ 23 := by
  rw [UInt32.toNat_and, show (0x007fffff : UInt32).toNat = 2 ^ 23 - 1 from rfl,
    Nat.and_two_pow_sub_one_eq_mod]

/-- Bit `23` of a number below `2 ^ 24` is set exactly from `2 ^ 23` on. -/
theorem testBit_23_iff {m : Nat} (hm : m < 2 ^ 24) : m.testBit 23 = true ↔ 2 ^ 23 ≤ m :=
  ⟨Nat.ge_two_pow_of_testBit, fun h => Nat.testBit_of_two_pow_le_and_two_pow_add_one_gt h hm⟩

theorem toNat_and_signBit (c : UInt32) :
    (c &&& 0x00800000).toNat = (c.toNat.testBit 23).toNat * 2 ^ 23 := by
  rw [UInt32.toNat_and, show (0x00800000 : UInt32).toNat = 2 ^ 23 from rfl, Nat.and_two_pow]

theorem and_signBit_ne_zero_iff (c : UInt32) : c &&& 0x00800000 ≠ 0 ↔ c.toNat.testBit 23 = true := by
  rw [Ne, ← UInt32.toNat_inj, toNat_and_signBit, UInt32.toNat_zero]
  cases c.toNat.testBit 23 <;> simp

/-- A mantissa below `2 ^ 23` has no bits under `~0x007fffff`. -/
theorem ofNat_and_not_mantissaMask {m : Nat} (hm : m < 2 ^ 23) :
    UInt32.ofNat m &&& ~~~0x007fffff = 0 := by
  apply UInt32.toNat_inj.mp
  rw [UInt32.toNat_and, UInt32.toNat_ofNat', Nat.mod_eq_of_lt (by omega), UInt32.toNat_zero,
    show (~~~0x007fffff : UInt32).toNat = 2 ^ 23 * 511 from rfl]
  apply Nat.eq_of_testBit_eq
  intro i
  rw [Nat.testBit_and, Nat.zero_testBit, Nat.mul_comm, Nat.testBit_mul_two_pow]
  by_cases hi : 23 ≤ i
  · rw [Nat.testBit_lt_two_pow (Nat.lt_of_lt_of_le hm (Nat.pow_le_pow_right (by decide) hi)),
      Bool.false_and]
  · rw [decide_eq_false hi, Bool.false_and, Bool.and_false]

/-- `nCompact |= nSize << 24` puts the exponent above a mantissa below
    `2 ^ 24`. -/
theorem ofNat_or_exponent {m e : Nat} (hm : m < 2 ^ 24) (he : e < 256) :
    UInt32.ofNat m ||| UInt32.ofNat e <<< 24 = UInt32.ofNat (m + 2 ^ 24 * e) := by
  apply UInt32.toNat_inj.mp
  have hsum : m + 2 ^ 24 * e < 2 ^ 32 := by omega
  rw [UInt32.toNat_or, UInt32.toNat_shiftLeft, UInt32.toNat_ofNat', UInt32.toNat_ofNat',
    UInt32.toNat_ofNat', Nat.mod_eq_of_lt (by omega : m < 2 ^ 32), Nat.mod_eq_of_lt (by omega : e < 2 ^ 32),
    show (24 : UInt32).toNat % 32 = 24 from rfl, Nat.shiftLeft_eq,
    Nat.mod_eq_of_lt (by omega : e * 2 ^ 24 < 2 ^ 32), Nat.mod_eq_of_lt hsum, Nat.or_comm,
    ← Nat.shiftLeft_eq, ← Nat.shiftLeft_add_eq_or_of_lt hm, Nat.shiftLeft_eq, Nat.add_comm, Nat.mul_comm]

theorem compact_fields {m e : Nat} (hm : m < 2 ^ 23) (he : e < 256) :
    (UInt32.ofNat (m + 2 ^ 24 * e)).toNat % 2 ^ 23 = m ∧
      (UInt32.ofNat (m + 2 ^ 24 * e)).toNat / 2 ^ 24 = e ∧
      (UInt32.ofNat (m + 2 ^ 24 * e)).toNat.testBit 23 = false := by
  have hsum : m + 2 ^ 24 * e < 2 ^ 32 := by omega
  rw [UInt32.toNat_ofNat', Nat.mod_eq_of_lt hsum]
  refine ⟨by omega, by omega, ?_⟩
  rw [show m + 2 ^ 24 * e = 2 ^ 24 * e + m by omega, Nat.testBit_two_pow_mul_add _ (by omega : m < 2 ^ 24),
    if_pos (by decide : 23 < 24)]
  exact Nat.testBit_lt_two_pow hm

/-! ## `GetCompact` -/

/-- The mantissa `GetCompact` reads before it looks at the sign bit: `v`
    scaled to the `nSize = (bits + 7) / 8` bytes it takes. -/
def byteMantissa (v : Nat) : Nat :=
  if (v.size + 7) / 8 ≤ 3 then v * 2 ^ (8 * (3 - (v.size + 7) / 8))
  else v / 2 ^ (8 * ((v.size + 7) / 8 - 3))

theorem byteMantissa_lt (v : Nat) : byteMantissa v < 2 ^ 24 := by
  have hSn : v.size ≤ 8 * ((v.size + 7) / 8) := by omega
  have hv : v < 2 ^ (8 * ((v.size + 7) / 8)) :=
    Nat.lt_of_lt_of_le (Nat.lt_size_self _) (Nat.pow_le_pow_right (by decide) hSn)
  unfold byteMantissa
  generalize (v.size + 7) / 8 = n at hv ⊢
  split
  · rename_i hn
    calc v * 2 ^ (8 * (3 - n)) < 2 ^ (8 * n) * 2 ^ (8 * (3 - n)) :=
          Nat.mul_lt_mul_of_pos_right hv (Nat.two_pow_pos _)
      _ = 2 ^ 24 := by rw [← Nat.pow_add]; congr 1; omega
  · rw [Nat.div_lt_iff_lt_mul (Nat.two_pow_pos _), ← Nat.pow_add]
    exact Nat.lt_of_lt_of_le hv (Nat.pow_le_pow_right (by decide) (by omega))

/-- The sign bit of the byte mantissa is the top bit of the top byte. -/
theorem two_pow_23_le_byteMantissa_iff {v : Nat} (hv : v ≠ 0) :
    2 ^ 23 ≤ byteMantissa v ↔ 8 * ((v.size + 7) / 8) ≤ v.size := by
  have hpos := Nat.size_pos.mpr (Nat.pos_of_ne_zero hv)
  have hSn : v.size ≤ 8 * ((v.size + 7) / 8) := by omega
  -- the top bit of byte `nSize - 1` is bit `8 * nSize - 1`
  have htop : 2 ^ (8 * ((v.size + 7) / 8) - 1) ≤ v ↔ 8 * ((v.size + 7) / 8) ≤ v.size := by
    rw [← Nat.lt_size]
    omega
  rw [← htop]
  unfold byteMantissa
  have hn : 1 ≤ (v.size + 7) / 8 := by omega
  generalize (v.size + 7) / 8 = n at hn ⊢
  split
  · rename_i hn3
    rw [show (2 : Nat) ^ 23 = 2 ^ (8 * n - 1) * 2 ^ (8 * (3 - n)) by rw [← Nat.pow_add]; congr 1; omega,
      Nat.mul_le_mul_right_iff (Nat.two_pow_pos _)]
  · rw [Nat.le_div_iff_mul_le (Nat.two_pow_pos _), ← Nat.pow_add]
    rw [show 23 + 8 * (n - 3) = 8 * n - 1 by omega]

theorem compactExponent_le {v : Nat} (hv : v < 2 ^ 256) : compactExponent v ≤ 33 := by
  have hS : v.size ≤ 256 := Nat.size_le.mpr hv
  unfold compactExponent
  split <;> omega

/-- `v` fits the bytes of its exponent with their top bit clear. -/
theorem lt_two_pow_compactExponent (v : Nat) : v < 2 ^ (8 * compactExponent v - 1) := by
  unfold compactExponent
  split
  · rename_i h0
    rw [h0]
    exact Nat.two_pow_pos _
  · exact Nat.lt_of_lt_of_le (Nat.lt_size_self _) (Nat.pow_le_pow_right (by decide) (by omega))

theorem compactMantissa_lt (v : Nat) : compactMantissa v < 2 ^ 23 := by
  have hlt := lt_two_pow_compactExponent v
  unfold compactMantissa
  generalize compactExponent v = e at hlt ⊢
  split
  · by_cases h0 : v = 0
    · rw [h0, Nat.zero_mul]
      exact Nat.two_pow_pos _
    · -- `v ≠ 0` needs a byte: `e ≥ 1`
      have he : 1 ≤ e := by
        by_contra he
        rw [show e = 0 by omega] at hlt
        omega
      calc v * 2 ^ (8 * (3 - e)) < 2 ^ (8 * e - 1) * 2 ^ (8 * (3 - e)) :=
            Nat.mul_lt_mul_of_pos_right hlt (Nat.two_pow_pos _)
        _ = 2 ^ 23 := by rw [← Nat.pow_add]; congr 1; omega
  · rw [Nat.div_lt_iff_lt_mul (Nat.two_pow_pos _), ← Nat.pow_add]
    exact Nat.lt_of_lt_of_le hlt (Nat.pow_le_pow_right (by decide) (by omega))

/-- The sign step of `GetCompact` turns the byte mantissa and `nSize` into
    the compact mantissa and exponent. -/
theorem compact_of_byteMantissa (v : Nat) :
    (if 2 ^ 23 ≤ byteMantissa v then (byteMantissa v / 256, (v.size + 7) / 8 + 1)
      else (byteMantissa v, (v.size + 7) / 8)) = (compactMantissa v, compactExponent v) := by
  by_cases h0 : v = 0
  · subst h0
    rfl
  have hpos := Nat.size_pos.mpr (Nat.pos_of_ne_zero h0)
  have hSn : v.size ≤ 8 * ((v.size + 7) / 8) := by omega
  have hexp : compactExponent v = (v.size + 8) / 8 := if_neg h0
  by_cases hsign : 2 ^ 23 ≤ byteMantissa v
  · -- the top byte has its top bit: one byte more, one byte less of mantissa
    have hS := (two_pow_23_le_byteMantissa_iff h0).mp hsign
    have he : compactExponent v = (v.size + 7) / 8 + 1 := by rw [hexp]; omega
    rw [if_pos hsign]
    unfold compactMantissa byteMantissa
    rw [he]
    generalize (v.size + 7) / 8 = n at he hS hSn ⊢
    congr 1
    by_cases hn : n + 1 ≤ 3
    · rw [if_pos (by omega), if_pos hn, show 8 * (3 - n) = 8 * (3 - (n + 1)) + 8 by omega, Nat.pow_add,
        ← Nat.mul_assoc, Nat.mul_div_cancel _ (by decide)]
    · rw [if_neg hn, show 8 * (n + 1 - 3) = 8 * (n - 3) + 8 by omega, Nat.pow_add,
        ← Nat.div_div_eq_div_mul]
      split
      · rename_i hn3
        rw [show n - 3 = 0 by omega, show 3 - n = 0 by omega, Nat.mul_zero, Nat.pow_zero, Nat.mul_one,
          Nat.div_one]
      · rfl
  · -- no sign bit: the byte mantissa is the mantissa
    have hS : v.size < 8 * ((v.size + 7) / 8) := by
      have := (two_pow_23_le_byteMantissa_iff h0).not.mp hsign
      omega
    have he : compactExponent v = (v.size + 7) / 8 := by rw [hexp]; omega
    rw [if_neg hsign]
    unfold compactMantissa byteMantissa
    rw [he]

theorem ofNat_shiftRight_8 {M : Nat} (hM : M < 2 ^ 32) : UInt32.ofNat M >>> 8 = UInt32.ofNat (M / 256) := by
  apply UInt32.toNat_inj.mp
  rw [UInt32.toNat_shiftRight, UInt32.toNat_ofNat', UInt32.toNat_ofNat', Nat.mod_eq_of_lt hM,
    show (8 : UInt32).toNat % 32 = 8 from rfl, Nat.shiftRight_eq_div_pow,
    Nat.mod_eq_of_lt (Nat.lt_of_le_of_lt (Nat.div_le_self _ _) hM)]

/-- `GetCompact(false)` writes the compact mantissa and exponent. -/
theorem getCompact_eq (x : ArithUint256) : x.getCompact false = .ok (compactCode x.toNat) := by
  have hx : x.toNat < 2 ^ 256 := x.toNat_lt
  have hM := byteMantissa_lt x.toNat
  -- the first `nCompact` is the byte mantissa
  have hM0 : (if (x.toNat.size + 7) / 8 ≤ 3 then
        UInt32.ofNat (x.getLow64 <<< (8 * (3 - (x.toNat.size + 7) / 8)) % 2 ^ 64)
      else UInt32.ofNat (x.shiftRight (8 * ((x.toNat.size + 7) / 8 - 3))).getLow64) =
      UInt32.ofNat (byteMantissa x.toNat) := by
    unfold byteMantissa at hM ⊢
    split
    · rename_i hn
      rw [if_pos hn] at hM
      have hsmall : x.toNat < 2 ^ 64 := Nat.lt_of_le_of_lt (Nat.le_mul_of_pos_right _ (Nat.two_pow_pos _))
        (Nat.lt_trans hM (by decide))
      rw [getLow64_eq, Nat.mod_eq_of_lt hsmall, Nat.shiftLeft_eq, Nat.mod_eq_of_lt (Nat.lt_trans hM (by decide))]
    · rename_i hn
      rw [if_neg hn] at hM
      rw [getLow64_eq, toNat_shiftRight, Nat.mod_eq_of_lt (Nat.lt_trans hM (by decide))]
  have hsignU : (UInt32.ofNat (byteMantissa x.toNat) &&& 0x00800000 ≠ 0) ↔ 2 ^ 23 ≤ byteMantissa x.toNat := by
    rw [and_signBit_ne_zero_iff, UInt32.toNat_ofNat', Nat.mod_eq_of_lt (by omega), testBit_23_iff hM]
  have hpair := compact_of_byteMantissa x.toNat
  have hexp := compactExponent_le hx
  have hman := compactMantissa_lt x.toNat
  unfold getCompact compactCode
  dsimp only
  rw [bits_eq_size, hM0]
  by_cases hsign : 2 ^ 23 ≤ byteMantissa x.toNat
  · rw [if_pos hsign] at hpair
    obtain ⟨hm, he⟩ := Prod.mk.inj hpair
    rw [if_pos (hsignU.mpr hsign)]
    dsimp only
    rw [ofNat_shiftRight_8 (by omega), hm, he, ofNat_and_not_mantissaMask hman, if_neg (fun h => h rfl),
      if_neg (not_not.mpr (by omega)), Bool.false_and, if_neg Bool.false_ne_true, UInt32.or_zero,
      ofNat_or_exponent (by omega) (by omega)]
  · rw [if_neg hsign] at hpair
    obtain ⟨hm, he⟩ := Prod.mk.inj hpair
    rw [if_neg (fun h => hsign (hsignU.mp h))]
    dsimp only
    rw [hm, he, ofNat_and_not_mantissaMask hman, if_neg (fun h => h rfl),
      if_neg (not_not.mpr (by omega)), Bool.false_and, if_neg Bool.false_ne_true, UInt32.or_zero,
      ofNat_or_exponent (by omega) (by omega)]

/-! ## `SetCompact` -/

theorem compactWord_lt (c : Nat) : compactWord c < 2 ^ 23 := by
  unfold compactWord
  split
  · exact Nat.lt_of_le_of_lt (Nat.div_le_self _ _) (Nat.mod_lt _ (Nat.two_pow_pos _))
  · exact Nat.mod_lt _ (Nat.two_pow_pos _)

theorem toNat_shiftRight_bytes (w : UInt32) {k : Nat} (hk : k ≤ 3) :
    (w >>> UInt32.ofNat (8 * k)).toNat = w.toNat / 2 ^ (8 * k) := by
  rw [UInt32.toNat_shiftRight, UInt32.toNat_ofNat', Nat.mod_eq_of_lt (by omega : 8 * k < 2 ^ 32),
    Nat.mod_eq_of_lt (by omega : 8 * k < 32), Nat.shiftRight_eq_div_pow]

theorem decide_ne_zero_of_toNat {w : UInt32} {N : Nat} (hw : w.toNat = N) :
    decide (w ≠ 0) = decide (N ≠ 0) := by
  rw [← hw]
  exact decide_eq_decide.mpr (by rw [Ne, Ne, ← UInt32.toNat_inj, UInt32.toNat_zero])

theorem decide_gt_of_toNat {w : UInt32} {N : Nat} (hw : w.toNat = N) (k : UInt32) :
    decide (w > k) = decide (k.toNat < N) := by
  rw [← hw]
  exact decide_eq_decide.mpr UInt32.lt_iff_toNat_lt

/-- `SetCompact` in numbers: the word, its value, and the two flags. -/
theorem setCompact_eq (c : UInt32) :
    setCompact c =
      (if c.toNat / 2 ^ 24 ≤ 3 then ofUInt64 (compactWord c.toNat)
        else (ofUInt64 (compactWord c.toNat)).shiftLeft (8 * (c.toNat / 2 ^ 24 - 3)),
       decide (compactWord c.toNat ≠ 0) && c.toNat.testBit 23,
       decide (compactWord c.toNat ≠ 0) && (decide (34 < c.toNat / 2 ^ 24) ||
         (decide (0xff < compactWord c.toNat) && decide (33 < c.toNat / 2 ^ 24)) ||
         (decide (0xffff < compactWord c.toNat) && decide (32 < c.toNat / 2 ^ 24)))) := by
  have hsize : (c >>> 24).toNat = c.toNat / 2 ^ 24 := by
    rw [UInt32.toNat_shiftRight, show (24 : UInt32).toNat % 32 = 24 from rfl, Nat.shiftRight_eq_div_pow]
  have hneg : decide (c &&& 0x00800000 ≠ 0) = c.toNat.testBit 23 := by
    rw [Bool.eq_iff_iff, decide_eq_true_iff]
    exact and_signBit_ne_zero_iff c
  unfold setCompact
  dsimp only
  rw [hsize, hneg]
  by_cases he : c.toNat / 2 ^ 24 ≤ 3
  · -- the mantissa is moved down within the word
    have hw : ((c &&& 0x007fffff) >>> UInt32.ofNat (8 * (3 - c.toNat / 2 ^ 24))).toNat =
        compactWord c.toNat := by
      rw [toNat_shiftRight_bytes _ (by omega), toNat_and_mantissaMask, compactWord, if_pos he]
    rw [if_pos he, if_pos he]
    dsimp only
    rw [hw, decide_ne_zero_of_toNat hw, decide_gt_of_toNat hw, decide_gt_of_toNat hw]
    rfl
  · have hw : (c &&& 0x007fffff).toNat = compactWord c.toNat := by
      rw [toNat_and_mantissaMask, compactWord, if_neg he]
    rw [if_neg he, if_neg he]
    dsimp only
    rw [hw, decide_ne_zero_of_toNat hw, decide_gt_of_toNat hw, decide_gt_of_toNat hw]
    rfl

theorem setCompact_toNat (c : UInt32) :
    (setCompact c).1.toNat =
      if c.toNat / 2 ^ 24 ≤ 3 then compactWord c.toNat
      else compactWord c.toNat * 2 ^ (8 * (c.toNat / 2 ^ 24 - 3)) % 2 ^ 256 := by
  have hN : compactWord c.toNat < 2 ^ 64 := Nat.lt_trans (compactWord_lt _) (by decide)
  rw [setCompact_eq]
  by_cases he : c.toNat / 2 ^ 24 ≤ 3
  · rw [if_pos he, if_pos he]
    exact toNat_ofUInt64 (by decide) hN
  · rw [if_neg he, if_neg he]
    exact (toNat_shiftLeft _ _).trans (by rw [toNat_ofUInt64 (by decide) hN])

theorem mul_two_pow_lt_of_lt {N b j n : Nat} (hN : N < 2 ^ b) (h : b + j ≤ n) : N * 2 ^ j < 2 ^ n :=
  calc N * 2 ^ j < 2 ^ b * 2 ^ j := Nat.mul_lt_mul_of_pos_right hN (Nat.two_pow_pos _)
    _ = 2 ^ (b + j) := (Nat.pow_add _ _ _).symm
    _ ≤ 2 ^ n := Nat.pow_le_pow_right (by decide) h

/-- No overflow: the word moved up its bytes stays within 256 bits.  Each
    exponent from `33` on leaves one byte less to the word. -/
theorem lt_of_overflow_eq_false {c : UInt32} (h : (setCompact c).2.2 = false) :
    compactWord c.toNat * 2 ^ (8 * (c.toNat / 2 ^ 24 - 3)) < 2 ^ 256 := by
  rw [setCompact_eq] at h
  simp only [Bool.and_eq_false_iff, Bool.or_eq_false_iff, decide_eq_false_iff_not] at h
  have hN := compactWord_lt c.toNat
  rcases h with h0 | ⟨⟨h34, h33⟩, h32⟩
  · rw [show compactWord c.toNat = 0 by omega, Nat.zero_mul]
    exact Nat.two_pow_pos _
  · by_cases hle : c.toNat / 2 ^ 24 ≤ 32
    · exact mul_two_pow_lt_of_lt hN (by omega)
    · by_cases h33' : c.toNat / 2 ^ 24 = 33
      · exact mul_two_pow_lt_of_lt (show compactWord c.toNat < 2 ^ 16 by omega) (by omega)
      · exact mul_two_pow_lt_of_lt (show compactWord c.toNat < 2 ^ 8 by omega) (by omega)

/-! ## Rounding -/

theorem compactRound_le (v : Nat) : compactRound v ≤ v := Nat.div_mul_le_self _ _

theorem compactRound_of_exponent_le {v : Nat} (h : compactExponent v ≤ 3) : compactRound v = v := by
  unfold compactRound
  rw [show compactExponent v - 3 = 0 by omega, Nat.mul_zero, Nat.pow_zero, Nat.div_one, Nat.mul_one]

theorem compactExponent_le_size (v : Nat) : compactExponent v ≤ (v.size + 8) / 8 := by
  unfold compactExponent
  split <;> omega

/-- A number of at most 23 bits is kept whole. -/
theorem compactRound_of_lt {v : Nat} (h : v < 2 ^ 23) : compactRound v = v := by
  have := Nat.size_le.mpr h
  exact compactRound_of_exponent_le (Nat.le_trans (compactExponent_le_size v) (by omega))

/-- Clearing bits below the top one keeps the bit length. -/
theorem size_div_mul_two_pow {v k : Nat} (hk : k < v.size) : (v / 2 ^ k * 2 ^ k).size = v.size := by
  have htop : 2 ^ (v.size - 1) ≤ v := Nat.lt_size.mp (by omega)
  have hround : 2 ^ (v.size - 1) ≤ v / 2 ^ k * 2 ^ k :=
    calc 2 ^ (v.size - 1) = 2 ^ (v.size - 1) / 2 ^ k * 2 ^ k :=
          (Nat.div_mul_cancel (Nat.pow_dvd_pow 2 (by omega))).symm
      _ ≤ v / 2 ^ k * 2 ^ k := Nat.mul_le_mul_right _ (Nat.div_le_div_right htop)
  apply Nat.le_antisymm (Nat.size_le_size (Nat.div_mul_le_self _ _))
  have := Nat.lt_size.mpr hround
  omega

theorem compactExponent_eq_of_size_eq {v w : Nat} (h : v.size = w.size) :
    compactExponent v = compactExponent w := by
  have hv : v = 0 ↔ w = 0 := by rw [← Nat.size_eq_zero, h, Nat.size_eq_zero]
  unfold compactExponent
  by_cases h0 : v = 0
  · rw [if_pos h0, if_pos (hv.mp h0)]
  · rw [if_neg h0, if_neg (fun h' => h0 (hv.mpr h')), h]

theorem size_compactRound (v : Nat) : (compactRound v).size = v.size := by
  by_cases h3 : compactExponent v ≤ 3
  · rw [compactRound_of_exponent_le h3]
  · -- an exponent above `3`: the cleared bytes lie below the top bit
    have h0 : v ≠ 0 := fun h => h3 (by rw [h]; decide)
    have he : compactExponent v = (v.size + 8) / 8 := if_neg h0
    exact size_div_mul_two_pow (by omega)

theorem compactExponent_compactRound (v : Nat) : compactExponent (compactRound v) = compactExponent v :=
  compactExponent_eq_of_size_eq (size_compactRound v)

theorem compactRound_pos {v : Nat} (hv : 0 < v) : 0 < compactRound v := by
  apply Nat.size_pos.mp
  rw [size_compactRound]
  exact Nat.size_pos.mpr hv

/-- Rounding keeps the order: numbers of one bit length lose the same bytes,
    and a shorter number lies below the top bit of a longer one, which the
    rounding keeps. -/
theorem compactRound_mono {v w : Nat} (h : v ≤ w) : compactRound v ≤ compactRound w := by
  by_cases hsize : v.size = w.size
  · have hE := compactExponent_eq_of_size_eq hsize
    unfold compactRound
    rw [hE]
    exact Nat.mul_le_mul_right _ (Nat.div_le_div_right h)
  · have hlt : v.size < w.size := Nat.lt_of_le_of_ne (Nat.size_le_size h) hsize
    have htop : 0 < (compactRound w).size := by
      rw [size_compactRound]
      omega
    apply Nat.le_of_lt
    calc compactRound v ≤ v := compactRound_le v
      _ < 2 ^ v.size := Nat.lt_size_self v
      _ ≤ 2 ^ ((compactRound w).size - 1) :=
          Nat.pow_le_pow_right (by decide) (by rw [size_compactRound]; omega)
      _ ≤ compactRound w := Nat.lt_size.mp (by omega)

theorem compactMantissa_compactRound (v : Nat) : compactMantissa (compactRound v) = compactMantissa v := by
  by_cases h3 : compactExponent v ≤ 3
  · rw [compactRound_of_exponent_le h3]
  · unfold compactMantissa
    rw [compactExponent_compactRound, if_neg h3, if_neg h3]
    exact Nat.mul_div_cancel _ (Nat.two_pow_pos _)

theorem compactCode_compactRound (v : Nat) : compactCode (compactRound v) = compactCode v := by
  unfold compactCode
  rw [compactExponent_compactRound, compactMantissa_compactRound]

/-- A word below `2 ^ 23` moved up by whole bytes is kept whole: its
    exponent never asks for more bytes to be cleared than it was moved. -/
theorem compactRound_mul_two_pow {N : Nat} (hN : N < 2 ^ 23) (i : Nat) :
    compactRound (N * 2 ^ (8 * i)) = N * 2 ^ (8 * i) := by
  have hsize : (N * 2 ^ (8 * i)).size ≤ 23 + 8 * i := Nat.size_le.mpr (mul_two_pow_lt_of_lt hN le_rfl)
  have hE := compactExponent_le_size (N * 2 ^ (8 * i))
  have hdvd : 2 ^ (8 * (compactExponent (N * 2 ^ (8 * i)) - 3)) ∣ N * 2 ^ (8 * i) :=
    Dvd.dvd.mul_left (Nat.pow_dvd_pow 2 (by omega)) N
  exact Nat.div_mul_cancel hdvd

/-! ## The round trip -/

theorem compactCode_fields {v : Nat} (hv : v < 2 ^ 256) :
    (compactCode v).toNat % 2 ^ 23 = compactMantissa v ∧
      (compactCode v).toNat / 2 ^ 24 = compactExponent v ∧ (compactCode v).toNat.testBit 23 = false :=
  compact_fields (compactMantissa_lt v) (by have := compactExponent_le hv; omega)

theorem compactWord_compactCode {v : Nat} (hv : v < 2 ^ 256) :
    compactWord (compactCode v).toNat = v / 2 ^ (8 * (compactExponent v - 3)) := by
  obtain ⟨hm, he, -⟩ := compactCode_fields hv
  unfold compactWord
  rw [hm, he]
  unfold compactMantissa
  by_cases h3 : compactExponent v ≤ 3
  · rw [if_pos h3, if_pos h3, Nat.mul_div_cancel _ (Nat.two_pow_pos _), show compactExponent v - 3 = 0 by omega,
      Nat.mul_zero, Nat.pow_zero, Nat.div_one]
  · rw [if_neg h3, if_neg h3]

/-- `SetCompact` of a written word reports neither a negative number nor an
    overflow: the sign bit is clear, and exponent `33` keeps two bytes. -/
theorem setCompact_compactCode_flags {v : Nat} (hv : v < 2 ^ 256) :
    (setCompact (compactCode v)).2 = (false, false) := by
  obtain ⟨-, he, hb⟩ := compactCode_fields hv
  have hE := compactExponent_le hv
  have h33 : compactExponent v = 33 → v / 2 ^ (8 * (compactExponent v - 3)) < 2 ^ 16 := by
    intro h
    rw [h, Nat.div_lt_iff_lt_mul (Nat.two_pow_pos _), ← Nat.pow_add]
    exact hv
  rw [setCompact_eq, hb, he, compactWord_compactCode hv, Bool.and_false]
  refine congrArg (Prod.mk false) ?_
  simp only [Bool.and_eq_false_iff, Bool.or_eq_false_iff, decide_eq_false_iff_not]
  right
  by_cases h : compactExponent v = 33
  · have := h33 h
    omega
  · omega

theorem setCompact_compactCode_toNat {v : Nat} (hv : v < 2 ^ 256) :
    (setCompact (compactCode v)).1.toNat = compactRound v := by
  obtain ⟨-, he, -⟩ := compactCode_fields hv
  rw [setCompact_toNat, he, compactWord_compactCode hv]
  unfold compactRound
  by_cases h3 : compactExponent v ≤ 3
  · rw [if_pos h3, show compactExponent v - 3 = 0 by omega, Nat.mul_zero, Nat.pow_zero, Nat.mul_one]
  · rw [if_neg h3, Nat.mod_eq_of_lt (Nat.lt_of_le_of_lt (Nat.div_mul_le_self _ _) hv)]

/-- What `SetCompact` makes of a word it does not call an overflow is kept
    whole by the compact form. -/
theorem compactRound_setCompact {c : UInt32} (h : (setCompact c).2.2 = false) :
    compactRound (setCompact c).1.toNat = (setCompact c).1.toNat := by
  have hN := compactWord_lt c.toNat
  rw [setCompact_toNat]
  split
  · exact compactRound_of_lt hN
  · rw [Nat.mod_eq_of_lt (lt_of_overflow_eq_false h)]
    exact compactRound_mul_two_pow hN _

theorem compact_normalises :
    (∀ x : ArithUint256, ∃ c, x.getCompact false = .ok c ∧ (setCompact c).2 = (false, false) ∧
      (setCompact c).1.toNat = compactRound x.toNat ∧ compactRound x.toNat ≤ x.toNat) ∧
    (∀ (x : ArithUint256) (c : UInt32), x.getCompact false = .ok c → x.toNat < 2 ^ 23 →
      (setCompact c).1 = x) ∧
    (∀ (x : ArithUint256) (c : UInt32), x.getCompact false = .ok c →
      (setCompact c).1.getCompact false = .ok c) ∧
    (∀ c : UInt32, (setCompact c).2 = (false, false) →
      ∃ c', (setCompact c).1.getCompact false = .ok c' ∧ setCompact c' = setCompact c) := by
  refine ⟨fun x => ?_, fun x c h hsmall => ?_, fun x c h => ?_, fun c h => ?_⟩
  · exact ⟨compactCode x.toNat, getCompact_eq x, setCompact_compactCode_flags x.toNat_lt,
      setCompact_compactCode_toNat x.toNat_lt, compactRound_le _⟩
  · rw [getCompact_eq, Except.ok.injEq] at h
    subst h
    apply toNat_injective
    rw [setCompact_compactCode_toNat x.toNat_lt, compactRound_of_lt hsmall]
  · -- a written word: its value rounds to itself, so it is written again
    rw [getCompact_eq, Except.ok.injEq] at h
    subst h
    rw [getCompact_eq, setCompact_compactCode_toNat x.toNat_lt, compactCode_compactRound]
  · -- any word without flags: its value is kept whole, and the flags stay clear
    refine ⟨compactCode (setCompact c).1.toNat, getCompact_eq _, ?_⟩
    have hval : (setCompact (compactCode (setCompact c).1.toNat)).1 = (setCompact c).1 := by
      apply toNat_injective
      rw [setCompact_compactCode_toNat (toNat_lt _), compactRound_setCompact (congrArg Prod.snd h)]
    exact Prod.ext hval (by rw [setCompact_compactCode_flags (toNat_lt _), h])

theorem compact_normalises_0x04008000 :
    (getCompact (ofUInt64 0x7fffff) false = .ok 0x037fffff ∧
      (ofUInt64 0x7fffff : ArithUint256).toNat < 2 ^ 23 ∧
      (setCompact 0x037fffff).1 = ofUInt64 0x7fffff) ∧
    (getCompact (ofUInt64 0x800001) false = .ok 0x04008000 ∧
      (setCompact 0x04008000).1.getCompact false = .ok 0x04008000) ∧
    ((setCompact 0x04008000).2 = (false, false) ∧
      ∃ c', (setCompact 0x04008000).1.getCompact false = .ok c' ∧ setCompact c' = setCompact 0x04008000) :=
  ⟨⟨by decide, by decide, compact_normalises.2.1 (ofUInt64 0x7fffff) 0x037fffff (by decide) (by decide)⟩,
    ⟨by decide, compact_normalises.2.2.1 (ofUInt64 0x800001) 0x04008000 (by decide)⟩,
    ⟨by decide, compact_normalises.2.2.2 _ (by decide)⟩⟩

/-- A top byte of `0x80` or more costs the mantissa its third byte:
    `0x800001` is written `0x04008000`, which reads back as `0x800000`. -/
theorem compact_signByte_drops_digit :
    (BaseUint.ofUInt64 0x800001 : ArithUint256).toNat = 0x800001 ∧
      getCompact (ofUInt64 0x800001) false = .ok 0x04008000 ∧
      (setCompact 0x04008000).2 = (false, false) ∧ (setCompact 0x04008000).1.toNat = 0x800000 := by
  decide

end ArithUint256

end Revo
