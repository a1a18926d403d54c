/-
  Revo.Lib.TwoBitCells

  Cells of two bits kept in pairs of 64-bit words: cell `b` of the pair
  `(p1, p2)` has bit `b` of `p1` as its low bit and bit `b` of `p2` as its
  high bit.  The lemmas say what the usual word operations do to the cells:

    * `cell_setBits`: clearing bit `b` of both words and or-ing in the bits
      of `g` sets cell `b` to `g` and leaves the others;
    * `cell_wipe`: and-ing both words with the mask
      `(p1 ^ m1) | (p2 ^ m2)`, where `m1` and `m2` spread the two bits of
      `g` over the word, empties exactly the cells holding `g`;
    * `cell_eq_zero_iff`: `((p1 | p2) >> b) & 1` is `0` exactly when cell
      `b` is empty.
-/

import Mathlib.Data.BitVec

namespace TwoBitCells

/-- Bit `b` of a word, as `0` or `1`. -/
def bitOf (w : UInt64) (b : Nat) : Nat := (w.toBitVec.getLsbD b).toNat

/-- Cell `b` of a pair of words. -/
def cell (p1 p2 : UInt64) (b : Nat) : Nat := bitOf p1 b + 2 * bitOf p2 b

theorem cell_lt (p1 p2 : UInt64) (b : Nat) : cell p1 p2 b < 4 := by
  have h1 : bitOf p1 b < 2 := Bool.toNat_lt _
  have h2 : bitOf p2 b < 2 := Bool.toNat_lt _
  rw [cell]
  omega

theorem cell_zero_zero (b : Nat) : cell 0 0 b = 0 := by
  rw [cell, bitOf, UInt64.toBitVec_zero, BitVec.getLsbD_zero]
  rfl

/-- Past bit `63` a pair has only empty cells. -/
theorem cell_of_ge (p1 p2 : UInt64) {b : Nat} (hb : 64 ≤ b) : cell p1 p2 b = 0 := by
  rw [cell, bitOf, bitOf, BitVec.getLsbD_of_ge _ _ hb, BitVec.getLsbD_of_ge _ _ hb]
  rfl

theorem toBitVec_shiftLeft_of_lt (a : UInt64) {b : UInt64} (hb : b.toNat < 64) :
    (a <<< b).toBitVec = a.toBitVec <<< b.toNat := by
  rw [UInt64.toBitVec_shiftLeft, BitVec.shiftLeft_eq']
  congr 1
  rw [BitVec.toNat_umod]
  exact Nat.mod_eq_of_lt hb

theorem toBitVec_ushiftRight_of_lt (a : UInt64) {b : UInt64} (hb : b.toNat < 64) :
    (a >>> b).toBitVec = a.toBitVec >>> b.toNat := by
  rw [UInt64.toBitVec_shiftRight, BitVec.ushiftRight_eq']
  congr 1
  rw [BitVec.toNat_umod]
  exact Nat.mod_eq_of_lt hb

/-- Bit `j` after clearing bit `bit` and or-ing in `v << bit`, for `v` a
    single bit. -/
theorem getLsbD_setBit (w v bit : UInt64) (hb : bit.toNat < 64) (hv : v = 0 ∨ v = 1) (j : Nat) :
    ((w &&& ~~~((1 : UInt64) <<< bit)) ||| (v <<< bit)).toBitVec.getLsbD j =
      if j = bit.toNat then decide (v = 1) else w.toBitVec.getLsbD j := by
  simp only [UInt64.toBitVec_or, UInt64.toBitVec_and, UInt64.toBitVec_not, toBitVec_shiftLeft_of_lt _ hb,
    BitVec.getLsbD_or, BitVec.getLsbD_and, BitVec.getLsbD_not, BitVec.getLsbD_shiftLeft,
    UInt64.toBitVec_one, BitVec.getLsbD_one]
  by_cases hj : j < 64
  · -- inside the word: bit `bit` is replaced, the others are kept
    rcases hv with rfl | rfl
    · by_cases hjb : j = bit.toNat
      · subst hjb
        simp
      · have key : j - bit.toNat = 0 ↔ j < bit.toNat := by omega
        simp [hj, hjb, key]
    · by_cases hjb : j = bit.toNat
      · subst hjb
        simp [hb]
      · have key : j - bit.toNat = 0 ↔ j < bit.toNat := by omega
        simp [hj, hjb, key]
  · have hw : w.toBitVec.getLsbD j = false := BitVec.getLsbD_of_ge _ _ (by omega)
    simp [hj, hw]
    omega

/-- The low bit of a two-bit value, as a word. -/
theorem ofNat_and_one (g : Nat) : UInt64.ofNat (g &&& 1) = 0 ∨ UInt64.ofNat (g &&& 1) = 1 := by
  rw [Nat.and_one_is_mod]
  rcases Nat.mod_two_eq_zero_or_one g with h | h <;> rw [h]
  · exact .inl rfl
  · exact .inr rfl

/-- The high bit of a two-bit value, as a word. -/
theorem ofNat_shiftRight_one {g : Nat} (hg : g < 4) :
    UInt64.ofNat (g >>> 1) = 0 ∨ UInt64.ofNat (g >>> 1) = 1 := by
  rw [Nat.shiftRight_eq_div_pow, Nat.pow_one]
  have : g / 2 = 0 ∨ g / 2 = 1 := by omega
  rcases this with h | h <;> rw [h]
  · exact .inl rfl
  · exact .inr rfl

/-- Writing the two bits of `g` into cell `bit`. -/
theorem cell_setBits (p1 p2 bit : UInt64) {g : Nat} (hb : bit.toNat < 64) (hg : g < 4) (j : Nat) :
    cell ((p1 &&& ~~~((1 : UInt64) <<< bit)) ||| (UInt64.ofNat (g &&& 1) <<< bit))
        ((p2 &&& ~~~((1 : UInt64) <<< bit)) ||| (UInt64.ofNat (g >>> 1) <<< bit)) j =
      if j = bit.toNat then g else cell p1 p2 j := by
  rw [cell, bitOf, bitOf, getLsbD_setBit _ _ _ hb (ofNat_and_one g), getLsbD_setBit _ _ _ hb (ofNat_shiftRight_one hg)]
  by_cases hj : j = bit.toNat
  · rw [if_pos hj, if_pos hj, if_pos hj]
    -- the two bits of `g` make `g`
    obtain rfl | rfl | rfl | rfl : g = 0 ∨ g = 1 ∨ g = 2 ∨ g = 3 := by omega
    all_goals decide
  · rw [if_neg hj, if_neg hj, if_neg hj]
    rfl

/-- A word whose bits are all `b`. -/
theorem getLsbD_spread {g : Nat} (hg : g = 0 ∨ g = 1) (j : Nat) :
    ((0 : UInt64) - UInt64.ofNat g).toBitVec.getLsbD j = (decide (j < 64) && decide (g = 1)) := by
  rcases hg with rfl | rfl
  · have h0 : ((0 : UInt64) - UInt64.ofNat 0).toBitVec = 0#64 := by decide
    rw [h0, BitVec.getLsbD_zero]
    simp
  · have h1 : ((0 : UInt64) - UInt64.ofNat 1).toBitVec = BitVec.allOnes 64 := by decide
    rw [h1, BitVec.getLsbD_allOnes]
    simp

/-- The wipe on one cell, bit by bit. -/
theorem wipe_bits (x y : Bool) {g : Nat} (hg : g < 4) :
    (x && (x ^^ decide (g % 2 = 1) || y ^^ decide (g / 2 = 1))).toNat +
        2 * (y && (x ^^ decide (g % 2 = 1) || y ^^ decide (g / 2 = 1))).toNat =
      if x.toNat + 2 * y.toNat = g then 0 else x.toNat + 2 * y.toNat := by
  obtain rfl | rfl | rfl | rfl : g = 0 ∨ g = 1 ∨ g = 2 ∨ g = 3 := by omega
  all_goals cases x <;> cases y <;> decide

/-- The generation wipe: the cells holding `g` are emptied, the others kept. -/
theorem cell_wipe (p1 p2 : UInt64) {g : Nat} (hg : g < 4) (j : Nat) :
    cell (p1 &&& ((p1 ^^^ ((0 : UInt64) - UInt64.ofNat (g &&& 1))) ||| (p2 ^^^ ((0 : UInt64) - UInt64.ofNat (g >>> 1)))))
        (p2 &&& ((p1 ^^^ ((0 : UInt64) - UInt64.ofNat (g &&& 1))) ||| (p2 ^^^ ((0 : UInt64) - UInt64.ofNat (g >>> 1))))) j =
      if cell p1 p2 j = g then 0 else cell p1 p2 j := by
  have hlow : g &&& 1 = 0 ∨ g &&& 1 = 1 := by rw [Nat.and_one_is_mod]; omega
  have hhigh : g >>> 1 = 0 ∨ g >>> 1 = 1 := by rw [Nat.shiftRight_eq_div_pow, Nat.pow_one]; omega
  simp only [cell, bitOf, UInt64.toBitVec_and, UInt64.toBitVec_or, UInt64.toBitVec_xor, BitVec.getLsbD_and,
    BitVec.getLsbD_or, BitVec.getLsbD_xor, getLsbD_spread hlow, getLsbD_spread hhigh]
  by_cases hj : j < 64
  · -- one cell: four values of the cell, four of `g`
    rw [Nat.and_one_is_mod, Nat.shiftRight_eq_div_pow, Nat.pow_one]
    simp only [hj, decide_true, Bool.true_and]
    exact wipe_bits _ _ hg
  · have h1 : p1.toBitVec.getLsbD j = false := BitVec.getLsbD_of_ge _ _ (by omega)
    have h2 : p2.toBitVec.getLsbD j = false := BitVec.getLsbD_of_ge _ _ (by omega)
    simp [h1, h2]

/-- The low bit of a word decides whether `w & 1` is `0`. -/
theorem and_one_eq_zero_iff (w : UInt64) : w &&& 1 = 0 ↔ w.toBitVec.getLsbD 0 = false := by
  rw [← BitVec.testBit_toNat, Nat.testBit_zero, ← UInt64.toNat_inj, UInt64.toNat_and, UInt64.toNat_one,
    Nat.and_one_is_mod]
  simp

theorem getLsbD_zero_shiftRight (w bit : UInt64) (hb : bit.toNat < 64) :
    (w >>> bit).toBitVec.getLsbD 0 = w.toBitVec.getLsbD bit.toNat := by
  rw [toBitVec_ushiftRight_of_lt _ hb, BitVec.getLsbD_ushiftRight, Nat.add_zero]

/-- The test of `contains`: both words or-ed, shifted and masked. -/
theorem cell_eq_zero_iff (p1 p2 bit : UInt64) (hb : bit.toNat < 64) :
    ((p1 ||| p2) >>> bit) &&& 1 = 0 ↔ cell p1 p2 bit.toNat = 0 := by
  rw [and_one_eq_zero_iff, getLsbD_zero_shiftRight _ _ hb, UInt64.toBitVec_or, BitVec.getLsbD_or, cell, bitOf, bitOf]
  cases p1.toBitVec.getLsbD bit.toNat <;> cases p2.toBitVec.getLsbD bit.toNat <;> decide

end TwoBitCells
