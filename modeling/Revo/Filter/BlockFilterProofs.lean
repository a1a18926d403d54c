/-
  Revo.Filter.BlockFilterProofs

  The two bodies of `MapIntoRange` compute the same function, the high 64
  bits of the 128-bit product, so that filters built where `__int128`
  exists and where it does not are the same.
-/

import Revo.Filter.BlockFilter
import Revo.Lib.Bits
import Mathlib

namespace Revo

/-! ## MapIntoRange -/

/-- The 128-bit product does not wrap, and its high half fits a word. -/
theorem mapIntoRangeInt128_toNat (x n : UInt64) : (mapIntoRangeInt128 x n).toNat = x.toNat * n.toNat / 2 ^ 64 := by
  have hprod : x.toNat * n.toNat < 2 ^ 128 :=
    calc x.toNat * n.toNat < 2 ^ 64 * 2 ^ 64 := Nat.mul_lt_mul'' x.toNat_lt n.toNat_lt
      _ = 2 ^ 128 := by rw [← Nat.pow_add]
  have hhigh : x.toNat * n.toNat / 2 ^ 64 < 2 ^ 64 := by omega
  have hx : x.toNat < 2 ^ 128 := Nat.lt_trans x.toNat_lt (by decide)
  have hn : n.toNat < 2 ^ 128 := Nat.lt_trans n.toNat_lt (by decide)
  show (((x.toBitVec.setWidth 128 * n.toBitVec.setWidth 128) >>> 64).setWidth 64).toNat = _
  rw [BitVec.toNat_setWidth, BitVec.toNat_ushiftRight, BitVec.toNat_mul, BitVec.toNat_setWidth, BitVec.toNat_setWidth,
    UInt64.toNat_toBitVec, UInt64.toNat_toBitVec, Nat.mod_eq_of_lt hx, Nat.mod_eq_of_lt hn,
    Nat.mod_eq_of_lt hprod, Nat.shiftRight_eq_div_pow, Nat.mod_eq_of_lt hhigh]

/-- The last line of the portable body on any four products: only the
    middle column is known not to wrap here. -/
theorem upper64_toNat (ac ad bc bd : UInt64) :
    (ac + (bc >>> 32) + (ad >>> 32) + ((bd >>> 32) + (bc &&& 0xFFFFFFFF) + (ad &&& 0xFFFFFFFF)) >>> 32).toNat =
      (ac.toNat + bc.toNat / 2 ^ 32 + ad.toNat / 2 ^ 32 +
        (bd.toNat / 2 ^ 32 + bc.toNat % 2 ^ 32 + ad.toNat % 2 ^ 32) / 2 ^ 32) % 2 ^ 64 := by
  have hbc := bc.toNat_lt
  have had := ad.toNat_lt
  have hbd := bd.toNat_lt
  -- the middle column is three numbers below `2 ^ 32`
  have hmid : ((bd >>> 32) + (bc &&& 0xFFFFFFFF) + (ad &&& 0xFFFFFFFF)).toNat =
      bd.toNat / 2 ^ 32 + bc.toNat % 2 ^ 32 + ad.toNat % 2 ^ 32 := by
    rw [UInt64.toNat_add, UInt64.toNat_add, Bits.shiftRight_32_toNat, Bits.and_low32_toNat, Bits.and_low32_toNat]
    omega
  rw [UInt64.toNat_add, UInt64.toNat_add, UInt64.toNat_add, Bits.shiftRight_32_toNat, Bits.shiftRight_32_toNat,
    Bits.shiftRight_32_toNat, hmid]
  omega

/-- The portable body: the four products of halves are exact, and the sum
    of the last line is the high word itself, so it does not wrap either. -/
theorem mapIntoRangePortable_toNat (x n : UInt64) :
    (mapIntoRangePortable x n).toNat = x.toNat * n.toNat / 2 ^ 64 := by
  have hx := x.toNat_lt
  have hn := n.toNat_lt
  have hxh : (x >>> 32).toNat = x.toNat / 2 ^ 32 := Bits.shiftRight_32_toNat x
  have hxl : (x &&& 0xFFFFFFFF).toNat = x.toNat % 2 ^ 32 := Bits.and_low32_toNat x
  have hnh : (n >>> 32).toNat = n.toNat / 2 ^ 32 := Bits.shiftRight_32_toNat n
  have hnl : (n &&& 0xFFFFFFFF).toNat = n.toNat % 2 ^ 32 := Bits.and_low32_toNat n
  have hhigh : x.toNat * n.toNat / 2 ^ 64 < 2 ^ 64 := by
    have hprod := Nat.mul_lt_mul'' hx hn
    rw [← Nat.pow_add] at hprod
    omega
  rw [mapIntoRangePortable, upper64_toNat, Bits.mul_toNat_of_lt (by omega) (by omega),
    Bits.mul_toNat_of_lt (by omega) (by omega), Bits.mul_toNat_of_lt (by omega) (by omega),
    Bits.mul_toNat_of_lt (by omega) (by omega), hxh, hxl, hnh, hnl, ← Bits.mul_div_two_pow_64,
    Nat.mod_eq_of_lt hhigh]

/-- Both bodies of `MapIntoRange` are `⌊x * n / 2^64⌋`. -/
theorem mapIntoRange_branches_agree (x n : UInt64) :
    (mapIntoRangePortable x n).toNat = x.toNat * n.toNat / 2 ^ 64 ∧ mapIntoRangePortable x n = mapIntoRangeInt128 x n :=
  ⟨mapIntoRangePortable_toNat x n,
    UInt64.toNat_inj.mp (by rw [mapIntoRangePortable_toNat, mapIntoRangeInt128_toNat])⟩

end Revo
