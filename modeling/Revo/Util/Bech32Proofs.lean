/-
  Revo.Util.Bech32Proofs

  `Decode` undoes `Encode`, and `Encode` rebuilds in lower case every string
  `Decode` accepts.

    * `polyModStep_laws`: the step of `PolyMod` is a shift register of six
      5-bit values (`ShiftRegister.Laws`): its input is xor-ed in, and a
      word in the low five values only moves up one value;
    * `polyMod_append_six`: so six values appended give what six zeros give
      with the number they spell xor-ed in, and the six `CreateChecksum`
      computes are the only ones that give the encoding's constant
      (`polyMod_createChecksum`, `createChecksum_of_polyMod`);
    * the tables: the character of a value maps back to it, and a character
      `CHARSET_REV` knows is the lower-case form of its value's character;
    * the loops of `Decode`: `caseScan` fails exactly at a character outside
      `[33, 126]`, `Lists.rfind` finds the separator, and `decodeValues`
      reads the values whose characters the data part spells.
-/

import Revo.Util.Bech32
import Revo.Lib.ShiftRegister
import Revo.Lib.Positional
import Revo.Lib.Lists
import Mathlib

namespace Revo

namespace Bech32

open Positional

-- ============================================================================
-- PolyMod as a shift register
-- ============================================================================

/-- `c0 * k(x)`: what `PolyMod` xors in for the value `c0` that falls off
    the top. -/
def feedback (c0 : UInt8) : UInt32 :=
  (if c0 &&& 1 ≠ 0 then 0x3b6a57b2 else 0) ^^^ (if c0 &&& 2 ≠ 0 then 0x26508e6d else 0) ^^^
    (if c0 &&& 4 ≠ 0 then 0x1ea119fa else 0) ^^^ (if c0 &&& 8 ≠ 0 then 0x3d4233dd else 0) ^^^
    (if c0 &&& 16 ≠ 0 then 0x2a1462b3 else 0)

theorem ite_xor (p : Prop) [Decidable p] (x k : UInt32) : (if p then x ^^^ k else x) = x ^^^ if p then k else 0 := by
  by_cases hp : p
  · rw [if_pos hp, if_pos hp]
  · rw [if_neg hp, if_neg hp, UInt32.xor_zero]

/-- The step: the low five values moved up, the feedback of the top one,
    and the input. -/
theorem polyModStep_eq (c : UInt32) (v : UInt8) :
    polyModStep c v = ((c &&& 0x1ffffff) <<< 5) ^^^ feedback (c >>> 25).toUInt8 ^^^ v.toUInt32 := by
  delta polyModStep feedback
  simp only [ite_xor]
  ac_rfl

/-- A word below `2 ^ 25` xor-ed in leaves the top value alone. -/
theorem xor_shiftRight_25 (c : UInt32) {x : Nat} (hx : x < 2 ^ 25) : (c ^^^ UInt32.ofNat x) >>> 25 = c >>> 25 := by
  apply UInt32.toNat_inj.mp
  have hx32 : x % 2 ^ 32 = x := Nat.mod_eq_of_lt (Nat.lt_trans hx (by decide))
  rw [UInt32.toNat_shiftRight, UInt32.toNat_shiftRight, UInt32.toNat_xor, UInt32.toNat_ofNat', hx32,
    show (25 : UInt32).toNat % 32 = 25 from rfl, Nat.shiftRight_xor_distrib, Nat.shiftRight_eq_div_pow x,
    Nat.div_eq_of_lt hx, Nat.xor_zero]

/-- A word below `2 ^ 25` xor-ed in moves up one value with the low five. -/
theorem xor_low_shiftLeft (c : UInt32) {x : Nat} (hx : x < 2 ^ 25) :
    ((c ^^^ UInt32.ofNat x) &&& 0x1ffffff) <<< 5 = ((c &&& 0x1ffffff) <<< 5) ^^^ UInt32.ofNat (x * 2 ^ 5) := by
  apply UInt32.toNat_inj.mp
  have hx32 : x % 2 ^ 32 = x := Nat.mod_eq_of_lt (Nat.lt_trans hx (by decide))
  have hmask : (0x1ffffff : UInt32).toNat = 2 ^ 25 - 1 := rfl
  rw [UInt32.toNat_shiftLeft, UInt32.toNat_xor, UInt32.toNat_shiftLeft, UInt32.toNat_and, UInt32.toNat_and,
    UInt32.toNat_xor, UInt32.toNat_ofNat', UInt32.toNat_ofNat', hx32, hmask, Nat.and_two_pow_sub_one_eq_mod,
    Nat.and_two_pow_sub_one_eq_mod, Nat.xor_mod_two_pow, Nat.mod_eq_of_lt hx, show (5 : UInt32).toNat % 32 = 5 from rfl,
    Nat.shiftLeft_xor_distrib, Nat.xor_mod_two_pow, Nat.shiftLeft_eq x]

/-- `PolyMod`'s step is a register of six 5-bit values. -/
theorem polyModStep_laws : ShiftRegister.Laws polyModStep 5 5 where
  input c v := by
    rw [polyModStep_eq, polyModStep_eq c 0, show (0 : UInt8).toUInt32 = 0 from rfl, UInt32.xor_zero]
  shift c x hx := by
    rw [polyModStep_eq, polyModStep_eq c 0, xor_shiftRight_25 c hx, xor_low_shiftLeft c hx]
    ac_rfl

theorem polyMod_append (P ds : List UInt8) : polyMod (P ++ ds) = ds.foldl polyModStep (polyMod P) :=
  List.foldl_append

/-- Six 5-bit values appended give what six zeros give, with the number
    they spell in base 32 xor-ed in. -/
theorem polyMod_append_six (P : List UInt8) {ds : List UInt8} (hlen : ds.length = 6)
    (hds : ∀ d ∈ ds, d.toNat < 32) :
    polyMod (P ++ ds) = polyMod (P ++ List.replicate 6 0) ^^^ UInt32.ofNat (value 32 0 (ds.map UInt8.toNat)) := by
  have hrun := ShiftRegister.run_eq_zeros_xor polyModStep_laws ds (polyMod P) (by omega) hds
  rw [hlen] at hrun
  rw [polyMod_append, polyMod_append, hrun]
  rfl

/-- The feedback words are 30-bit words. -/
theorem feedback_lt (c0 : UInt8) : (feedback c0).toNat < 2 ^ 30 := by
  have hite : ∀ (p : Prop) [Decidable p] (k : UInt32), k.toNat < 2 ^ 30 → (if p then k else 0).toNat < 2 ^ 30 := by
    intro p _ k hk
    by_cases hp : p
    · rw [if_pos hp]; exact hk
    · rw [if_neg hp]; decide
  delta feedback
  simp only [UInt32.toNat_xor]
  exact Nat.xor_lt_two_pow (Nat.xor_lt_two_pow (Nat.xor_lt_two_pow (Nat.xor_lt_two_pow
    (hite _ _ (by decide)) (hite _ _ (by decide))) (hite _ _ (by decide))) (hite _ _ (by decide)))
    (hite _ _ (by decide))

/-- With a 5-bit input, the step leaves a 30-bit word. -/
theorem polyModStep_lt (c : UInt32) {v : UInt8} (hv : v.toNat < 32) : (polyModStep c v).toNat < 2 ^ 30 := by
  have hlow : (((c &&& 0x1ffffff) <<< 5).toNat) < 2 ^ 30 := by
    rw [UInt32.toNat_shiftLeft, UInt32.toNat_and, show (0x1ffffff : UInt32).toNat = 2 ^ 25 - 1 from rfl,
      Nat.and_two_pow_sub_one_eq_mod, show (5 : UInt32).toNat % 32 = 5 from rfl, Nat.shiftLeft_eq]
    have := Nat.mod_lt c.toNat (show 0 < 2 ^ 25 by decide)
    omega
  rw [polyModStep_eq, UInt32.toNat_xor, UInt32.toNat_xor]
  exact Nat.xor_lt_two_pow (Nat.xor_lt_two_pow hlow (feedback_lt _))
    (by rw [UInt8.toNat_toUInt32]; omega)

/-- `PolyMod` ending in a zero is a 30-bit word. -/
theorem polyMod_zeros_lt (P : List UInt8) : (polyMod (P ++ List.replicate 6 0)).toNat < 2 ^ 30 := by
  rw [List.replicate_succ', ← List.append_assoc, polyMod_append, List.foldl_cons, List.foldl_nil]
  exact polyModStep_lt _ (by decide)

-- ============================================================================
-- The checksum
-- ============================================================================

/-- The two encodings pass `EncodingConstant`'s assertion, with 30-bit
    constants. -/
theorem encodingConstant_ok {e : Encoding} (he : e = .BECH32 ∨ e = .BECH32M) :
    ∃ k, encodingConstant e = .ok k ∧ k.toNat < 2 ^ 30 := by
  rcases he with rfl | rfl
  · exact ⟨1, rfl, by decide⟩
  · exact ⟨0x2bc830a3, rfl, by decide⟩

/-- `CreateChecksum`'s six groups are the last six base-32 digits. -/
theorem checksum_groups (mod : UInt32) :
    ((List.range 6).map fun i => ((mod >>> UInt32.ofNat (5 * (5 - i))) &&& 31).toUInt8) =
      (lowDigits 32 6 mod.toNat).map UInt8.ofNat := by
  rw [lowDigits, List.map_map]
  apply List.map_congr_left
  intro i hi
  have hi6 : i < 6 := List.mem_range.mp hi
  apply UInt8.toNat_inj.mp
  have hshift : (UInt32.ofNat (5 * (5 - i))).toNat % 32 = 5 * (5 - i) := by
    rw [UInt32.toNat_ofNat']
    omega
  rw [Function.comp_apply, UInt8.toNat_ofNat', UInt32.toNat_toUInt8, UInt32.toNat_and, UInt32.toNat_shiftRight, hshift,
    show (31 : UInt32).toNat = 2 ^ 5 - 1 from rfl, Nat.and_two_pow_sub_one_eq_mod, Nat.shiftRight_eq_div_pow,
    Nat.pow_mul, show 6 - 1 - i = 5 - i by omega]

/-- `CreateChecksum` for a valid encoding: the last six base-32 digits of
    what `PolyMod` says to xor into six zeros. -/
theorem createChecksum_eq {e : Encoding} {k : UInt32} (hk : encodingConstant e = .ok k) (hrp values : List UInt8) :
    createChecksum e hrp values =
      .ok ((lowDigits 32 6 (polyMod (expandHRP hrp ++ values ++ List.replicate 6 0) ^^^ k).toNat).map UInt8.ofNat) := by
  delta createChecksum
  rw [hk]
  exact congrArg Except.ok (checksum_groups _)

/-- Digits below 32 read back from bytes. -/
theorem map_toNat_ofNat {ds : List Nat} (hds : ∀ d ∈ ds, d < 32) : (ds.map UInt8.ofNat).map UInt8.toNat = ds := by
  rw [List.map_map]
  conv_rhs => rw [← List.map_id ds]
  apply List.map_congr_left
  intro d hd
  rw [Function.comp_apply, UInt8.toNat_ofNat', Nat.mod_eq_of_lt (Nat.lt_trans (hds d hd) (by decide)), id]

/-- The checksum is six 5-bit values. -/
theorem createChecksum_values {e : Encoding} {k : UInt32} (hk : encodingConstant e = .ok k)
    {hrp values cs : List UInt8} (hcs : createChecksum e hrp values = .ok cs) :
    cs.length = 6 ∧ ∀ d ∈ cs, d.toNat < 32 := by
  rw [createChecksum_eq hk] at hcs
  cases hcs
  refine ⟨by rw [List.length_map, length_lowDigits], fun d hd => ?_⟩
  obtain ⟨n, hn, rfl⟩ := List.mem_map.mp hd
  have hn32 := lowDigits_lt (by decide : 0 < 32) _ _ n hn
  rw [UInt8.toNat_ofNat', Nat.mod_eq_of_lt (Nat.lt_trans hn32 (by decide))]
  exact hn32

/-- The checksum appended makes `PolyMod` the encoding's constant. -/
theorem polyMod_createChecksum {e : Encoding} {k : UInt32} (hk : encodingConstant e = .ok k) (hk30 : k.toNat < 2 ^ 30)
    {hrp values cs : List UInt8} (hcs : createChecksum e hrp values = .ok cs) :
    polyMod (expandHRP hrp ++ values ++ cs) = k := by
  obtain ⟨hlen, hcs32⟩ := createChecksum_values hk hcs
  rw [createChecksum_eq hk] at hcs
  cases hcs
  have hmod : (polyMod (expandHRP hrp ++ values ++ List.replicate 6 0) ^^^ k).toNat < 2 ^ 30 := by
    rw [UInt32.toNat_xor]
    exact Nat.xor_lt_two_pow (polyMod_zeros_lt _) hk30
  rw [polyMod_append_six _ hlen hcs32, map_toNat_ofNat (lowDigits_lt (by decide) _ _), value_lowDigits,
    Nat.mod_eq_of_lt (show _ < 32 ^ 6 from hmod), UInt32.ofNat_toNat, ← UInt32.xor_assoc, UInt32.xor_self,
    UInt32.zero_xor]

/-- The checksum is the only six 5-bit values that give the constant. -/
theorem createChecksum_of_polyMod {e : Encoding} {k : UInt32} (hk : encodingConstant e = .ok k)
    {hrp values cs : List UInt8} (hlen : cs.length = 6) (hcs : ∀ d ∈ cs, d.toNat < 32)
    (h : polyMod (expandHRP hrp ++ values ++ cs) = k) : createChecksum e hrp values = .ok cs := by
  have hlt : ∀ d ∈ cs.map UInt8.toNat, d < 32 := by
    intro d hd
    obtain ⟨c, hc, rfl⟩ := List.mem_map.mp hd
    exact hcs c hc
  have hval : value 32 0 (cs.map UInt8.toNat) < 2 ^ 32 := by
    have := value_lt hlt
    rw [List.length_map, hlen] at this
    exact Nat.lt_trans this (by decide)
  have hdigits := lowDigits_value hlt
  rw [List.length_map, hlen] at hdigits
  rw [createChecksum_eq hk, ← h, polyMod_append_six _ hlen hcs, ← UInt32.xor_assoc, UInt32.xor_self, UInt32.zero_xor,
    UInt32.toNat_ofNat', Nat.mod_eq_of_lt hval, hdigits, List.map_map]
  congr 1
  conv_rhs => rw [← List.map_id cs]
  apply List.map_congr_left
  intro c _
  rw [Function.comp_apply, UInt8.ofNat_toNat, id]

/-- `VerifyChecksum` names a valid encoding exactly when `PolyMod` gives
    its constant. -/
theorem verifyChecksum_eq_iff (hrp values : List UInt8) {e : Encoding} (he : e = .BECH32 ∨ e = .BECH32M) :
    verifyChecksum hrp values = e ↔ encodingConstant e = .ok (polyMod (expandHRP hrp ++ values)) := by
  have h1 : encodingConstant .BECH32 = .ok 1 := rfl
  have h2 : encodingConstant .BECH32M = .ok 0x2bc830a3 := rfl
  delta verifyChecksum
  dsimp only
  rw [h1, h2]
  by_cases hb : (Except.ok 1 : Except String UInt32) = .ok (polyMod (expandHRP hrp ++ values))
  · rw [if_pos hb]
    -- the check is 1, not Bech32m's constant
    rcases he with rfl | rfl
    · exact iff_of_true rfl (h1.trans hb)
    · refine iff_of_false (fun h => nomatch h) fun hm => ?_
      rw [h2, ← hb] at hm
      exact absurd (Except.ok.inj hm) (by decide)
  · rw [if_neg hb]
    by_cases hm : (Except.ok 0x2bc830a3 : Except String UInt32) = .ok (polyMod (expandHRP hrp ++ values))
    · rw [if_pos hm]
      rcases he with rfl | rfl
      · exact iff_of_false (fun h => nomatch h) fun h => hb (h1 ▸ h)
      · exact iff_of_true rfl (h2.trans hm)
    · rw [if_neg hm]
      rcases he with rfl | rfl
      · exact iff_of_false (fun h => nomatch h) fun h => hb (h1 ▸ h)
      · exact iff_of_false (fun h => nomatch h) fun h => hm (h2 ▸ h)

-- ============================================================================
-- The character tables
-- ============================================================================

theorem charset_eq : charset = [113, 112, 122, 114, 121, 57, 120, 56, 103, 102, 50, 116, 118, 100, 119, 48,
    115, 51, 106, 110, 53, 52, 107, 104, 99, 101, 54, 109, 117, 97, 55, 108] := by
  decide

set_option maxRecDepth 4000 in
/-- The character of each value maps back to it, lies in `[33, 126]`, and
    is neither an upper-case letter nor the separator. -/
theorem charset_value : ∀ v < 32, charsetRev.getD (charset.getD v 0).toNat (-1) = v ∧
    33 ≤ charset.getD v 0 ∧ charset.getD v 0 ≤ 126 ∧
    (charset.getD v 0 < 'A'.toUInt8 ∨ charset.getD v 0 > 'Z'.toUInt8) ∧ charset.getD v 0 ≠ '1'.toUInt8 := by
  rw [charset_eq]
  decide

set_option maxRecDepth 2000 in
theorem charsetRev_length : charsetRev.length = 128 := rfl

set_option maxRecDepth 8000 in
/-- Each entry of `CHARSET_REV` other than `-1` is a 5-bit value whose
    character is the entry's character in lower case. -/
theorem charsetRev_entries : charsetRev.zipIdx.all (fun e => e.1 == -1 ||
    (decide (0 ≤ e.1 ∧ e.1 < 32) && charset.getD e.1.toNat 0 == lowerCase (UInt8.ofNat e.2))) = true := by
  rw [charset_eq]
  decide

/-- A character `CHARSET_REV` knows has a 5-bit value, whose character is
    it in lower case. -/
theorem charsetRev_char (c : UInt8) (h : charsetRev.getD c.toNat (-1) ≠ -1) :
    0 ≤ charsetRev.getD c.toNat (-1) ∧ charsetRev.getD c.toNat (-1) < 32 ∧
      charset.getD (charsetRev.getD c.toNat (-1)).toNat 0 = lowerCase c := by
  have hlt : c.toNat < charsetRev.length := by
    refine Nat.lt_of_not_le fun hge => h ?_
    exact List.getD_eq_default _ _ hge
  have hrow := Lists.all_zipIdx_getD charsetRev_entries (-1) hlt
  simp only [beq_iff_eq, h, Bool.and_eq_true, decide_eq_true_eq, UInt8.ofNat_toNat, Bool.or_eq_true,
    false_or] at hrow
  exact ⟨hrow.1.1, hrow.1.2, hrow.2⟩

/-- `LowerCase` leaves no upper-case letter. -/
theorem lowerCase_not_upper (c : UInt8) : lowerCase c < 'A'.toUInt8 ∨ lowerCase c > 'Z'.toUInt8 := by
  have hA : ('A'.toUInt8).toNat = 65 := rfl
  have hZ : ('Z'.toUInt8).toNat = 90 := rfl
  have ha : ('a'.toUInt8).toNat = 97 := rfl
  delta lowerCase
  by_cases hup : c ≥ 'A'.toUInt8 ∧ c ≤ 'Z'.toUInt8
  · rw [if_pos hup]
    right
    have hle := UInt8.le_iff_toNat_le.mp hup.2
    rw [gt_iff_lt, UInt8.lt_iff_toNat_lt, UInt8.toNat_add, UInt8.toNat_sub_of_le _ _ hup.1]
    omega
  · rw [if_neg hup]
    simp only [ge_iff_le, gt_iff_lt, UInt8.le_iff_toNat_le, UInt8.lt_iff_toNat_lt] at hup ⊢
    omega

/-- `LowerCase` leaves a character that is no upper-case letter alone. -/
theorem lowerCase_of_not_upper {c : UInt8} (h : c < 'A'.toUInt8 ∨ c > 'Z'.toUInt8) : lowerCase c = c := by
  delta lowerCase
  refine if_neg fun hup => ?_
  simp only [ge_iff_le, gt_iff_lt, UInt8.le_iff_toNat_le, UInt8.lt_iff_toNat_lt] at hup h
  omega

-- ============================================================================
-- The loops of Decode
-- ============================================================================

/-- The letters lie in `[33, 126]`. -/
theorem letter_printable {c lo hi : UInt8} (hlo : 33 ≤ lo.toNat) (hhi : hi.toNat ≤ 126) (h : c ≥ lo ∧ c ≤ hi) :
    33 ≤ c ∧ c ≤ 126 := by
  simp only [ge_iff_le, UInt8.le_iff_toNat_le] at h ⊢
  exact ⟨Nat.le_trans hlo h.1, Nat.le_trans h.2 hhi⟩

/-- `caseScan` only succeeds on characters in `[33, 126]`. -/
theorem caseScan_printable : ∀ {lower upper : Bool} {cs : List UInt8} {r : Bool × Bool},
    caseScan lower upper cs = some r → ∀ c ∈ cs, 33 ≤ c ∧ c ≤ 126
  | _, _, [], _, _ => fun _ hc => nomatch hc
  | lower, upper, c :: cs, r, h => by
    rw [caseScan_cons] at h
    -- each branch that goes on has checked `c`, and the rest is scanned
    by_cases hlow : c ≥ 'a'.toUInt8 ∧ c ≤ 'z'.toUInt8
    · rw [if_pos hlow] at h
      exact List.forall_mem_cons.mpr ⟨letter_printable (by decide) (by decide) hlow, caseScan_printable h⟩
    · rw [if_neg hlow] at h
      by_cases hup : c ≥ 'A'.toUInt8 ∧ c ≤ 'Z'.toUInt8
      · rw [if_pos hup] at h
        exact List.forall_mem_cons.mpr ⟨letter_printable (by decide) (by decide) hup, caseScan_printable h⟩
      · rw [if_neg hup] at h
        by_cases hout : c < 33 ∨ c > 126
        · rw [if_pos hout] at h
          cases h
        · rw [if_neg hout] at h
          refine List.forall_mem_cons.mpr ⟨?_, caseScan_printable h⟩
          simp only [not_or, gt_iff_lt, UInt8.lt_iff_toNat_lt, UInt8.le_iff_toNat_le] at hout ⊢
          omega

/-- On characters in `[33, 126]` without an upper-case letter, `caseScan`
    succeeds and finds none. -/
theorem caseScan_no_upper : ∀ (lower : Bool) {cs : List UInt8},
    (∀ c ∈ cs, 33 ≤ c ∧ c ≤ 126 ∧ (c < 'A'.toUInt8 ∨ c > 'Z'.toUInt8)) → ∃ l, caseScan lower false cs = some (l, false)
  | lower, [], _ => ⟨lower, rfl⟩
  | lower, c :: cs, h => by
    obtain ⟨⟨h33, h126, hnup⟩, hrest⟩ := List.forall_mem_cons.mp h
    rw [caseScan_cons]
    by_cases hlow : c ≥ 'a'.toUInt8 ∧ c ≤ 'z'.toUInt8
    · rw [if_pos hlow]
      exact caseScan_no_upper true hrest
    · have hA : ('A'.toUInt8).toNat = 65 := rfl
      have hZ : ('Z'.toUInt8).toNat = 90 := rfl
      have hup : ¬(c ≥ 'A'.toUInt8 ∧ c ≤ 'Z'.toUInt8) := by
        simp only [ge_iff_le, gt_iff_lt, UInt8.le_iff_toNat_le, UInt8.lt_iff_toNat_lt] at hnup ⊢
        omega
      have hin : ¬(c < 33 ∨ c > 126) := by
        simp only [gt_iff_lt, UInt8.le_iff_toNat_le, UInt8.lt_iff_toNat_lt] at h33 h126 ⊢
        omega
      rw [if_neg hlow, if_neg hup, if_neg hin]
      exact caseScan_no_upper lower hrest

/-- `decodeValues` reads back the characters of 5-bit values. -/
theorem decodeValues_charset : ∀ {vs : List UInt8}, (∀ v ∈ vs, v.toNat < 32) →
    decodeValues (vs.map fun c => charset.getD c.toNat 0) = some vs
  | [], _ => rfl
  | v :: vs, h => by
    obtain ⟨hv, hrest⟩ := List.forall_mem_cons.mp h
    have hrev := (charset_value v.toNat hv).1
    rw [List.map_cons, decodeValues_cons, hrev, if_neg (by omega), decodeValues_charset hrest, Option.map_some,
      Int.toNat_natCast, UInt8.ofNat_toNat]

/-- What `decodeValues` returns: 5-bit values whose characters spell the
    data part in lower case. -/
theorem decodeValues_eq_some : ∀ {cs vs : List UInt8}, decodeValues cs = some vs →
    (∀ v ∈ vs, v.toNat < 32) ∧ vs.map (fun c => charset.getD c.toNat 0) = cs.map lowerCase
  | [], vs, h => by
    rw [decodeValues_nil] at h
    cases h
    exact ⟨fun _ hv => (nomatch hv), rfl⟩
  | c :: cs, vs, h => by
    rw [decodeValues_cons] at h
    by_cases hc : charsetRev.getD c.toNat (-1) = -1
    · rw [if_pos hc] at h
      cases h
    · rw [if_neg hc] at h
      obtain ⟨h0, h32, hch⟩ := charsetRev_char c hc
      cases hrest : decodeValues cs with
      | none =>
        rw [hrest] at h
        cases h
      | some rest =>
        rw [hrest, Option.map_some] at h
        cases h
        obtain ⟨hlt, hmap⟩ := decodeValues_eq_some hrest
        have htoNat : (UInt8.ofNat (charsetRev.getD c.toNat (-1)).toNat).toNat = (charsetRev.getD c.toNat (-1)).toNat := by
          rw [UInt8.toNat_ofNat']
          omega
        refine ⟨List.forall_mem_cons.mpr ⟨by rw [htoNat]; omega, hlt⟩, ?_⟩
        rw [List.map_cons, List.map_cons, hmap, htoNat, hch]

-- ============================================================================
-- Encode and Decode
-- ============================================================================

/-- `Encode` of a lower-case HRP: the HRP, the separator and the characters
    of the values and the checksum. -/
theorem encode_eq {e : Encoding} {hrp values cs : List UInt8}
    (hup : (hrp.any fun c => decide (c ≥ 'A'.toUInt8 ∧ c ≤ 'Z'.toUInt8)) = false)
    (hcs : createChecksum e hrp values = .ok cs) :
    encode e hrp values = .ok (hrp ++ '1'.toUInt8 :: (values ++ cs).map fun c => charset.getD c.toNat 0) := by
  delta encode
  rw [hup, if_neg Bool.false_ne_true, hcs]
  rfl

/-- No character that is no upper-case letter trips `Encode`'s assertion. -/
theorem any_upper_eq_false {hrp : List UInt8} (h : ∀ c ∈ hrp, c < 'A'.toUInt8 ∨ c > 'Z'.toUInt8) :
    (hrp.any fun c => decide (c ≥ 'A'.toUInt8 ∧ c ≤ 'Z'.toUInt8)) = false := by
  rw [List.any_eq_false]
  intro c hc hup
  have hA : ('A'.toUInt8).toNat = 65 := rfl
  have hZ : ('Z'.toUInt8).toNat = 90 := rfl
  have hnup := h c hc
  simp only [decide_eq_true_eq, ge_iff_le, gt_iff_lt, UInt8.le_iff_toNat_le, UInt8.lt_iff_toNat_lt] at hup hnup
  omega

/-- `Decode` of an HRP of characters in `[33, 126]` without upper-case
    letters, the separator and the characters of at least six 5-bit values
    that pass the checksum. -/
theorem decode_charset {hrp vs : List UInt8} (hhrp : hrp ≠ [])
    (hc : ∀ c ∈ hrp, 33 ≤ c ∧ c ≤ 126 ∧ (c < 'A'.toUInt8 ∨ c > 'Z'.toUInt8)) (hvs : ∀ v ∈ vs, v.toNat < 32)
    (hlen : hrp.length + 1 + vs.length ≤ 90) (h6 : 6 ≤ vs.length) (hverify : verifyChecksum hrp vs ≠ .INVALID) :
    decode (hrp ++ '1'.toUInt8 :: vs.map fun c => charset.getD c.toNat 0) =
      ⟨verifyChecksum hrp vs, hrp, vs.take (vs.length - 6)⟩ := by
  -- every character passes the first loop, and none is an upper-case letter
  have hchars : ∀ c ∈ hrp ++ '1'.toUInt8 :: vs.map fun c => charset.getD c.toNat 0,
      33 ≤ c ∧ c ≤ 126 ∧ (c < 'A'.toUInt8 ∨ c > 'Z'.toUInt8) := by
    intro c hmem
    rcases List.mem_append.mp hmem with h | h
    · exact hc c h
    · rcases List.mem_cons.mp h with rfl | h
      · decide
      · obtain ⟨v, hv, rfl⟩ := List.mem_map.mp h
        obtain ⟨-, h33, h126, hnup, -⟩ := charset_value v.toNat (hvs v hv)
        exact ⟨h33, h126, hnup⟩
  obtain ⟨lower, hscan⟩ := caseScan_no_upper false hchars
  -- the separator is the last `'1'`: no value's character is one
  have hsep : Lists.rfind '1'.toUInt8 (hrp ++ '1'.toUInt8 :: vs.map fun c => charset.getD c.toNat 0) =
      some hrp.length := by
    refine Lists.rfind_append_cons hrp fun hmem => ?_
    obtain ⟨v, hv, heq⟩ := List.mem_map.mp hmem
    exact (charset_value v.toNat (hvs v hv)).2.2.2.2 heq
  have hpos : hrp.length ≠ 0 := fun h => hhrp (List.length_eq_zero_iff.mp h)
  have hlength : (hrp ++ '1'.toUInt8 :: vs.map fun c => charset.getD c.toNat 0).length = hrp.length + 1 + vs.length := by
    rw [List.length_append, List.length_cons, List.length_map]
    omega
  have hdrop : (hrp ++ '1'.toUInt8 :: vs.map fun c => charset.getD c.toNat 0).drop (hrp.length + 1) =
      vs.map fun c => charset.getD c.toNat 0 := by
    rw [List.append_cons hrp]
    exact List.drop_left' (by rw [List.length_append, List.length_singleton])
  have htake : (hrp ++ '1'.toUInt8 :: vs.map fun c => charset.getD c.toNat 0).take hrp.length = hrp :=
    List.take_left' rfl
  have hlower : hrp.map lowerCase = hrp := by
    conv_rhs => rw [← List.map_id hrp]
    exact List.map_congr_left fun c hc' => lowerCase_of_not_upper (hc c hc').2.2
  delta decode
  rw [hscan]
  dsimp only
  rw [Bool.and_false, if_neg Bool.false_ne_true, hsep]
  dsimp only
  rw [if_neg (by rw [hlength]; omega), hdrop, decodeValues_charset hvs]
  dsimp only
  rw [htake, hlower, if_neg hverify]

/-- What `Decode` has checked of a string it accepts: the string is cut
    around a `'1'`, the part after it spells at least six values, and the
    result is the checksum's encoding, the part before in lower case and the
    values before the checksum. -/
theorem decode_accepts {str : List UInt8} (h : (decode str).encoding ≠ .INVALID) :
    ∃ pos values, str.take pos ++ '1'.toUInt8 :: str.drop (pos + 1) = str ∧ 6 ≤ values.length ∧
      decodeValues (str.drop (pos + 1)) = some values ∧
      verifyChecksum ((str.take pos).map lowerCase) values ≠ .INVALID ∧
      decode str = ⟨verifyChecksum ((str.take pos).map lowerCase) values, (str.take pos).map lowerCase,
        values.take (values.length - 6)⟩ := by
  generalize hd : decode str = r at h ⊢
  delta decode at hd
  -- each check of `Decode` that fails returns `INVALID`
  cases hscan : caseScan false false str with
  | none =>
    rw [hscan] at hd
    subst hd
    exact absurd rfl h
  | some lu =>
    obtain ⟨lower, upper⟩ := lu
    rw [hscan] at hd
    dsimp only at hd
    by_cases hmix : (lower && upper) = true
    · rw [if_pos hmix] at hd
      subst hd
      exact absurd rfl h
    rw [if_neg hmix] at hd
    cases hsep : Lists.rfind '1'.toUInt8 str with
    | none =>
      rw [hsep] at hd
      subst hd
      exact absurd rfl h
    | some pos =>
      rw [hsep] at hd
      dsimp only at hd
      by_cases hbad : str.length > 90 ∨ pos = 0 ∨ pos + 7 > str.length
      · rw [if_pos hbad] at hd
        subst hd
        exact absurd rfl h
      rw [if_neg hbad] at hd
      cases hvals : decodeValues (str.drop (pos + 1)) with
      | none =>
        rw [hvals] at hd
        subst hd
        exact absurd rfl h
      | some values =>
        rw [hvals] at hd
        dsimp only at hd
        by_cases hinv : verifyChecksum ((str.take pos).map lowerCase) values = .INVALID
        · rw [if_pos hinv] at hd
          subst hd
          exact absurd rfl h
        rw [if_neg hinv] at hd
        -- the values are as many as the characters after the separator
        have hlen : values.length = str.length - (pos + 1) := by
          rw [← List.length_map (fun c => charset.getD c.toNat 0), (decodeValues_eq_some hvals).2, List.length_map,
            List.length_drop]
        exact ⟨pos, values, Lists.rfind_eq_some hsep, by omega, hvals, hinv, hd.symm⟩

/-- An encoding `Decode` returns is one of the two. -/
theorem encoding_valid {e : Encoding} (h : e ≠ .INVALID) : e = .BECH32 ∨ e = .BECH32M := by
  cases e with
  | INVALID => exact absurd rfl h
  | BECH32 => exact Or.inl rfl
  | BECH32M => exact Or.inr rfl

/-- `Decode` undoes `Encode`. -/
theorem decode_encode {e : Encoding} (he : e = .BECH32 ∨ e = .BECH32M) {hrp values : List UInt8} (hhrp : hrp ≠ [])
    (hc : ∀ c ∈ hrp, 33 ≤ c ∧ c ≤ 126 ∧ (c < 'A'.toUInt8 ∨ c > 'Z'.toUInt8)) (hvalues : ∀ v ∈ values, v.toNat < 32)
    (hlen : hrp.length + 1 + values.length + 6 ≤ 90) :
    ∃ s, encode e hrp values = .ok s ∧ decode s = ⟨e, hrp, values⟩ := by
  obtain ⟨k, hk, hk30⟩ := encodingConstant_ok he
  obtain ⟨cs, hcs⟩ : ∃ cs, createChecksum e hrp values = .ok cs := ⟨_, createChecksum_eq hk hrp values⟩
  obtain ⟨hcs6, hcs32⟩ := createChecksum_values hk hcs
  -- the checksum makes the string pass `VerifyChecksum` with `e`
  have hverify : verifyChecksum hrp (values ++ cs) = e := by
    rw [verifyChecksum_eq_iff _ _ he, ← List.append_assoc, polyMod_createChecksum hk hk30 hcs, hk]
  have hvs : ∀ v ∈ values ++ cs, v.toNat < 32 := fun v hv =>
    (List.mem_append.mp hv).elim (hvalues v) (hcs32 v)
  refine ⟨_, encode_eq (any_upper_eq_false fun c hc' => (hc c hc').2.2) hcs, ?_⟩
  have hvslen : (values ++ cs).length = values.length + 6 := by rw [List.length_append, hcs6]
  rw [decode_charset hhrp hc hvs (by omega) (by omega) (by rw [hverify]; rcases he with rfl | rfl <;> exact nofun),
    hverify, hvslen, Nat.add_sub_cancel, List.take_left' rfl]

/-- `Encode` rebuilds in lower case every string `Decode` accepts. -/
theorem encode_decode {str : List UInt8} (h : (decode str).encoding ≠ .INVALID) :
    encode (decode str).encoding (decode str).hrp (decode str).data = .ok (str.map lowerCase) := by
  obtain ⟨pos, values, hcut, h6, hvals, hinv, hdec⟩ := decode_accepts h
  rw [hdec]
  dsimp only
  have he := encoding_valid hinv
  obtain ⟨k, hk, -⟩ := encodingConstant_ok he
  have hpoly : polyMod (expandHRP ((str.take pos).map lowerCase) ++ values) = k := by
    have hc := (verifyChecksum_eq_iff ((str.take pos).map lowerCase) values he).mp rfl
    rw [hk] at hc
    exact (Except.ok.inj hc).symm
  obtain ⟨hlt, hmap⟩ := decodeValues_eq_some hvals
  -- the checksum of the values before it is the last six
  have hcs : createChecksum (verifyChecksum ((str.take pos).map lowerCase) values) ((str.take pos).map lowerCase)
      (values.take (values.length - 6)) = .ok (values.drop (values.length - 6)) := by
    refine createChecksum_of_polyMod hk (by rw [List.length_drop]; omega)
      (fun d hd => hlt d (List.mem_of_mem_drop hd)) ?_
    rw [List.append_assoc, List.take_append_drop, hpoly]
  have hnoup : ∀ c ∈ (str.take pos).map lowerCase, c < 'A'.toUInt8 ∨ c > 'Z'.toUInt8 := by
    intro c hc
    obtain ⟨d, -, rfl⟩ := List.mem_map.mp hc
    exact lowerCase_not_upper d
  rw [encode_eq (any_upper_eq_false hnoup) hcs, List.take_append_drop, hmap]
  conv_rhs => rw [← hcut]
  rw [List.map_append, List.map_cons]
  rfl

/-- Bech32 and Bech32m round trip: `Decode` of `Encode` gives back the
    encoding, the HRP and the values, and `Encode` of what `Decode` returns
    is the decoded string in lower case. -/
theorem bech32_roundTrip :
    (∀ (e : Encoding) (hrp values : List UInt8), (e = .BECH32 ∨ e = .BECH32M) → hrp ≠ [] →
      (∀ c ∈ hrp, 33 ≤ c ∧ c ≤ 126 ∧ (c < 'A'.toUInt8 ∨ c > 'Z'.toUInt8)) → (∀ v ∈ values, v.toNat < 32) →
      hrp.length + 1 + values.length + 6 ≤ 90 →
      ∃ s, encode e hrp values = .ok s ∧ decode s = ⟨e, hrp, values⟩) ∧
    ∀ str : List UInt8, (decode str).encoding ≠ .INVALID →
      encode (decode str).encoding (decode str).hrp (decode str).data = .ok (str.map lowerCase) :=
  ⟨fun _ _ _ he hhrp hc hvalues hlen => decode_encode he hhrp hc hvalues hlen, fun _ h => encode_decode h⟩

/-- The round trip at the HRP `"a"` with no values, and at the upper-case
    string `"A12UEL5L"` of BIP 173. -/
theorem bech32_roundTrip_a :
    (∃ s, encode .BECH32 [97] [] = .ok s ∧ decode s = ⟨.BECH32, [97], []⟩) ∧
      encode (decode ("A12UEL5L".toList.map Char.toUInt8)).encoding (decode ("A12UEL5L".toList.map Char.toUInt8)).hrp
        (decode ("A12UEL5L".toList.map Char.toUInt8)).data = .ok (("A12UEL5L".toList.map Char.toUInt8).map lowerCase) :=
  ⟨bech32_roundTrip.1 _ _ _ (Or.inl rfl) (by decide)
      (fun c hc => by rw [List.mem_singleton.mp hc]; decide) (fun _ h => (nomatch h)) (by decide),
    bech32_roundTrip.2 _ (by decide)⟩

end Bech32

end Revo
