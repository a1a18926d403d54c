/-
  Revo.Util.StrEncodingsProofs

  `ConvertBits` against the bits of its input (`Revo.Lib.BitList`).  The
  accumulator holds the bits not yet written, `bits` of them, as its low
  bits (`acc % 2 ^ bits = ofBits pending`); each value read appends its
  `frombits` bits, and the inner loop writes the top `tobits` while there
  are that many (`convertBitsDrain_spec`, `convertBitsLoop_spec`).  So with
  padding the values written hold the input's bits and then zeros up to a
  whole group (`convertBits_pad`), and without it the whole groups, the
  call accepting exactly when the bits left are fewer than `frombits` and
  all zero (`convertBits_noPad`).  Regrouping back returns the input
  followed by the whole values of zero bits the padding holds
  (`convertBits_pad_noPad`): none when `tobits ≤ frombits`
  (`convertBits_roundTrip`), one for `[1, 2, 3]` from six bits to eight.

  The Base64 and Base32 codecs are proved once for an alphabet and its
  table (`Alphabet`): decoding inverts encoding, and every string the
  decoder accepts is the encoding of what it decodes, up to the
  character the table reads each one as.
-/

import Revo.Util.StrEncodings
import Revo.Lib.BitList
import Revo.Lib.Bits
import Revo.Lib.Limbs
import Revo.Lib.Lists
import Mathlib

namespace Revo

open BitList

/-! ## The accumulator -/

section Accumulator

/-- The top `t` of the `bits` pending bits, and the accumulator's hold on
    the bits after them. -/
theorem drain_step {acc bits t : Nat} {pending : List Bool} (hlen : pending.length = bits) (htb : t ≤ bits)
    (hacc : acc % 2 ^ bits = ofBits pending) :
    (acc >>> (bits - t)) &&& (2 ^ t - 1) = ofBits (pending.take t) ∧
      acc % 2 ^ (bits - t) = ofBits (pending.drop t) := by
  have hsplit : ofBits pending = ofBits (pending.take t) * 2 ^ (bits - t) + ofBits (pending.drop t) := by
    conv_lhs => rw [← List.take_append_drop t pending]
    rw [ofBits_append, List.length_drop, hlen]
  have hlow : ofBits (pending.drop t) < 2 ^ (bits - t) := by
    have := ofBits_lt (pending.drop t)
    rwa [List.length_drop, hlen] at this
  have hpow : 2 ^ bits = 2 ^ (bits - t) * 2 ^ t := by rw [← Nat.pow_add, Nat.sub_add_cancel htb]
  constructor
  · rw [Nat.and_two_pow_sub_one_eq_mod, Nat.shiftRight_eq_div_pow, ← Nat.mod_mul_right_div_self, ← hpow, hacc,
      hsplit, Nat.add_comm, Nat.add_mul_div_right _ _ (Nat.two_pow_pos _), Nat.div_eq_of_lt hlow, Nat.zero_add]
  · have hdvd : 2 ^ (bits - t) ∣ 2 ^ bits := Nat.pow_dvd_pow 2 (Nat.sub_le bits t)
    rw [← Nat.mod_mod_of_dvd acc hdvd, hacc, hsplit, Nat.add_comm, Nat.add_mul_mod_self_right, Nat.mod_eq_of_lt hlow]

/-- A value read appends its bits to the pending ones; the mask keeps them
    while fewer than `tobits` were pending. -/
theorem read_step {acc f t v : Nat} {pending : List Bool} (hp : pending.length < t) (hv : v < 2 ^ f)
    (hacc : acc % 2 ^ pending.length = ofBits pending) :
    (((acc <<< f) ||| v) &&& (2 ^ (f + t - 1) - 1)) % 2 ^ (pending.length + f) =
      ofBits (pending ++ toBits v f) := by
  have hor : (acc <<< f) ||| v = v + 2 ^ f * acc := by
    rw [Nat.shiftLeft_eq, Bits.or_eq_add_of_mod (Nat.mul_mod_left acc _) hv, Nat.add_comm, Nat.mul_comm]
  have hdvd : 2 ^ (pending.length + f) ∣ 2 ^ (f + t - 1) := Nat.pow_dvd_pow 2 (by omega)
  rw [Nat.and_two_pow_sub_one_eq_mod, hor, Nat.mod_mod_of_dvd _ hdvd, Nat.pow_add, Nat.mul_comm (2 ^ pending.length),
    Limbs.add_mul_mod_mul_of_lt hv, hacc, ofBits_append, length_toBits, ofBits_toBits, Nat.mod_eq_of_lt hv,
    Nat.mul_comm, Nat.add_comm]

/-- The last group written with padding: the pending bits shifted up to
    the top of the group. -/
theorem pad_value {acc t : Nat} {rest : List Bool} (hr : rest.length ≤ t)
    (hacc : acc % 2 ^ rest.length = ofBits rest) :
    (acc <<< (t - rest.length)) &&& (2 ^ t - 1) = ofBits rest * 2 ^ (t - rest.length) := by
  have hpow : 2 ^ t = 2 ^ rest.length * 2 ^ (t - rest.length) := by rw [← Nat.pow_add, Nat.add_sub_cancel' hr]
  rw [Nat.and_two_pow_sub_one_eq_mod, Nat.shiftLeft_eq, hpow, Nat.mul_mod_mul_right, hacc]

end Accumulator

/-! ## The loops -/

section Loops

variable {t : Nat} (ht : 0 < t)
include ht

/-- The inner loop writes the pending bits in whole groups of `t` and
    leaves fewer than `t`; the induction follows the loop. -/
theorem convertBitsDrain_spec (acc bits : Nat) :
    ∀ pending : List Bool, pending.length = bits → acc % 2 ^ bits = ofBits pending →
      ∃ outs rest, convertBitsDrain t (2 ^ t - 1) acc bits = (outs, rest.length) ∧
        pending = ofGroups t outs ++ rest ∧ rest.length < t ∧ acc % 2 ^ rest.length = ofBits rest ∧
        ∀ v ∈ outs, v < 2 ^ t := by
  induction bits using convertBitsDrain.induct t (2 ^ t - 1) acc with
  | case1 bits hb bits' outs' rest' heq ih =>
    intro pending hlen hacc
    obtain ⟨hv, hrest⟩ := drain_step hlen hb.2 hacc
    obtain ⟨outs, rest, hd, hp, hr, hacc', hlt⟩ := ih (pending.drop t) (by rw [List.length_drop, hlen]) hrest
    have htake : (pending.take t).length = t := List.length_take_of_le (by omega)
    refine ⟨ofBits (pending.take t) :: outs, rest, ?_, ?_, hr, hacc', ?_⟩
    · have hd' : convertBitsDrain t (2 ^ t - 1) acc (bits - t) = (outs, rest.length) := hd
      rw [convertBitsDrain, if_pos hb]
      simp only [hd', hv]
    · rw [ofGroups_cons, toBits_ofBits_of_length htake, List.append_assoc, ← hp, List.take_append_drop]
    · intro v hmem
      rcases List.mem_cons.mp hmem with rfl | hin
      · have hlt' := ofBits_lt (pending.take t)
        rwa [htake] at hlt'
      · exact hlt v hin
  | case2 bits hb =>
    intro pending hlen hacc
    refine ⟨[], pending, ?_, by rw [ofGroups_nil, List.nil_append], by omega, hlen ▸ hacc, by simp⟩
    rw [convertBitsDrain, if_neg hb, hlen]

/-- The outer loop writes the input's bits, after those pending, in whole
    groups of `t`; the induction is on the input, a value at a time. -/
theorem convertBitsLoop_spec {f : Nat} (input : List Nat) (hin : ∀ v ∈ input, v < 2 ^ f) :
    ∀ (acc : Nat) (pending : List Bool), pending.length < t → acc % 2 ^ pending.length = ofBits pending →
      ∃ outs acc' rest,
        convertBitsLoop f t (2 ^ t - 1) (2 ^ (f + t - 1) - 1) acc pending.length input = (outs, acc', rest.length) ∧
        pending ++ ofGroups f input = ofGroups t outs ++ rest ∧ rest.length < t ∧
        acc' % 2 ^ rest.length = ofBits rest ∧ ∀ v ∈ outs, v < 2 ^ t := by
  induction input with
  | nil =>
    intro acc pending hp hacc
    exact ⟨[], acc, pending, rfl, by rw [ofGroups_nil, ofGroups_nil, List.append_nil, List.nil_append], hp, hacc,
      by simp⟩
  | cons v vs ih =>
    intro acc pending hp hacc
    have hv := hin v List.mem_cons_self
    obtain ⟨outs1, rest1, hd, hp1, hr1, hacc1, hlt1⟩ := convertBitsDrain_spec ht _ (pending.length + f)
      (pending ++ toBits v f) (by rw [List.length_append, length_toBits]) (read_step hp hv hacc)
    obtain ⟨outs2, acc', rest, hl, hp2, hr, hacc', hlt2⟩ :=
      ih (fun w hw => hin w (List.mem_cons_of_mem v hw)) _ rest1 hr1 hacc1
    refine ⟨outs1 ++ outs2, acc', rest, ?_, ?_, hr, hacc', ?_⟩
    · rw [convertBitsLoop]
      simp only [hd, hl]
    · rw [ofGroups_cons, ← List.append_assoc, hp1, List.append_assoc, hp2, ofGroups_append, List.append_assoc]
    · intro w hw
      rcases List.mem_append.mp hw with h | h
      · exact hlt1 w h
      · exact hlt2 w h

end Loops

/-! ## ConvertBits -/

/-- `ConvertBits` after its loop: the last group with padding, the check
    without. -/
theorem convertBits_eq (f t : Nat) (pad : Bool) (input : List Nat) {outs : List Nat} {acc bits : Nat}
    (hl : convertBitsLoop f t (2 ^ t - 1) (2 ^ (f + t - 1) - 1) 0 0 input = (outs, acc, bits)) :
    convertBits f t pad input =
      if pad then (if bits ≠ 0 then outs ++ [(acc <<< (t - bits)) &&& (2 ^ t - 1)] else outs, true)
      else if bits ≥ f ∨ (acc <<< (t - bits)) &&& (2 ^ t - 1) ≠ 0 then (outs, false) else (outs, true) := by
  rw [convertBits, Nat.one_shiftLeft, Nat.one_shiftLeft, hl]

section Convert

variable {f t : Nat} (ht : 0 < t) {input : List Nat} (hin : ∀ v ∈ input, v < 2 ^ f)
include ht hin

/-- With padding, `ConvertBits` writes the input's bits in groups of `t`,
    the last one filled up with zeros. -/
theorem convertBits_pad :
    ∃ outs, convertBits f t true input = (outs, true) ∧
      ofGroups t outs = ofGroups f input ++ List.replicate ((t - f * input.length % t) % t) false ∧
      ∀ v ∈ outs, v < 2 ^ t := by
  obtain ⟨outs, acc, rest, hl, hbits, hr, hacc, hlt⟩ := convertBitsLoop_spec ht input hin 0 [] ht rfl
  rw [List.nil_append] at hbits
  rw [List.length_nil] at hl
  -- the bits left after the whole groups are the input's bits modulo `t`
  have hmod : f * input.length % t = rest.length := by
    have hlen := congrArg List.length hbits
    rw [length_ofGroups, List.length_append, length_ofGroups] at hlen
    rw [hlen, Nat.mul_add_mod, Nat.mod_eq_of_lt hr]
  rw [convertBits_eq f t true input hl, if_pos rfl, hmod]
  by_cases h0 : rest.length = 0
  · refine ⟨outs, by rw [if_neg (not_not.mpr h0)], ?_, hlt⟩
    rw [hbits, List.eq_nil_of_length_eq_zero h0, List.length_nil, Nat.sub_zero, Nat.mod_self, List.replicate_zero,
      List.append_nil, List.append_nil]
  · -- the last group: the bits left, then zeros
    have hlast : toBits (ofBits rest * 2 ^ (t - rest.length)) t = rest ++ List.replicate (t - rest.length) false := by
      rw [← ofBits_append_zeros, toBits_ofBits_of_length (by rw [List.length_append, List.length_replicate]; omega)]
    refine ⟨outs ++ [ofBits rest * 2 ^ (t - rest.length)], by rw [if_pos h0, pad_value hr.le hacc], ?_, ?_⟩
    · rw [ofGroups_append, ofGroups_cons, ofGroups_nil, List.append_nil, hlast, hbits, List.append_assoc,
        Nat.mod_eq_of_lt (show t - rest.length < t by omega)]
    · intro v hv
      rcases List.mem_append.mp hv with h | h
      · exact hlt v h
      · rw [List.mem_singleton.mp h, ← ofBits_append_zeros]
        have hb := ofBits_lt (rest ++ List.replicate (t - rest.length) false)
        rwa [List.length_append, List.length_replicate, Nat.add_sub_cancel' hr.le] at hb

/-- Without padding, `ConvertBits` writes the whole groups of `t` of the
    input's bits, and accepts exactly when the bits left over are fewer
    than `f` and all zero. -/
theorem convertBits_noPad :
    ∃ rest, ofGroups f input = ofGroups t (convertBits f t false input).1 ++ rest ∧ rest.length < t ∧
      ((convertBits f t false input).2 = true ↔ rest.length < f ∧ rest = List.replicate rest.length false) ∧
      ∀ v ∈ (convertBits f t false input).1, v < 2 ^ t := by
  obtain ⟨outs, acc, rest, hl, hbits, hr, hacc, hlt⟩ := convertBitsLoop_spec ht input hin 0 [] ht rfl
  rw [List.nil_append] at hbits
  rw [List.length_nil] at hl
  have hzero : ofBits rest * 2 ^ (t - rest.length) = 0 ↔ rest = List.replicate rest.length false := by
    rw [Nat.mul_eq_zero, ofBits_eq_zero_iff, or_iff_left (Nat.two_pow_pos _).ne']
  rw [convertBits_eq f t false input hl, if_neg Bool.false_ne_true, pad_value hr.le hacc]
  by_cases hbad : rest.length ≥ f ∨ ofBits rest * 2 ^ (t - rest.length) ≠ 0
  · rw [if_pos hbad]
    refine ⟨rest, hbits, hr, ⟨fun h => absurd h Bool.false_ne_true, fun ⟨hf, hz⟩ => ?_⟩, hlt⟩
    rcases hbad with h | h
    · omega
    · exact absurd (hzero.mpr hz) h
  · rw [if_neg hbad]
    rw [not_or, not_not] at hbad
    exact ⟨rest, hbits, hr, ⟨fun _ => ⟨Nat.lt_of_not_le hbad.1, hzero.mp hbad.2⟩, fun _ => rfl⟩, hlt⟩

end Convert

/-- Two splittings of one length into whole groups and a rest shorter than
    a group have as many groups. -/
theorem groups_eq_of_mul_add {f a b r s : Nat} (hf : 0 < f) (h : f * a + r = f * b + s) (hr : r < f)
    (hs : s < f) : a = b := by
  have hdiv := congrArg (· / f) h
  rwa [Nat.mul_add_div hf, Nat.mul_add_div hf, Nat.div_eq_of_lt hr, Nat.div_eq_of_lt hs, Nat.add_zero,
    Nat.add_zero] at hdiv

/-- Regrouping back without padding gives the values regrouped with
    padding, followed by the whole values of zero bits the padding holds. -/
theorem convertBits_pad_noPad {f t : Nat} (hf : 0 < f) (ht : 0 < t) {input : List Nat}
    (hin : ∀ v ∈ input, v < 2 ^ f) :
    convertBits t f false (convertBits f t true input).1 =
      (input ++ List.replicate ((t - f * input.length % t) % t / f) 0, true) := by
  obtain ⟨outs, hpad, hbits, hlt⟩ := convertBits_pad ht hin
  rw [hpad]
  obtain ⟨rest, hback, hr, hvalid, hlt2⟩ := convertBits_noPad hf hlt
  set p := (t - f * input.length % t) % t
  set vals := input ++ List.replicate (p / f) 0
  -- the padding is whole zero values and a rest shorter than a value
  have hsplit : ofGroups t outs = ofGroups f vals ++ List.replicate (p % f) false := by
    rw [hbits, ofGroups_append, ofGroups_replicate_zero, List.append_assoc, ← List.replicate_add,
      Nat.div_add_mod]
  have hvals_lt : ∀ v ∈ vals, v < 2 ^ f := by
    intro v hv
    rcases List.mem_append.mp hv with h | h
    · exact hin v h
    · rw [List.eq_of_mem_replicate h]
      exact Nat.two_pow_pos f
  rw [hsplit] at hback
  have hm : (convertBits t f false outs).1.length = vals.length := by
    have hlen := congrArg List.length hback
    rw [List.length_append, List.length_append, length_ofGroups, length_ofGroups, List.length_replicate] at hlen
    exact (groups_eq_of_mul_add hf hlen (Nat.mod_lt _ hf) hr).symm
  obtain ⟨hvals, hzeros⟩ := List.append_inj hback (by rw [length_ofGroups, length_ofGroups, hm])
  have hok : (convertBits t f false outs).2 = true := by
    rw [hvalid, ← hzeros, List.length_replicate]
    -- the rest is shorter than the padding, itself shorter than a group
    exact ⟨Nat.lt_of_le_of_lt (Nat.mod_le _ _) (Nat.mod_lt _ ht), rfl⟩
  exact Prod.ext (ofGroups_inj hf hlt2 hvals_lt hvals.symm) hok

/-- When the groups are no wider than the values the padding holds no
    whole value: regrouping back undoes the regrouping. -/
theorem convertBits_roundTrip {f t : Nat} (ht : 0 < t) (htf : t ≤ f) {input : List Nat}
    (hin : ∀ v ∈ input, v < 2 ^ f) :
    convertBits t f false (convertBits f t true input).1 = (input, true) := by
  have hp : (t - f * input.length % t) % t < f := Nat.lt_of_lt_of_le (Nat.mod_lt _ ht) htf
  rw [convertBits_pad_noPad (by omega) ht hin, Nat.div_eq_of_lt hp, List.replicate_zero, List.append_nil]

/-! ## Padding counts -/

/-- The padding that brings `a` up to a multiple of `q`. -/
theorem pad_count {a r q n : Nat} (h : a + r = q * n) (hr : r < q) : (q - a % q) % q = r := by
  rcases Nat.eq_zero_or_pos r with rfl | hpos
  · rw [Nat.add_zero] at h
    rw [h, Nat.mul_mod_right, Nat.sub_zero, Nat.mod_self]
  · -- `a` is `q * (n - 1)` and then `q - r`
    have hn : 0 < n := Nat.pos_of_ne_zero (by rintro rfl; omega)
    have ha : a = q * (n - 1) + (q - r) := by
      have : q * n = q * (n - 1) + q := by rw [← Nat.mul_succ, Nat.succ_eq_add_one, Nat.sub_add_cancel hn]
      omega
    rw [ha, Nat.mul_add_mod, Nat.mod_eq_of_lt (show q - r < q by omega), show q - (q - r) = r by omega,
      Nat.mod_eq_of_lt hr]

theorem add_pad_count_mod (a : Nat) {q : Nat} (hq : 0 < q) : (a + (q - a % q) % q) % q = 0 := by
  rcases Nat.eq_zero_or_pos (a % q) with h | h
  · rw [h, Nat.sub_zero, Nat.mod_self, Nat.add_zero, h]
  · rw [Nat.mod_eq_of_lt (show q - a % q < q by omega), Nat.add_mod, Nat.mod_eq_of_lt (show q - a % q < q by omega),
      show a % q + (q - a % q) = q by have := Nat.mod_lt a hq; omega, Nat.mod_self]

/-- `while (str.size() % quantum) str += '='` with enough fuel: `j` is the
    least count that brings the length to a multiple; the induction is on
    the fuel. -/
theorem padLoop_eq (q : Nat) (fuel : Nat) :
    ∀ (str : List UInt8) (j : Nat), j ≤ fuel → (str.length + j) % q = 0 → (∀ i < j, (str.length + i) % q ≠ 0) →
      padLoop q fuel str = str ++ List.replicate j '='.toUInt8 := by
  induction fuel with
  | zero =>
    intro str j hj hmod _
    have hj0 : j = 0 := by omega
    subst hj0
    rw [padLoop, List.replicate_zero, List.append_nil]
  | succ fuel ih =>
    intro str j hj hmod hleast
    by_cases h0 : str.length % q = 0
    · -- already a multiple: the least count is zero
      have hj0 : j = 0 := Nat.eq_zero_of_not_pos fun hpos => hleast 0 hpos (by rw [Nat.add_zero]; exact h0)
      subst hj0
      rw [padLoop, if_neg (not_not.mpr h0), List.replicate_zero, List.append_nil]
    · obtain ⟨j', rfl⟩ : ∃ j', j = j' + 1 := Nat.exists_eq_succ_of_ne_zero fun hj0 => h0 (by
        rw [hj0, Nat.add_zero] at hmod; exact hmod)
      rw [padLoop, if_pos h0, ih (str ++ ['='.toUInt8]) j' (by omega)
        (by rw [List.length_append, List.length_singleton, Nat.add_assoc, Nat.add_comm 1]; exact hmod)
        (fun i hi => by
          rw [List.length_append, List.length_singleton, Nat.add_assoc, Nat.add_comm 1]
          exact hleast (i + 1) (by omega)),
        List.append_assoc, List.singleton_append, List.replicate_succ]

/-- The padding `EncodeBase64` and `EncodeBase32` append. -/
theorem padLoop_quantum {q : Nat} (hq : 0 < q) (str : List UInt8) :
    padLoop q q str = str ++ List.replicate ((q - str.length % q) % q) '='.toUInt8 := by
  apply padLoop_eq q q str _ (Nat.mod_lt _ hq).le (add_pad_count_mod _ hq)
  intro i hi hmod
  -- below the count the length is not yet a multiple
  have hpos : 0 < str.length % q := by
    rcases Nat.eq_zero_or_pos (str.length % q) with h | h
    · rw [h, Nat.sub_zero, Nat.mod_self] at hi
      omega
    · exact h
  have hlt : str.length % q + i < q := by
    rw [Nat.mod_eq_of_lt (show q - str.length % q < q by omega)] at hi
    omega
  rw [Nat.add_mod, Nat.mod_eq_of_lt (show i < q by omega), Nat.mod_eq_of_lt hlt] at hmod
  omega

/-! ## The decoders' loops -/

section Loops

variable (table : List Int)

theorem decodeDigits_cons_digit {c : UInt8} (cs : List UInt8) (h0 : c ≠ 0) (hx : table.getD c.toNat (-1) ≠ -1) :
    decodeDigits table (c :: cs) =
      ((table.getD c.toNat (-1)).toNat :: (decodeDigits table cs).1, (decodeDigits table cs).2) := by
  rw [decodeDigits, if_neg h0]
  simp only [hx, if_false]

theorem decodeDigits_cons_stop {c : UInt8} (cs : List UInt8) (h : c = 0 ∨ table.getD c.toNat (-1) = -1) :
    decodeDigits table (c :: cs) = ([], c :: cs) := by
  rw [decodeDigits]
  rcases h with h | h
  · rw [if_pos h]
  · by_cases h0 : c = 0
    · rw [if_pos h0]
    · rw [if_neg h0]
      simp only [h, if_true]

/-- The first loop takes the characters of the table up to one it stops at. -/
theorem decodeDigits_append {cs rest : List UInt8} (hcs : ∀ c ∈ cs, c ≠ 0 ∧ table.getD c.toNat (-1) ≠ -1)
    (hstop : ∀ c rest', rest = c :: rest' → c = 0 ∨ table.getD c.toNat (-1) = -1) :
    decodeDigits table (cs ++ rest) = (cs.map fun c => (table.getD c.toNat (-1)).toNat, rest) := by
  induction cs with
  | nil =>
    cases rest with
    | nil => rfl
    | cons c rest' => exact decodeDigits_cons_stop table rest' (hstop c rest' rfl)
  | cons c cs ih =>
    obtain ⟨h0, hx⟩ := hcs c List.mem_cons_self
    rw [List.cons_append, decodeDigits_cons_digit table _ h0 hx, ih fun d hd => hcs d (List.mem_cons_of_mem c hd),
      List.map_cons]

/-- What the first loop reads is a prefix of table characters. -/
theorem decodeDigits_spec (s : List UInt8) :
    ∃ cs, s = cs ++ (decodeDigits table s).2 ∧ (∀ c ∈ cs, c ≠ 0 ∧ table.getD c.toNat (-1) ≠ -1) ∧
      (decodeDigits table s).1 = cs.map fun c => (table.getD c.toNat (-1)).toNat := by
  induction s with
  | nil => exact ⟨[], rfl, by simp, rfl⟩
  | cons c cs ih =>
    by_cases hd : c ≠ 0 ∧ table.getD c.toNat (-1) ≠ -1
    · obtain ⟨ds, hs, hds, hv⟩ := ih
      rw [decodeDigits_cons_digit table cs hd.1 hd.2]
      refine ⟨c :: ds, by rw [List.cons_append, ← hs], ?_, by rw [hv, List.map_cons]⟩
      intro d hmem
      rcases List.mem_cons.mp hmem with rfl | hin
      · exact hd
      · exact hds d hin
    · rw [decodeDigits_cons_stop table cs (by rw [not_and_or, not_not, not_not] at hd; exact hd)]
      exact ⟨[], rfl, by simp, rfl⟩

theorem decodePadding_replicate (n : Nat) : decodePadding (List.replicate n '='.toUInt8) = (n, true) := by
  induction n with
  | zero => rfl
  | succ n ih =>
    rw [List.replicate_succ, decodePadding, if_neg (by decide), if_neg (by decide)]
    simp only [ih]

/-- The `'='` loop accepts only `'='` up to the end. -/
theorem decodePadding_spec {s : List UInt8} (hs : ∀ c ∈ s, c ≠ 0) :
    ∀ {n : Nat}, decodePadding s = (n, true) → s = List.replicate n '='.toUInt8 := by
  induction s with
  | nil =>
    intro n h
    rw [decodePadding] at h
    cases h
    rfl
  | cons c cs ih =>
    intro n h
    rw [decodePadding, if_neg (hs c List.mem_cons_self)] at h
    by_cases hc : c = '='.toUInt8
    · rw [if_neg (not_not.mpr hc)] at h
      rcases hp : decodePadding cs with ⟨m, ok⟩
      rw [hp] at h
      simp only [Prod.mk.injEq] at h
      obtain ⟨rfl, rfl⟩ := h
      rw [ih (fun d hd => hs d (List.mem_cons_of_mem c hd)) hp, hc, List.replicate_succ]
    · rw [if_pos hc] at h
      cases h

end Loops

theorem validAsCString_iff (s : List UInt8) : validAsCString s = true ↔ ∀ c ∈ s, c ≠ 0 := by
  rw [validAsCString, beq_iff_eq]
  constructor
  · intro h c hc
    have hall := List.takeWhile_eq_self_iff.mp ((List.takeWhile_prefix _).eq_of_length h.symm)
    simpa using hall c hc
  · intro h
    rw [List.takeWhile_eq_self_iff.mpr fun c hc => by simpa using h c hc]

/-- `TrimString` of spaces, a stretch without one and spaces again is the
    stretch. -/
theorem trimString_eq {pattern sp X sp' : List UInt8} (hsp : ∀ c ∈ sp, pattern.contains c = true)
    (hX : ∀ c ∈ X, pattern.contains c = false) (hsp' : ∀ c ∈ sp', pattern.contains c = true) :
    trimString (sp ++ X ++ sp') pattern = X := by
  delta trimString
  rw [List.append_assoc, List.dropWhile_append_of_pos hsp]
  cases X with
  | nil => rw [List.nil_append, List.dropWhile_eq_nil_iff.mpr hsp', if_pos rfl]
  | cons c X =>
    -- the front stops at `c`; from the back, the spaces go and the stretch's last character stays
    have hback : ∀ a ∈ (c :: X).reverse.head?, pattern.contains a = false :=
      fun a ha => hX a (List.mem_reverse.mp (List.mem_of_mem_head? ha))
    rw [List.cons_append, List.dropWhile_cons_of_neg (by rw [hX c List.mem_cons_self]; exact Bool.false_ne_true),
      if_neg (List.cons_ne_nil _ _), ← List.cons_append, List.reverse_append,
      List.dropWhile_append_of_pos fun a ha => hsp' a (List.mem_reverse.mp ha), Lists.dropWhile_of_head hback,
      List.reverse_reverse]

/-! ## Base64 and Base32 -/

/-- An alphabet of `2 ^ w` characters and the decoding table read with it:
    each character decodes to its index and is no zero byte, `'='` is
    outside the table, and a character the table decodes stands for the
    alphabet's character at its value, `canon` of it. -/
structure Alphabet (alphabet : List UInt8) (table : List Int) (w : Nat) (canon : UInt8 → UInt8) : Prop where
  decode_char : ∀ v < 2 ^ w, table.getD (alphabet.getD v 0).toNat (-1) = v
  char_ne_zero : ∀ v < 2 ^ w, alphabet.getD v 0 ≠ 0
  pad_outside : table.getD '='.toUInt8.toNat (-1) = -1
  char_decode : ∀ c : UInt8, table.getD c.toNat (-1) ≠ -1 →
    0 ≤ table.getD c.toNat (-1) ∧ table.getD c.toNat (-1) < 2 ^ w ∧
      alphabet.getD (table.getD c.toNat (-1)).toNat 0 = canon c
  canon_pad : canon '='.toUInt8 = '='.toUInt8

/-- The decoder's verdict once its pieces are known. -/
theorem decodeBaseNCStr_of {table : List Int} {w q : Nat} {p val : List UInt8} {digits : List Nat}
    {rest : List UInt8} {ret : List Nat} {npad : Nat} (hd : decodeDigits table p = (digits, rest))
    (hc : convertBits w 8 false digits = (ret, true)) (hp : decodePadding rest = (npad, true))
    (hm : (digits.length + npad) % q = 0) (hn : npad < q) (hval : val = ret.map UInt8.ofNat) :
    decodeBaseNCStr table w q p = (val, false) := by
  rw [decodeBaseNCStr, hd]
  simp only [hc, hp, if_true, hm, hn, hval, beq_self_eq_true, decide_true, Bool.and_self, Bool.not_true]

/-- What the decoder's acceptance says: the regrouping is valid, only
    `'='` follow the characters, as many as complete the quantum. -/
theorem decodeBaseNCStr_eq_false {table : List Int} {w q : Nat} {p ret : List UInt8}
    (h : decodeBaseNCStr table w q p = (ret, false)) :
    ∃ ret' npad, convertBits w 8 false (decodeDigits table p).1 = (ret', true) ∧
      decodePadding (decodeDigits table p).2 = (npad, true) ∧
      ((decodeDigits table p).1.length + npad) % q = 0 ∧ npad < q ∧ ret = ret'.map UInt8.ofNat := by
  rcases hd : decodeDigits table p with ⟨val, rest⟩
  rw [decodeBaseNCStr, hd] at h
  dsimp only at h
  rcases hc : convertBits w 8 false val with ⟨ret', valid⟩
  rw [hc] at h
  cases valid with
  | false => simp at h
  | true =>
    rcases hp : decodePadding rest with ⟨npad, ok⟩
    simp only [hp, if_true] at h
    cases ok with
    | false => simp at h
    | true =>
      simp only [Prod.mk.injEq, Bool.true_and, Bool.not_eq_false', Bool.and_eq_true, beq_iff_eq,
        decide_eq_true_eq] at h
      exact ⟨ret', npad, rfl, rfl, h.2.1, h.2.2, h.1.symm⟩

section Codec

variable {alphabet : List UInt8} {table : List Int} {w q : Nat} {canon : UInt8 → UInt8}
  (hA : Alphabet alphabet table w canon) (hw : 0 < w) (hq : 0 < q)
include hA hw hq

/-- Decoding inverts encoding with padding, for digits of at most a byte. -/
theorem decodeBaseN_encodeBaseN (hw8 : w ≤ 8) (input : List UInt8) :
    decodeBaseN table w q (encodeBaseN alphabet w q true input) = (input, false) := by
  have hbytes : ∀ v ∈ input.map UInt8.toNat, v < 2 ^ 8 := by
    intro v hv
    obtain ⟨b, -, rfl⟩ := List.mem_map.mp hv
    exact b.toNat_lt
  obtain ⟨outs, hpad, -, hlt⟩ := convertBits_pad hw hbytes
  have henc : encodeBaseN alphabet w q true input =
      outs.map (fun v => alphabet.getD v 0) ++
        List.replicate ((q - outs.length % q) % q) '='.toUInt8 := by
    rw [encodeBaseN, hpad]
    simp only [if_true]
    rw [padLoop_quantum hq, List.length_map]
  have hchars : ∀ c ∈ outs.map (fun v => alphabet.getD v 0), c ≠ 0 ∧ table.getD c.toNat (-1) ≠ -1 := by
    intro c hc
    obtain ⟨v, hv, rfl⟩ := List.mem_map.mp hc
    exact ⟨hA.char_ne_zero v (hlt v hv), by rw [hA.decode_char v (hlt v hv)]; omega⟩
  -- the characters decode back to the groups, and the padding stops the first loop
  have hdigits : decodeDigits table (encodeBaseN alphabet w q true input) =
      (outs, List.replicate ((q - outs.length % q) % q) '='.toUInt8) := by
    rw [henc, decodeDigits_append table hchars, List.map_map]
    · congr 1
      conv_rhs => rw [← List.map_id outs]
      apply List.map_congr_left
      intro v hv
      simp only [Function.comp_apply, hA.decode_char v (hlt v hv), Int.toNat_natCast, id]
    · intro c rest' hrest
      rcases Nat.eq_zero_or_pos ((q - outs.length % q) % q) with h0 | hpos
      · rw [h0, List.replicate_zero] at hrest
        cases hrest
      · obtain ⟨k, hk⟩ := Nat.exists_eq_succ_of_ne_zero hpos.ne'
        rw [hk, List.replicate_succ] at hrest
        cases hrest
        exact Or.inr hA.pad_outside
  have hvalid : validAsCString (encodeBaseN alphabet w q true input) = true := by
    rw [validAsCString_iff, henc]
    intro c hc
    rcases List.mem_append.mp hc with h | h
    · exact (hchars c h).1
    · rw [List.eq_of_mem_replicate h]
      decide
  have hround := convertBits_roundTrip hw hw8 hbytes
  rw [hpad] at hround
  have hinput : input = (input.map UInt8.toNat).map UInt8.ofNat := by
    rw [List.map_map]
    conv_lhs => rw [← List.map_id input]
    apply List.map_congr_left
    intro b _
    simp
  rw [decodeBaseN, hvalid, Bool.not_true, if_neg Bool.false_ne_true]
  exact decodeBaseNCStr_of hdigits hround (decodePadding_replicate _) (add_pad_count_mod _ hq)
    (Nat.mod_lt _ hq) hinput

/-- Every string the decoder accepts is the padded encoding of what it
    decodes, each character read as the one it stands for. -/
theorem encodeBaseN_of_decodeBaseN {s ret : List UInt8} (h : decodeBaseN table w q s = (ret, false)) :
    encodeBaseN alphabet w q true ret = s.map canon := by
  have hvalid : validAsCString s = true := by
    by_contra hnot
    rw [decodeBaseN, if_pos (by simpa using hnot)] at h
    cases h
  rw [decodeBaseN, hvalid, Bool.not_true, if_neg Bool.false_ne_true] at h
  have hs := (validAsCString_iff s).mp hvalid
  obtain ⟨ret', npad, hconv, hpadding, hm, hn, hret⟩ := decodeBaseNCStr_eq_false h
  obtain ⟨cs, hsplit, hcs, hdig⟩ := decodeDigits_spec table s
  set digits := (decodeDigits table s).1
  set rest := (decodeDigits table s).2
  have hrest : rest = List.replicate npad '='.toUInt8 :=
    decodePadding_spec (fun c hc => hs c (by rw [hsplit]; exact List.mem_append_right cs hc)) hpadding
  -- the characters are digits of `w` bits
  have hdigits : ∀ v ∈ digits, v < 2 ^ w := by
    intro v hv
    rw [hdig] at hv
    obtain ⟨c, hc, rfl⟩ := List.mem_map.mp hv
    obtain ⟨h0, hlt, -⟩ := hA.char_decode c (hcs c hc).2
    have hcast : ((table.getD c.toNat (-1)).toNat : Int) < ((2 ^ w : Nat) : Int) := by
      rw [Int.toNat_of_nonneg h0]
      exact_mod_cast hlt
    exact_mod_cast hcast
  obtain ⟨r, hbits, hr, hok, hbytes⟩ := convertBits_noPad (show 0 < 8 by omega) hdigits
  rw [hconv] at hbits hok hbytes
  obtain ⟨hrw, hzero⟩ := hok.mp rfl
  have hret' : ret.map UInt8.toNat = ret' := by
    rw [hret, List.map_map]
    exact (List.map_congr_left fun v hv => UInt8.toNat_ofNat_of_lt' (hbytes v hv)).trans (List.map_id _)
  -- re-encoding pads with as many zero bits as decoding left over
  have hbytes' : ∀ v ∈ ret.map UInt8.toNat, v < 2 ^ 8 := by
    rw [hret']
    exact hbytes
  obtain ⟨outs, hpad, hobits, hlt⟩ := convertBits_pad hw hbytes'
  have hcount : (w - 8 * (ret.map UInt8.toNat).length % w) % w = r.length := by
    have hlen := congrArg List.length hbits
    rw [length_ofGroups, List.length_append, length_ofGroups] at hlen
    rw [hret']
    exact pad_count hlen.symm hrw
  have houts : outs = digits := by
    apply ofGroups_inj hw hlt hdigits
    rw [hobits, hcount, hret', ← hzero, hbits]
  have hnpad : (q - outs.length % q) % q = npad := by
    have hdiv := Nat.div_add_mod (digits.length + npad) q
    rw [hm, Nat.add_zero] at hdiv
    rw [houts]
    exact pad_count hdiv.symm hn
  rw [encodeBaseN, hpad]
  simp only [if_true]
  rw [padLoop_quantum hq, List.length_map, hnpad, houts, hdig, List.map_map, hsplit, List.map_append, hrest,
    List.map_replicate, hA.canon_pad]
  congr 1
  apply List.map_congr_left
  intro c hc
  simp only [Function.comp_apply]
  exact (hA.char_decode c (hcs c hc).2).2.2

end Codec

/-! ### The source's two alphabets -/

/-- `decode64_table` reads back `pbase64`, each character as itself. -/
theorem base64Alphabet : Alphabet pbase64 decode64_table 6 id where
  decode_char := by decide +kernel
  char_ne_zero := by decide +kernel
  pad_outside := by decide +kernel
  char_decode c := by
    -- the table is checked at every byte value, then read at `c`
    have htable : ∀ n < 256, decode64_table.getD n (-1) ≠ -1 →
        0 ≤ decode64_table.getD n (-1) ∧ decode64_table.getD n (-1) < 2 ^ 6 ∧
          pbase64.getD (decode64_table.getD n (-1)).toNat 0 = UInt8.ofNat n := by decide +kernel
    simpa only [UInt8.ofNat_toNat, id] using htable c.toNat c.toNat_lt
  canon_pad := rfl

/-- `decode32_table` reads back `pbase32` and takes upper-case letters for
    their lower-case forms. -/
theorem base32Alphabet : Alphabet pbase32 decode32_table 5 toLower where
  decode_char := by decide +kernel
  char_ne_zero := by decide +kernel
  pad_outside := by decide +kernel
  char_decode c := by
    have htable : ∀ n < 256, decode32_table.getD n (-1) ≠ -1 →
        0 ≤ decode32_table.getD n (-1) ∧ decode32_table.getD n (-1) < 2 ^ 5 ∧
          pbase32.getD (decode32_table.getD n (-1)).toNat 0 = toLower (UInt8.ofNat n) := by decide +kernel
    simpa only [UInt8.ofNat_toNat] using htable c.toNat c.toNat_lt
  canon_pad := by decide

/-- Base64 and padded Base32 are canonical codecs, and regrouping into
    narrower groups with padding is undone by regrouping back without it. -/
theorem base64_base32_canonical :
    (∀ b, decodeBase64 (encodeBase64 b) = (b, false)) ∧
      (∀ b, decodeBase32 (encodeBase32 b true) = (b, false)) ∧
      (∀ s ret, decodeBase64 s = (ret, false) → encodeBase64 ret = s) ∧
      (∀ s ret, decodeBase32 s = (ret, false) → encodeBase32 ret true = s.map toLower) ∧
      ∀ f t, 0 < t → t ≤ f → ∀ values : List Nat, (∀ v ∈ values, v < 2 ^ f) →
        convertBits t f false (convertBits f t true values).1 = (values, true) := by
  refine ⟨fun b => ?_, fun b => ?_, fun s ret h => ?_, fun s ret h => ?_, ?_⟩
  · exact decodeBaseN_encodeBaseN base64Alphabet (by omega) (by omega) (by omega) b
  · exact decodeBaseN_encodeBaseN base32Alphabet (by omega) (by omega) (by omega) b
  · rw [← List.map_id s]
    exact encodeBaseN_of_decodeBaseN base64Alphabet (by omega) (by omega) h
  · exact encodeBaseN_of_decodeBaseN base32Alphabet (by omega) (by omega) h
  · intro f t ht htf values hv
    exact convertBits_roundTrip ht htf hv

theorem base64_base32_canonical_ma :
    encodeBase64 [77, 97] = "TWE=".toList.map Char.toUInt8 ∧
      encodeBase32 [77, 97] true = ("JVQQ====".toList.map Char.toUInt8).map toLower ∧
      convertBits 5 8 false (convertBits 8 5 true [77, 97]).1 = ([77, 97], true) :=
  ⟨base64_base32_canonical.2.2.1 _ _ (by decide +kernel),
    base64_base32_canonical.2.2.2.1 _ _ (by decide +kernel),
    base64_base32_canonical.2.2.2.2 8 5 (by decide) (by decide) _ (by decide)⟩

/-- Regrouping into wider groups with padding and back is not the identity:
    the padding bits come back as a group of their own. -/
theorem convertBits_widen_keeps_padding :
    convertBits 8 6 false (convertBits 6 8 true [1, 2, 3]).1 = ([1, 2, 3, 0], true) := by
  decide +kernel

end Revo
