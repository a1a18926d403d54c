/-
  Revo.Util.Base58Proofs

  The Base58 codec is a pair of base conversions.  A buffer of `size`
  digits in base `b` holding `v` is `Nat.digitsAppend b size v`, with
  `length` the number of digits of `v`; one pass of the inner loop turns it
  into the buffer of `r * v + c` exactly when that fits, and leaves a carry
  otherwise (`mulAddLoop_digitsAppend`).  The loop first runs over the
  digits in use whatever the carry (`mulAddLoop_append`), then writes the
  carry into the zeros above them (`mulAddLoop_replicate`).  The buffers of
  the source always suffice, since `log 256 / log 58 < 1.38` and
  `log 58 / log 256 < 0.733` (`Positional.pow_le_pow_div_succ`).

  So the encoder writes the base58 digits of the input's value after a `1`
  for each leading zero byte, the decoder reads them back, and a string the
  decoder accepts is, trimmed, the encoding of what it decodes.  All of it
  holds while the buffer sizes fit an `int`: for more than 1556147570 bytes
  without the leading zeros, `EncodeBase58` throws.
-/

import Revo.Util.Base58
import Revo.Util.StrEncodingsProofs
import Revo.Lib.Positional
import Revo.Lib.Lists
import Mathlib

namespace Revo

open Positional

-- ============================================================================
-- The inner loop
-- ============================================================================

section MulAdd

variable {b r length : Nat}

/-- Over the digits in use the loop runs whatever the carry: they become
    the low digits of `carry + r * v`, and the carry above them goes on into
    the rest of the buffer. -/
theorem mulAddLoop_append (hb : 0 < b) (Z : List Nat) :
    ∀ (D : List Nat) (carry i : Nat), i + D.length = length →
      ∃ D' carry', D'.length = D.length ∧ (∀ d ∈ D', d < b) ∧
        Nat.ofDigits b D' + b ^ D.length * carry' = carry + r * Nat.ofDigits b D ∧
        mulAddLoop b r length carry i (D ++ Z) =
          (D' ++ (mulAddLoop b r length carry' length Z).1, (mulAddLoop b r length carry' length Z).2) := by
  intro D
  induction D with
  | nil =>
    intro carry i hi
    simp only [List.length_nil, Nat.add_zero] at hi
    subst hi
    exact ⟨[], carry, rfl, by simp, by simp, by simp⟩
  | cons d D ih =>
    intro carry i hi
    simp only [List.length_cons] at hi
    obtain ⟨D'', c'', hlen, hlt, hval, heq⟩ := ih ((carry + r * d) / b) (i + 1) (by omega)
    refine ⟨(carry + r * d) % b :: D'', c'', by simp [hlen], ?_, ?_, ?_⟩
    · intro x hx
      rcases List.mem_cons.mp hx with rfl | hx
      · exact Nat.mod_lt _ hb
      · exact hlt x hx
    · -- one digit down, the rest one place up
      have hsplit := Nat.mod_add_div (carry + r * d) b
      rw [Nat.ofDigits_cons, Nat.ofDigits_cons, List.length_cons, Nat.pow_succ]
      calc (carry + r * d) % b + b * Nat.ofDigits b D'' + b ^ D.length * b * c''
          = (carry + r * d) % b + b * (Nat.ofDigits b D'' + b ^ D.length * c'') := by ring
        _ = (carry + r * d) % b + b * ((carry + r * d) / b + r * Nat.ofDigits b D) := by rw [hval]
        _ = carry + r * (d + b * Nat.ofDigits b D) := by rw [Nat.mul_add, ← Nat.add_assoc, hsplit]; ring
    · rw [List.cons_append, mulAddLoop_cons, if_pos (Or.inr (by omega)), heq]
      rfl

/-- Above the digits in use the buffer is zero, and the loop writes the
    digits of the carry there, as long as there is one. -/
theorem mulAddLoop_replicate (hb : 1 < b) :
    ∀ (m carry i : Nat), length ≤ i →
      (mulAddLoop b r length carry i (List.replicate m 0)).2.1 = carry / b ^ m ∧
        (carry < b ^ m → mulAddLoop b r length carry i (List.replicate m 0) =
          (Nat.digitsAppend b m carry, 0, i + (Nat.digits b carry).length)) := by
  intro m
  induction m with
  | zero =>
    intro carry i _
    refine ⟨by simp [mulAddLoop_nil], fun hc => ?_⟩
    obtain rfl : carry = 0 := by simpa using hc
    simp [mulAddLoop_nil, Nat.digitsAppend]
  | succ m ih =>
    intro carry i hi
    rcases Nat.eq_zero_or_pos carry with rfl | hpos
    · -- no carry past the digits in use: the loop stops
      have hstop : mulAddLoop b r length 0 i (List.replicate (m + 1) 0) = (List.replicate (m + 1) 0, 0, i) := by
        rw [List.replicate_succ, mulAddLoop_cons, if_neg (by omega)]
      rw [hstop]
      exact ⟨by simp, fun _ => by simp [Nat.digitsAppend]⟩
    · obtain ⟨ihc, ihd⟩ := ih (carry / b) (i + 1) (by omega)
      have hstep : mulAddLoop b r length carry i (List.replicate (m + 1) 0) =
          (carry % b :: (mulAddLoop b r length (carry / b) (i + 1) (List.replicate m 0)).1,
            (mulAddLoop b r length (carry / b) (i + 1) (List.replicate m 0)).2) := by
        rw [List.replicate_succ, mulAddLoop_cons, if_pos (Or.inl (by omega)), Nat.mul_zero, Nat.add_zero]
      rw [hstep]
      refine ⟨by rw [ihc, Nat.div_div_eq_div_mul, Nat.pow_succ, Nat.mul_comm (b ^ m)], fun hc => ?_⟩
      have hc' : carry / b < b ^ m := by
        rw [Nat.div_lt_iff_lt_mul (by omega)]
        rwa [← Nat.pow_succ]
      rw [ihd hc', Nat.digitsAppend, Nat.digitsAppend, Nat.digits_def' hb hpos]
      simp only [List.cons_append, List.length_cons, Nat.add_sub_add_right, Prod.mk.injEq, true_and]
      omega

/-- One pass over a buffer of `size` digits holding `v`: the carry left is
    what of `r * v + c` does not fit, and when it fits the buffer holds it,
    `length` its number of digits.  The digits in use grow into the carry's
    digits (`c' ≠ 0`) or keep their top digit, since `r * v + c ≥ v`. -/
theorem mulAddLoop_digitsAppend (hb : 1 < b) (hr : 0 < r) {size v : Nat} (c : Nat) (hv : v < b ^ size) :
    (mulAddLoop b r (Nat.digits b v).length c 0 (Nat.digitsAppend b size v)).2.1 = (r * v + c) / b ^ size ∧
      (r * v + c < b ^ size → mulAddLoop b r (Nat.digits b v).length c 0 (Nat.digitsAppend b size v) =
        (Nat.digitsAppend b size (r * v + c), 0, (Nat.digits b (r * v + c)).length)) := by
  have hlen : (Nat.digits b v).length ≤ size := (Nat.digits_length_le_iff hb v).mpr hv
  obtain ⟨D', c', hD'len, hD'lt, hval, heq⟩ := @mulAddLoop_append b r (Nat.digits b v).length (by omega)
    (List.replicate (size - (Nat.digits b v).length) 0) (Nat.digits b v) c 0 (by omega)
  rw [Nat.ofDigits_digits, Nat.add_comm c] at hval
  obtain ⟨hcarry, hfill⟩ := @mulAddLoop_replicate b r (Nat.digits b v).length hb (size - (Nat.digits b v).length) c'
    (Nat.digits b v).length (Nat.le_refl _)
  have hlow : Nat.ofDigits b D' < b ^ (Nat.digits b v).length := hD'len ▸ Nat.ofDigits_lt_base_pow_length hb hD'lt
  have hpow : b ^ size = b ^ (Nat.digits b v).length * b ^ (size - (Nat.digits b v).length) := by
    rw [← Nat.pow_add, Nat.add_sub_cancel' hlen]
  rw [Nat.digitsAppend, heq]
  refine ⟨?_, fun hfit => ?_⟩
  · -- the carry out of the digits in use, shifted past the zeros
    rw [hcarry, ← hval, hpow, ← Nat.div_div_eq_div_mul, Nat.add_mul_div_left _ _ (Nat.pow_pos (by omega)),
      Nat.div_eq_of_lt hlow, Nat.zero_add]
  · have hc' : c' < b ^ (size - (Nat.digits b v).length) := by
      rw [hpow, ← hval] at hfit
      exact Nat.lt_of_mul_lt_mul_left (Nat.lt_of_le_of_lt (Nat.le_add_left _ _) hfit)
    -- the new digits are `D'` followed by those of the carry
    have hkey : D' ++ Nat.digits b c' = Nat.digits b (r * v + c) := by
      rcases Nat.eq_zero_or_pos c' with h0 | hpos
      · rw [h0, Nat.digits_zero, List.append_nil]
        rw [h0, Nat.mul_zero, Nat.add_zero] at hval
        rw [← hval]
        refine (Nat.digits_ofDigits b hb D' hD'lt fun hne => ?_).symm
        -- `v ≠ 0` since it has digits, and `r * v + c ≥ v ≥ b ^ (length - 1)`
        have hv0 : v ≠ 0 := by
          rintro rfl
          rw [Nat.digits_zero, List.length_nil] at hD'len
          exact hne (List.eq_nil_of_length_eq_zero hD'len)
        have hbase := Nat.base_pow_length_digits_le b v hb hv0
        have hsucc : (Nat.digits b v).length - 1 + 1 = (Nat.digits b v).length := by
          have : 0 < (Nat.digits b v).length := hD'len ▸ List.length_pos_of_ne_nil hne
          omega
        rw [← hsucc, Nat.pow_succ, Nat.mul_comm] at hbase
        have hle : b ^ ((Nat.digits b v).length - 1) ≤ v := Nat.le_of_mul_le_mul_left hbase (by omega)
        refine getLast_ne_zero_of_pow_le hb hne hD'lt ?_
        rw [hD'len, hval]
        calc b ^ ((Nat.digits b v).length - 1) ≤ v := hle
          _ ≤ r * v := Nat.le_mul_of_pos_left v hr
          _ ≤ r * v + c := Nat.le_add_right _ _
      · have hne : Nat.digits b c' ≠ [] := Nat.digits_ne_nil_iff_ne_zero.mpr hpos.ne'
        have hofd : Nat.ofDigits b (D' ++ Nat.digits b c') = r * v + c := by
          rw [Nat.ofDigits_append, Nat.ofDigits_digits, hD'len, hval]
        rw [← hofd]
        refine (Nat.digits_ofDigits b hb _ ?_ ?_).symm
        · intro d hd
          rcases List.mem_append.mp hd with hd | hd
          · exact hD'lt d hd
          · exact Nat.digits_lt_base hb hd
        · intro happ
          rw [List.getLast_append_of_ne_nil happ hne]
          exact Nat.getLast_digit_ne_zero b hpos.ne'
    have hklen := congrArg List.length hkey
    rw [List.length_append, hD'len] at hklen
    rw [hfill hc', Nat.digitsAppend, Nat.digitsAppend, ← List.append_assoc, hkey, ← hklen, Nat.sub_sub]

end MulAdd

-- ============================================================================
-- The alphabet and the buffer sizes
-- ============================================================================

/-- The digit a base58 character stands for. -/
def b58Digit (c : UInt8) : Nat := (mapBase58.getD c.toNat (-1)).toNat

/-- `pszBase58` as its bytes. -/
theorem pszBase58_eq : pszBase58 = [49, 50, 51, 52, 53, 54, 55, 56, 57, 65, 66, 67, 68, 69, 70, 71, 72, 74, 75, 76, 77,
    78, 80, 81, 82, 83, 84, 85, 86, 87, 88, 89, 90, 97, 98, 99, 100, 101, 102, 103, 104, 105, 106, 107, 109, 110, 111,
    112, 113, 114, 115, 116, 117, 118, 119, 120, 121, 122] := by
  decide

/-- The character of each digit maps back to it, is no space and no zero
    byte, and is `'1'` only for digit 0. -/
theorem pszBase58_digit : ∀ d < 58, mapBase58.getD (pszBase58.getD d 0).toNat (-1) = d ∧
    isSpace (pszBase58.getD d 0) = false ∧ pszBase58.getD d 0 ≠ 0 ∧ (d ≠ 0 → pszBase58.getD d 0 ≠ '1'.toUInt8) := by
  rw [pszBase58_eq]
  decide

set_option maxRecDepth 2000 in
theorem mapBase58_length : mapBase58.length = 256 := rfl

set_option maxRecDepth 8000 in
/-- Each entry of `mapBase58` other than `-1` is a digit whose character is
    the entry's byte, which is no space, and `'1'` for digit 0. -/
theorem mapBase58_entries : mapBase58.zipIdx.all (fun e => e.1 == -1 || (decide (e.1.toNat < 58) &&
    pszBase58.getD e.1.toNat 0 == UInt8.ofNat e.2 && !isSpace (UInt8.ofNat e.2) &&
    (e.1.toNat != 0 || UInt8.ofNat e.2 == '1'.toUInt8))) = true := by
  rw [pszBase58_eq]
  decide

/-- A character `mapBase58` knows is the alphabet's character at its digit,
    and no space. -/
theorem mapBase58_char (c : UInt8) (h : mapBase58.getD c.toNat (-1) ≠ -1) :
    b58Digit c < 58 ∧ pszBase58.getD (b58Digit c) 0 = c ∧ isSpace c = false ∧ (b58Digit c = 0 → c = '1'.toUInt8) := by
  -- the table's entry at `c`, read back
  have hrow := Lists.all_zipIdx_getD mapBase58_entries (-1) (by rw [mapBase58_length]; exact c.toNat_lt)
  simp only [beq_iff_eq, h, Bool.and_eq_true, decide_eq_true_eq, UInt8.ofNat_toNat, Bool.not_eq_true',
    Bool.or_eq_true, bne_iff_ne, ne_eq, false_or] at hrow
  obtain ⟨⟨⟨hlt, hchar⟩, hspace⟩, hone⟩ := hrow
  exact ⟨hlt, hchar, hspace, fun h0 => hone.resolve_left (not_not.mpr h0)⟩

/-- `log 256 / log 58 < 138 / 100`: the encoder's buffer holds any input. -/
theorem encode_buffer_fits (n : Nat) : 256 ^ n ≤ 58 ^ (n * 138 / 100 + 1) :=
  pow_le_pow_div_succ (by decide) (by decide) (by decide) n

/-- `log 58 / log 256 < 733 / 1000`: the decoder's buffer holds any input. -/
theorem decode_buffer_fits (m : Nat) : 58 ^ m ≤ 256 ^ (m * 733 / 1000 + 1) :=
  pow_le_pow_div_succ (by decide) (by decide) (by decide +kernel) m

-- ============================================================================
-- The outer loops
-- ============================================================================

/-- The encoder's loop runs the bytes into the base58 buffer, as long as the
    value fits. -/
theorem encodeLoop_digitsAppend {size : Nat} :
    ∀ (input : List UInt8) (v : Nat), value 256 v (input.map UInt8.toNat) < 58 ^ size →
      encodeLoop (Nat.digitsAppend 58 size v) (Nat.digits 58 v).length input =
        .ok (Nat.digitsAppend 58 size (value 256 v (input.map UInt8.toNat)),
          (Nat.digits 58 (value 256 v (input.map UInt8.toNat))).length) := by
  intro input
  induction input with
  | nil => intro v _; rfl
  | cons ch input ih =>
    intro v hfit
    rw [List.map_cons, value_cons] at hfit ⊢
    have hw : 256 * v + ch.toNat < 58 ^ size := Nat.lt_of_le_of_lt (@le_value 256 _ _ (by decide)) hfit
    have hv : v < 58 ^ size := by omega
    have hstep := (mulAddLoop_digitsAppend (by decide) (by decide) ch.toNat hv).2 hw
    rw [encodeLoop_cons, hstep]
    exact ih _ hfit

/-- The decoder's loop over base58 digits up to the end of the string. -/
theorem decodeLoop_digitsAppend {max_ret_len : Int} {zeroes size : Nat} :
    ∀ (psz : List UInt8) (v : Nat), (∀ c ∈ psz, isSpace c = false ∧ mapBase58.getD c.toNat (-1) ≠ -1) →
      value 58 v (psz.map b58Digit) < 256 ^ size →
      (((Nat.digits 256 (value 58 v (psz.map b58Digit))).length + zeroes : Nat) : Int) ≤ max_ret_len →
      decodeLoop max_ret_len zeroes (Nat.digitsAppend 256 size v) (Nat.digits 256 v).length psz =
        .ok (some (Nat.digitsAppend 256 size (value 58 v (psz.map b58Digit)),
          (Nat.digits 256 (value 58 v (psz.map b58Digit))).length, [])) := by
  intro psz
  induction psz with
  | nil => intro v _ _ _; rfl
  | cons c psz ih =>
    intro v hpsz hfit hmax
    obtain ⟨hspace, hvalid⟩ := hpsz c List.mem_cons_self
    rw [List.map_cons, value_cons] at hfit hmax ⊢
    have hw : 58 * v + b58Digit c < 256 ^ size := Nat.lt_of_le_of_lt (@le_value 58 _ _ (by decide)) hfit
    have hv : v < 256 ^ size := by omega
    have hstep := (mulAddLoop_digitsAppend (by decide) (by decide) (b58Digit c) hv).2 hw
    -- `length + zeroes` only grows up to its final value
    have hlen := Nat.le_length_digits_le 256 _ _ (@le_value 58 (58 * v + b58Digit c) (psz.map b58Digit) (by decide))
    rw [decodeLoop_cons, if_neg (by simp [hspace]), if_neg hvalid]
    rw [show (mapBase58.getD c.toNat (-1)).toNat = b58Digit c from rfl, hstep]
    simp only [ne_eq, not_true_eq_false, if_false]
    rw [if_neg (by omega)]
    exact ih _ (fun c' hc' => hpsz c' (List.mem_cons_of_mem c hc')) hfit hmax

/-- What the decoder's loop returns: the digits it read up to a space or
    the end, and the buffer holding their value. -/
theorem decodeLoop_eq_some {max_ret_len : Int} {zeroes size : Nat} :
    ∀ (psz : List UInt8) (v : Nat), v < 256 ^ size → ∀ {b256 length rest},
      decodeLoop max_ret_len zeroes (Nat.digitsAppend 256 size v) (Nat.digits 256 v).length psz =
        .ok (some (b256, length, rest)) →
      ∃ ds, psz = ds ++ rest ∧ (∀ c ∈ ds, isSpace c = false ∧ mapBase58.getD c.toNat (-1) ≠ -1) ∧
        (∀ c ∈ rest.head?, isSpace c = true) ∧
        b256 = Nat.digitsAppend 256 size (value 58 v (ds.map b58Digit)) ∧
        length = (Nat.digits 256 (value 58 v (ds.map b58Digit))).length := by
  intro psz
  induction psz with
  | nil =>
    intro v _ b256 length rest h
    rw [decodeLoop_nil, Except.ok.injEq, Option.some.injEq, Prod.mk.injEq, Prod.mk.injEq] at h
    obtain ⟨rfl, rfl, rfl⟩ := h
    exact ⟨[], rfl, (fun _ hc => nomatch hc), (fun _ hc => nomatch hc), rfl, rfl⟩
  | cons c psz ih =>
    intro v hv b256 length rest h
    rw [decodeLoop_cons] at h
    by_cases hspace : isSpace c = true
    · -- the digits end at a space
      rw [if_pos hspace, Except.ok.injEq, Option.some.injEq, Prod.mk.injEq, Prod.mk.injEq] at h
      obtain ⟨rfl, rfl, rfl⟩ := h
      exact ⟨[], rfl, (fun _ hc => nomatch hc), (fun _ hc => by cases hc; exact hspace), rfl, rfl⟩
    rw [if_neg hspace] at h
    by_cases hvalid : mapBase58.getD c.toNat (-1) = -1
    · rw [if_pos hvalid] at h
      cases h
    rw [if_neg hvalid, show (mapBase58.getD c.toNat (-1)).toNat = b58Digit c from rfl] at h
    obtain ⟨hcarry, hfit⟩ := @mulAddLoop_digitsAppend 256 58 (by decide) (by decide) _ _ (b58Digit c) hv
    by_cases hw : 58 * v + b58Digit c < 256 ^ size
    · rw [hfit hw] at h
      dsimp only at h
      rw [if_neg fun h0 => h0 rfl] at h
      by_cases hmax : (((Nat.digits 256 (58 * v + b58Digit c)).length + zeroes : Nat) : Int) > max_ret_len
      · rw [if_pos hmax] at h
        cases h
      rw [if_neg hmax] at h
      obtain ⟨ds, rfl, hds, hrest, rfl, rfl⟩ := ih _ hw h
      exact ⟨c :: ds, rfl, fun c' hc' => (List.mem_cons.mp hc').elim (fun h => h ▸ ⟨Bool.eq_false_iff.mpr hspace, hvalid⟩)
        (hds c'), hrest, rfl, rfl⟩
    · -- a carry is left: `assert(carry == 0)` fails
      have hpos : (mulAddLoop 256 58 (Nat.digits 256 v).length (b58Digit c) 0 (Nat.digitsAppend 256 size v)).2.1 ≠ 0 := by
        rw [hcarry]
        exact Nat.pos_iff_ne_zero.mp (Nat.div_pos (Nat.le_of_not_lt hw) (Nat.pow_pos (by decide : 0 < 256)))
      rw [if_pos hpos] at h
      cases h

/-- With room in the buffer for every digit left, `assert(carry == 0)`
    holds at each of them. -/
theorem decodeLoop_ne_error {max_ret_len : Int} {zeroes size : Nat} :
    ∀ (psz : List UInt8) (v : Nat), (v + 1) * 58 ^ psz.length ≤ 256 ^ size → ∀ e,
      decodeLoop max_ret_len zeroes (Nat.digitsAppend 256 size v) (Nat.digits 256 v).length psz ≠ .error e := by
  intro psz
  induction psz with
  | nil => intro v _ e h; cases h
  | cons c psz ih =>
    intro v hroom e h
    rw [decodeLoop_cons] at h
    by_cases hspace : isSpace c = true
    · rw [if_pos hspace] at h
      cases h
    rw [if_neg hspace] at h
    by_cases hvalid : mapBase58.getD c.toNat (-1) = -1
    · rw [if_pos hvalid] at h
      cases h
    rw [if_neg hvalid, show (mapBase58.getD c.toNat (-1)).toNat = b58Digit c from rfl] at h
    have hd := (mapBase58_char c hvalid).1
    -- the room left after this digit covers the digits after it
    have hroom' : (58 * v + b58Digit c + 1) * 58 ^ psz.length ≤ 256 ^ size :=
      calc (58 * v + b58Digit c + 1) * 58 ^ psz.length ≤ (v + 1) * 58 * 58 ^ psz.length :=
            Nat.mul_le_mul_right _ (by omega)
        _ = (v + 1) * 58 ^ (psz.length + 1) := by rw [Nat.pow_succ]; ring
        _ ≤ 256 ^ size := hroom
    have hw : 58 * v + b58Digit c < 256 ^ size :=
      Nat.lt_of_lt_of_le (Nat.lt_succ_self _) (Nat.le_trans (Nat.le_mul_of_pos_right _ (Nat.pow_pos (by decide : 0 < 58))) hroom')
    rw [(mulAddLoop_digitsAppend (by decide) (by decide) (b58Digit c) (by omega)).2 hw] at h
    dsimp only at h
    rw [if_neg fun h0 => h0 rfl] at h
    by_cases hmax : (((Nat.digits 256 (58 * v + b58Digit c)).length + zeroes : Nat) : Int) > max_ret_len
    · rw [if_pos hmax] at h
      cases h
    rw [if_neg hmax] at h
    exact ih _ hroom' e h

-- ============================================================================
-- Leading ones
-- ============================================================================

/-- `skipOnes` counts a run of `'1'`s that stays within `max_ret_len`. -/
theorem skipOnes_replicate {max_ret_len : Int} {rest : List UInt8} (hrest : ∀ c ∈ rest.head?, c ≠ '1'.toUInt8) :
    ∀ (n k : Nat), ((k + n : Nat) : Int) ≤ max_ret_len →
      skipOnes max_ret_len k (List.replicate n '1'.toUInt8 ++ rest) = some (k + n, rest) := by
  intro n
  induction n with
  | zero =>
    intro k _
    cases rest with
    | nil => rfl
    | cons c rest => rw [List.replicate_zero, List.nil_append, skipOnes_cons, if_neg (hrest c rfl), Nat.add_zero]
  | succ n ih =>
    intro k hk
    rw [List.replicate_succ, List.cons_append, skipOnes_cons, if_pos rfl, if_neg (by omega), ih (k + 1) (by omega),
      Nat.add_right_comm, Nat.add_assoc]

/-- What `skipOnes` returns: the run of `'1'`s it counted, and a rest that
    does not start with one. -/
theorem skipOnes_eq_some {max_ret_len : Int} :
    ∀ {psz : List UInt8} {k zeroes : Nat} {rest : List UInt8}, skipOnes max_ret_len k psz = some (zeroes, rest) →
      ∃ n, zeroes = k + n ∧ psz = List.replicate n '1'.toUInt8 ++ rest ∧ ∀ c ∈ rest.head?, c ≠ '1'.toUInt8
  | [], k, zeroes, rest, h => by
    rw [skipOnes_nil, Option.some.injEq, Prod.mk.injEq] at h
    obtain ⟨rfl, rfl⟩ := h
    exact ⟨0, rfl, rfl, fun _ hc => nomatch hc⟩
  | c :: psz, k, zeroes, rest, h => by
    rw [skipOnes_cons] at h
    by_cases hc : c = '1'.toUInt8
    · rw [if_pos hc] at h
      by_cases hmax : ((k + 1 : Nat) : Int) > max_ret_len
      · rw [if_pos hmax] at h
        cases h
      rw [if_neg hmax] at h
      obtain ⟨n, rfl, rfl, hrest⟩ := skipOnes_eq_some h
      exact ⟨n + 1, by omega, by rw [hc, List.replicate_succ, List.cons_append], hrest⟩
    · rw [if_neg hc, Option.some.injEq, Prod.mk.injEq] at h
      obtain ⟨rfl, rfl⟩ := h
      exact ⟨0, rfl, rfl, fun _ hc' => by (cases hc'; exact hc)⟩

-- ============================================================================
-- The codec
-- ============================================================================

/-- A buffer size `n * p / q + 1` that fits an `int` fits it for a shorter
    input too. -/
theorem bufferSize_lt_of_le {m n p q N : Nat} (hmn : m ≤ n) (h : n * p / q + 1 < N) : m * p / q + 1 < N :=
  Nat.lt_of_le_of_lt (Nat.add_le_add_right (Nat.div_le_div_right (Nat.mul_le_mul_right p hmn)) 1) h

/-- The value of `n` bytes fits the encoder's buffer of `n * 138 / 100 + 1`
    base58 digits. -/
theorem encode_value_fits (bytes : List UInt8) :
    value 256 0 (bytes.map UInt8.toNat) < 58 ^ (bytes.length * 138 / 100 + 1) :=
  calc value 256 0 (bytes.map UInt8.toNat) < 256 ^ (bytes.map UInt8.toNat).length :=
        value_lt fun d hd => by
          obtain ⟨x, -, rfl⟩ := List.mem_map.mp hd
          exact x.toNat_lt
    _ ≤ 58 ^ (bytes.length * 138 / 100 + 1) := by
        rw [List.length_map]
        exact encode_buffer_fits _

/-- `EncodeBase58` writes a `1` for each leading zero byte, then the base58
    digits of the rest, most significant first. -/
theorem encodeBase58_eq (input : List UInt8) (hsize : (input.dropWhile (· = 0)).length * 138 / 100 + 1 < 2 ^ 31) :
    encodeBase58 input = .ok (List.replicate (input.takeWhile (· = 0)).length '1'.toUInt8 ++
      (Nat.digits 58 (value 256 0 ((input.dropWhile (· = 0)).map UInt8.toNat))).reverse.map
        fun d => pszBase58.getD d 0) := by
  have hloop := encodeLoop_digitsAppend (input.dropWhile (· = 0)) 0 (encode_value_fits _)
  rw [Nat.digits_zero, List.length_nil, ← replicate_eq_digitsAppend_zero] at hloop
  delta encodeBase58
  dsimp only
  rw [Int32.toInt_ofNat_of_lt hsize, if_neg (by omega), Int.toNat_natCast, hloop]
  dsimp only [bind, Except.bind]
  -- the top digit is not zero, so no zero is skipped
  rw [take_digitsAppend, Lists.dropWhile_of_head fun d hd => decide_eq_false (head?_reverse_digits_ne_zero 58 _ d hd)]
  rfl

/-- The characters of `TrimString`'s default pattern are the spaces. -/
theorem trimPattern_contains (c : UInt8) :
    [' '.toUInt8, 0x0c, '\n'.toUInt8, '\r'.toUInt8, '\t'.toUInt8, 0x0b].contains c = isSpace c := by
  simp only [List.contains_cons, List.contains_nil, Bool.or_false, isSpace, Bool.or_assoc]

/-- The decoder reads a run of `'1'`s and base58 digits not led by a `'1'`
    as zero bytes and the bytes of the digits' value, within
    `max_ret_len`. -/
theorem decodeBase58CStr_ones_digits {max_ret_len : Int} {zeroes : Nat} {ds : List UInt8}
    (hds : ∀ c ∈ ds, isSpace c = false ∧ mapBase58.getD c.toNat (-1) ≠ -1) (hhead : ∀ c ∈ ds.head?, c ≠ '1'.toUInt8)
    (hsize : ds.length * 733 / 1000 + 1 < 2 ^ 31)
    (hmax : (((Nat.digits 256 (value 58 0 (ds.map b58Digit))).length + zeroes : Nat) : Int) ≤ max_ret_len) :
    decodeBase58CStr (List.replicate zeroes '1'.toUInt8 ++ ds) max_ret_len =
      .ok (some (List.replicate zeroes 0 ++ (Nat.digits 256 (value 58 0 (ds.map b58Digit))).reverse.map UInt8.ofNat)) := by
  have hnospace : (List.replicate zeroes '1'.toUInt8 ++ ds).dropWhile isSpace = List.replicate zeroes '1'.toUInt8 ++ ds := by
    apply Lists.dropWhile_of_head
    cases zeroes with
    | zero => exact fun c hc => (hds c (List.mem_of_mem_head? hc)).1
    | succ n => intro c hc; cases hc; decide
  have hskip := @skipOnes_replicate max_ret_len _ hhead zeroes 0 (by omega)
  rw [Nat.zero_add] at hskip
  have hfit : value 58 0 (ds.map b58Digit) < 256 ^ (ds.length * 733 / 1000 + 1) :=
    calc value 58 0 (ds.map b58Digit) < 58 ^ (ds.map b58Digit).length :=
          value_lt fun d hd => by
            obtain ⟨c, hc, rfl⟩ := List.mem_map.mp hd
            exact (mapBase58_char c (hds c hc).2).1
      _ ≤ 256 ^ (ds.length * 733 / 1000 + 1) := by
          rw [List.length_map]
          exact decode_buffer_fits _
  have hloop := decodeLoop_digitsAppend ds 0 hds hfit hmax
  rw [Nat.digits_zero, List.length_nil, ← replicate_eq_digitsAppend_zero] at hloop
  delta decodeBase58CStr
  dsimp only
  rw [hnospace, hskip]
  dsimp only
  rw [Int32.toInt_ofNat_of_lt hsize, if_neg (by omega), Int.toNat_natCast, hloop]
  dsimp only [bind, Except.bind]
  rw [List.dropWhile_nil, if_neg fun h => h rfl, take_digitsAppend]
  rfl

/-- What the decoder accepts: spaces, a run of `'1'`s, base58 digits not
    led by a `'1'`, and spaces; it returns a zero byte for each `'1'` and
    then the bytes of the digits' value. -/
theorem decodeBase58CStr_eq_some {psz : List UInt8} {max_ret_len : Int} {ret : List UInt8}
    (h : decodeBase58CStr psz max_ret_len = .ok (some ret)) :
    ∃ sp zeroes ds sp', psz = sp ++ (List.replicate zeroes '1'.toUInt8 ++ ds) ++ sp' ∧
      (∀ c ∈ sp, isSpace c = true) ∧ (∀ c ∈ sp', isSpace c = true) ∧
      (∀ c ∈ ds, isSpace c = false ∧ mapBase58.getD c.toNat (-1) ≠ -1) ∧ (∀ c ∈ ds.head?, c ≠ '1'.toUInt8) ∧
      ret = List.replicate zeroes 0 ++ (Nat.digits 256 (value 58 0 (ds.map b58Digit))).reverse.map UInt8.ofNat := by
  delta decodeBase58CStr at h
  dsimp only at h
  cases hs : skipOnes max_ret_len 0 (psz.dropWhile isSpace) with
  | none =>
    rw [hs] at h
    cases h
  | some r =>
    obtain ⟨zeroes, p⟩ := r
    rw [hs] at h
    dsimp only at h
    obtain ⟨n, hn, hsplit, hhead⟩ := skipOnes_eq_some hs
    by_cases hsize : (Int32.ofNat (p.length * 733 / 1000 + 1)).toInt < 0
    · rw [if_pos hsize] at h
      cases h
    rw [if_neg hsize] at h
    cases hl : decodeLoop max_ret_len zeroes (List.replicate (Int32.ofNat (p.length * 733 / 1000 + 1)).toInt.toNat 0) 0 p with
    | error e =>
      rw [hl] at h
      cases h
    | ok o =>
      rw [hl] at h
      rcases o with _ | ⟨b256, len, rest⟩
      · cases h
      dsimp only [bind, Except.bind] at h
      by_cases hrest : rest.dropWhile isSpace ≠ []
      · rw [if_pos hrest] at h
        cases h
      rw [if_neg hrest] at h
      have hret := Option.some.inj (Except.ok.inj h)
      -- the loop started from an empty buffer, `0` in base 256
      have hl' : decodeLoop max_ret_len zeroes (Nat.digitsAppend 256 (Int32.ofNat (p.length * 733 / 1000 + 1)).toInt.toNat 0)
          (Nat.digits 256 0).length p = .ok (some (b256, len, rest)) := by
        rw [Nat.digits_zero, List.length_nil, ← replicate_eq_digitsAppend_zero]
        exact hl
      obtain ⟨ds, rfl, hds, -, rfl, rfl⟩ := decodeLoop_eq_some p 0 (Nat.pow_pos (by decide : 0 < 256)) hl'
      have hdshead : ∀ c ∈ ds.head?, c ≠ '1'.toUInt8 := by
        cases ds with
        | nil => exact fun _ hc => nomatch hc
        | cons a ds => exact hhead
      refine ⟨psz.takeWhile isSpace, n, ds, rest, ?_, fun c hc => List.mem_takeWhile_imp hc,
        List.dropWhile_eq_nil_iff.mp (not_not.mp hrest), hds, hdshead, ?_⟩
      · calc psz = psz.takeWhile isSpace ++ psz.dropWhile isSpace := (@List.takeWhile_append_dropWhile _ isSpace psz).symm
          _ = psz.takeWhile isSpace ++ (List.replicate n '1'.toUInt8 ++ ds) ++ rest := by
            rw [hsplit, List.append_assoc, List.append_assoc]
      · rw [← hret, hn, Nat.zero_add, take_digitsAppend]

/-- Within an `int` buffer size the decoder never fails `assert(carry ==
    0)`: its buffer has room for every digit after the leading `'1'`s. -/
theorem decodeBase58CStr_ne_error {psz : List UInt8} {max_ret_len : Int} (hsize : psz.length * 733 / 1000 + 1 < 2 ^ 31)
    (e : String) : decodeBase58CStr psz max_ret_len ≠ .error e := by
  intro h
  delta decodeBase58CStr at h
  dsimp only at h
  cases hs : skipOnes max_ret_len 0 (psz.dropWhile isSpace) with
  | none =>
    rw [hs] at h
    cases h
  | some r =>
    obtain ⟨zeroes, p⟩ := r
    rw [hs] at h
    dsimp only at h
    obtain ⟨n, -, hsplit, -⟩ := skipOnes_eq_some hs
    -- what is left after the spaces and the `'1'`s is no longer than the string
    have hp : p.length ≤ psz.length := by
      have hdrop := List.length_dropWhile_le isSpace psz
      rw [hsplit, List.length_append] at hdrop
      omega
    have hpsize : p.length * 733 / 1000 + 1 < 2 ^ 31 := bufferSize_lt_of_le hp hsize
    rw [Int32.toInt_ofNat_of_lt hpsize] at h
    rw [if_neg (by omega)] at h
    rw [Int.toNat_natCast] at h
    cases hl : decodeLoop max_ret_len zeroes (List.replicate (p.length * 733 / 1000 + 1) 0) 0 p with
    | error e' =>
      have hroom : (0 + 1) * 58 ^ p.length ≤ 256 ^ (p.length * 733 / 1000 + 1) := by
        rw [Nat.zero_add, Nat.one_mul]
        exact decode_buffer_fits _
      have hne := @decodeLoop_ne_error max_ret_len zeroes _ p 0 hroom e'
      rw [Nat.digits_zero, List.length_nil, ← replicate_eq_digitsAppend_zero] at hne
      exact hne hl
    | ok o =>
      rw [hl] at h
      rcases o with _ | ⟨b256, len, rest⟩
      · cases h
      dsimp only [bind, Except.bind] at h
      by_cases hrest : rest.dropWhile isSpace ≠ []
      · rw [if_pos hrest] at h
        cases h
      rw [if_neg hrest] at h
      cases h

-- ============================================================================
-- Round trips
-- ============================================================================

/-- Encoding gives a C string that the decoder, within any `max_ret_len` of
    at least the input's length, reads back as the input. -/
theorem decodeBase58CStr_encodeBase58 {input : List UInt8} {max_ret_len : Int} (hmax : (input.length : Int) ≤ max_ret_len)
    (hsize : input.length * 138 / 100 + 1 < 2 ^ 31) :
    ∃ s, encodeBase58 input = .ok s ∧ validAsCString s = true ∧ decodeBase58CStr s max_ret_len = .ok (some input) := by
  have hsplit := @List.takeWhile_append_dropWhile _ (· = (0 : UInt8)) input
  have hlen := congrArg List.length hsplit
  rw [List.length_append] at hlen
  set zs := input.takeWhile (· = 0)
  set rest := input.dropWhile (· = 0)
  set V := value 256 0 (rest.map UInt8.toNat)
  set ds := (Nat.digits 58 V).reverse.map fun d => pszBase58.getD d 0
  -- the characters written are base58 digits, led by a nonzero one
  have hdlt : ∀ d ∈ (Nat.digits 58 V).reverse, d < 58 :=
    fun d hd => Nat.digits_lt_base (by decide) (List.mem_reverse.mp hd)
  have hds : ∀ c ∈ ds, isSpace c = false ∧ mapBase58.getD c.toNat (-1) ≠ -1 := by
    intro c hc
    obtain ⟨d, hd, rfl⟩ := List.mem_map.mp hc
    refine ⟨(pszBase58_digit d (hdlt d hd)).2.1, ?_⟩
    rw [(pszBase58_digit d (hdlt d hd)).1]
    omega
  refine ⟨_, encodeBase58_eq input (bufferSize_lt_of_le (List.length_dropWhile_le _ input) hsize), ?_, ?_⟩
  · -- no zero byte in the encoding
    refine (validAsCString_iff _).mpr fun c hc => ?_
    rcases List.mem_append.mp hc with hc | hc
    · rw [List.eq_of_mem_replicate hc]
      decide
    · obtain ⟨d, hd, rfl⟩ := List.mem_map.mp hc
      exact (pszBase58_digit d (hdlt d hd)).2.2.1
  have hdshead : ∀ c ∈ ds.head?, c ≠ '1'.toUInt8 := by
    intro c hc
    rw [List.head?_map] at hc
    obtain ⟨d, hd, rfl⟩ := Option.mem_map.mp hc
    exact (pszBase58_digit d (hdlt d (List.mem_of_mem_head? hd))).2.2.2 (head?_reverse_digits_ne_zero 58 V d hd)
  have hdsval : value 58 0 (ds.map b58Digit) = V := by
    have hmap : ds.map b58Digit = (Nat.digits 58 V).reverse := by
      rw [List.map_map]
      conv_rhs => rw [← List.map_id (Nat.digits 58 V).reverse]
      refine List.map_congr_left fun d hd => ?_
      rw [Function.comp_apply, b58Digit, (pszBase58_digit d (hdlt d hd)).1, Int.toNat_natCast, id]
    rw [hmap, value_reverse_digits]
  -- the bytes after the leading zeros are the base-256 digits of their value
  have hbytes : Nat.digits 256 V = (rest.map UInt8.toNat).reverse := by
    refine digits_value (by decide) (fun d hd => ?_) (fun d hd => ?_)
    · obtain ⟨x, -, rfl⟩ := List.mem_map.mp hd
      exact x.toNat_lt
    · rw [List.head?_map] at hd
      obtain ⟨x, hx, rfl⟩ := Option.mem_map.mp hd
      have hx0 := Lists.head?_dropWhile (· = (0 : UInt8)) input x hx
      intro h0
      rw [(@UInt8.toNat_inj x 0).mp (by rw [h0]; rfl)] at hx0
      exact absurd hx0 (by decide)
  have hdslen : ds.length * 733 / 1000 + 1 < 2 ^ 31 := by
    have hds58 : ds.length ≤ rest.length * 138 / 100 + 1 := by
      rw [List.length_map, List.length_reverse]
      exact (Nat.digits_length_le_iff (by decide) V).mpr (encode_value_fits rest)
    have hmono : ds.length * 733 / 1000 + 1 ≤ rest.length * 138 / 100 + 1 := by omega
    exact Nat.lt_of_le_of_lt hmono (bufferSize_lt_of_le (List.length_dropWhile_le _ input) hsize)
  have hmax' : (((Nat.digits 256 (value 58 0 (ds.map b58Digit))).length + zs.length : Nat) : Int) ≤ max_ret_len := by
    rw [hdsval, hbytes, List.length_reverse, List.length_map]
    omega
  rw [decodeBase58CStr_ones_digits hds hdshead hdslen hmax', hdsval, hbytes, List.reverse_reverse, List.map_map]
  have hid : rest.map (UInt8.ofNat ∘ UInt8.toNat) = rest := by
    conv_rhs => rw [← List.map_id rest]
    exact List.map_congr_left fun x _ => UInt8.ofNat_toNat
  rw [hid, ← Lists.takeWhile_eq_replicate input 0, hsplit]

/-- A string the decoder accepts is, trimmed, the encoding of what it
    decodes, as long as that fits the encoder's `int` buffer size. -/
theorem encodeBase58_of_decodeBase58CStr {psz ret : List UInt8} {max_ret_len : Int}
    (h : decodeBase58CStr psz max_ret_len = .ok (some ret)) (hsize : ret.length * 138 / 100 + 1 < 2 ^ 31) :
    encodeBase58 ret = .ok (trimString psz) := by
  obtain ⟨sp, zeroes, ds, sp', rfl, hsp, hsp', hds, hhead, rfl⟩ := decodeBase58CStr_eq_some h
  -- the digits read, most significant first, are those of their value
  have hdigits : Nat.digits 58 (value 58 0 (ds.map b58Digit)) = (ds.map b58Digit).reverse := by
    refine digits_value (by decide) (fun d hd => ?_) (fun d hd => ?_)
    · obtain ⟨c, hc, rfl⟩ := List.mem_map.mp hd
      exact (mapBase58_char c (hds c hc).2).1
    · rw [List.head?_map] at hd
      obtain ⟨c, hc, rfl⟩ := Option.mem_map.mp hd
      exact fun h0 => hhead c hc ((mapBase58_char c (hds c (List.mem_of_mem_head? hc)).2).2.2.2 h0)
  set V := value 58 0 (ds.map b58Digit)
  have hWlt : ∀ d ∈ (Nat.digits 256 V).reverse, d < 256 :=
    fun d hd => Nat.digits_lt_base (by decide) (List.mem_reverse.mp hd)
  -- the bytes returned after the zero bytes, led by a nonzero one
  have hWnat : ((Nat.digits 256 V).reverse.map UInt8.ofNat).map UInt8.toNat = (Nat.digits 256 V).reverse := by
    rw [List.map_map]
    conv_rhs => rw [← List.map_id (Nat.digits 256 V).reverse]
    refine List.map_congr_left fun d hd => ?_
    rw [Function.comp_apply, UInt8.toNat_ofNat', Nat.mod_eq_of_lt (hWlt d hd), id]
  have hWhead : ∀ a ∈ ((Nat.digits 256 V).reverse.map UInt8.ofNat).head?, decide (a = 0) = false := by
    intro a ha
    rw [List.head?_map] at ha
    obtain ⟨d, hd, rfl⟩ := Option.mem_map.mp ha
    refine decide_eq_false fun h0 => head?_reverse_digits_ne_zero 256 V d hd ?_
    have h0' := congrArg UInt8.toNat h0
    rwa [UInt8.toNat_ofNat', Nat.mod_eq_of_lt (hWlt d (List.mem_of_mem_head? hd))] at h0'
  obtain ⟨htake, hdrop⟩ := Lists.takeWhile_dropWhile_append
    (fun a ha => by rw [List.eq_of_mem_replicate ha]; rfl : ∀ a ∈ List.replicate zeroes (0 : UInt8), decide (a = 0) = true)
    hWhead
  have hWsize : ((Nat.digits 256 V).reverse.map UInt8.ofNat).length * 138 / 100 + 1 < 2 ^ 31 :=
    bufferSize_lt_of_le (by rw [List.length_append]; omega) hsize
  rw [encodeBase58_eq _ (by rw [hdrop]; exact hWsize), htake, hdrop, List.length_replicate, hWnat, value_reverse_digits,
    hdigits, List.reverse_reverse, List.map_map]
  -- each digit is written back as the character it was read from
  have hchars : ds.map ((fun d => pszBase58.getD d 0) ∘ b58Digit) = ds := by
    conv_rhs => rw [← List.map_id ds]
    exact List.map_congr_left fun c hc => (mapBase58_char c (hds c hc).2).2.1
  rw [hchars, trimString_eq (fun c hc => by rw [trimPattern_contains]; exact hsp c hc) (fun c hc => ?_)
    (fun c hc => by rw [trimPattern_contains]; exact hsp' c hc)]
  rw [trimPattern_contains]
  rcases List.mem_append.mp hc with hc | hc
  · rw [List.eq_of_mem_replicate hc]
    decide
  · exact (hds c hc).1

/-- `DecodeBase58Check` of `EncodeBase58Check` gives the input back: the
    limit it passes down leaves room for the four checksum bytes. -/
theorem decodeBase58Check_encodeBase58Check (hash : List UInt8 → Vector UInt8 32) {input : List UInt8} {max_ret : Int}
    (hmax : (input.length : Int) ≤ max_ret) (hsize : (input.length + 4) * 138 / 100 + 1 < 2 ^ 31) :
    ∃ s, encodeBase58Check hash input = .ok s ∧ decodeBase58Check hash s max_ret = .ok (some input) := by
  have hlen : (input ++ (hash input).toList.take 4).length = input.length + 4 := by
    rw [List.length_append, List.length_take, Vector.length_toList]
    rfl
  have hlimit : ((input ++ (hash input).toList.take 4).length : Int) ≤
      (if max_ret > 2147483647 - 4 then 2147483647 else max_ret + 4) := by
    rw [hlen]
    rw [show (2 : Nat) ^ 31 = 2147483648 from rfl] at hsize
    split_ifs <;> omega
  obtain ⟨s, henc, hvalid, hdec⟩ := decodeBase58CStr_encodeBase58 hlimit (by rw [hlen]; exact hsize)
  refine ⟨s, henc, ?_⟩
  delta decodeBase58Check decodeBase58CheckCStr
  rw [hvalid, Bool.not_true, if_neg Bool.false_ne_true]
  dsimp only
  rw [hdec]
  dsimp only [bind, Except.bind]
  rw [hlen, if_neg (by omega), Nat.add_sub_cancel, List.take_left' rfl, List.drop_left' rfl, if_neg (not_not.mpr rfl)]
  rfl

/-- `DecodeBase58` of a string with a zero byte in it is `false`; of any
    other, `DecodeBase58` of its C string. -/
theorem decodeBase58_eq (str : List UInt8) (max_ret_len : Int) :
    decodeBase58 str max_ret_len = if validAsCString str then decodeBase58CStr str max_ret_len else .ok none := by
  delta decodeBase58
  cases validAsCString str <;> rfl

/-- The Base58 codec round-trips, never fails its assertions while the
    buffer sizes fit an `int`, and is canonical up to the spaces around a
    string; likewise with the four checksum bytes. -/
theorem base58_roundTrip :
    (∀ (input : List UInt8) (max_ret_len : Int), (input.length : Int) ≤ max_ret_len →
        input.length * 138 / 100 + 1 < 2 ^ 31 →
        ∃ s, encodeBase58 input = .ok s ∧ decodeBase58 s max_ret_len = .ok (some input)) ∧
      (∀ (str : List UInt8) (max_ret_len : Int), str.length * 733 / 1000 + 1 < 2 ^ 31 →
        ∀ e, decodeBase58 str max_ret_len ≠ .error e) ∧
      (∀ (str ret : List UInt8) (max_ret_len : Int), decodeBase58 str max_ret_len = .ok (some ret) →
        ret.length * 138 / 100 + 1 < 2 ^ 31 → encodeBase58 ret = .ok (trimString str)) ∧
      ∀ (hash : List UInt8 → Vector UInt8 32) (input : List UInt8) (max_ret : Int), (input.length : Int) ≤ max_ret →
        (input.length + 4) * 138 / 100 + 1 < 2 ^ 31 →
        ∃ s, encodeBase58Check hash input = .ok s ∧ decodeBase58Check hash s max_ret = .ok (some input) := by
  refine ⟨fun input m hm hs => ?_, fun str m hs e => ?_, fun str ret m h hs => ?_,
    fun hash input m hm hs => decodeBase58Check_encodeBase58Check hash hm hs⟩
  · obtain ⟨s, henc, hvalid, hdec⟩ := decodeBase58CStr_encodeBase58 hm hs
    exact ⟨s, henc, by rw [decodeBase58_eq, if_pos hvalid, hdec]⟩
  · rw [decodeBase58_eq]
    split_ifs
    · exact decodeBase58CStr_ne_error hs e
    · exact fun h => nomatch h
  · rw [decodeBase58_eq] at h
    split_ifs at h
    · exact encodeBase58_of_decodeBase58CStr h hs
    · exact nomatch h

theorem base58_roundTrip_ones :
    (∃ s, encodeBase58 [0, 0, 1] = .ok s ∧ decodeBase58 s 3 = .ok (some [0, 0, 1])) ∧
      (∀ e, decodeBase58 (" 112 ".toList.map Char.toUInt8) 3 ≠ .error e) ∧
      encodeBase58 [0, 0, 1] = .ok (trimString (" 112 ".toList.map Char.toUInt8)) ∧
      ∃ s, encodeBase58Check (fun _ => Vector.replicate 32 0) [0, 0, 1] = .ok s ∧
        decodeBase58Check (fun _ => Vector.replicate 32 0) s 3 = .ok (some [0, 0, 1]) :=
  ⟨base58_roundTrip.1 _ _ (by decide) (by decide),
    base58_roundTrip.2.1 _ _ (by decide),
    base58_roundTrip.2.2.1 _ _ 3 (by decide) (by decide),
    base58_roundTrip.2.2.2 _ _ _ (by decide) (by decide)⟩

/-- Past 1556147570 bytes after the leading zeros, the encoder's buffer size
    `input.size() * 138 / 100 + 1` is `2 ^ 31` and wraps to a negative
    `int`: `EncodeBase58` throws. -/
theorem encodeBase58_size_wraps :
    encodeBase58 (List.replicate 1556147571 1) = .error "cannot create std::vector larger than max_size()" := by
  have hnz : ¬decide ((1 : UInt8) = 0) = true := by decide
  have hwrap : (Int32.ofNat (1556147571 * 138 / 100 + 1)).toInt < 0 := by decide
  delta encodeBase58
  rw [List.takeWhile_replicate, List.dropWhile_replicate, if_neg hnz, if_neg hnz]
  dsimp only
  rw [List.length_replicate, if_pos hwrap]
  rfl

end Revo
