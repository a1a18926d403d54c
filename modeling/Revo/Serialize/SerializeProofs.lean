/-
  Revo.Serialize.SerializeProofs

  VarInt and CompactSize are codecs in the sense of `Codec`: each reader
  reads back what its writer wrote, whatever follows it, and the writer
  writes as many bytes as the `GetSizeOf…` function says; every stream a
  reader accepts starts with the writer's bytes for the value it read.

  The VarInt reader's state is the value read so far.  After the flagged
  digits of `m`, most significant first, it is `m + 1`; `varIntPrefix`
  names these bytes for each value.  The two halves of the argument are
  `readVarIntLoop_prefix` (reading the prefix of `n` lands on `n`) and
  `readVarIntLoop_canonical` (whatever is read from `n` on completes the
  prefix of `n` to an encoding), and both rest on `varIntTmp_reverse`:
  the digits of `v` are the prefix of `v / 128` and one more digit.
-/

import Revo.Lib.Bits
import Revo.Lib.Codec
import Revo.Serialize.Serialize

namespace Revo

/-! ## VarInt digits -/

theorem shiftRight_seven (n : Nat) : n >>> 7 = n / 128 := by
  rw [Nat.shiftRight_eq_div_pow]

theorem varIntDigit_toNat (n len : Nat) :
    (varIntDigit n len).toNat = n % 128 + if len ≠ 0 then 128 else 0 := by
  have hlow : n &&& 0x7F = n % 128 := Nat.and_two_pow_sub_one_eq_mod n 7
  have h80 : n % 128 ||| 0x80 = n % 128 + 128 :=
    Bits.or_two_pow_of_lt (show n % 128 < 2 ^ 7 from Nat.mod_lt n (by decide))
  unfold varIntDigit
  by_cases hl : len ≠ 0
  · rw [if_pos hl, hlow, h80, UInt8.toNat_ofNat']
    omega
  · rw [if_neg hl, hlow, Nat.or_zero, UInt8.toNat_ofNat']
    omega

theorem varIntDigit_succ (n len : Nat) : varIntDigit n (len + 1) = varIntDigit n 1 := by
  simp only [varIntDigit, ne_eq, Nat.add_one_ne_zero, not_false_eq_true, if_true]

/-- A byte is the digit of any value that ends in the byte's low seven
    bits, at a step that flags it exactly when its top bit is set. -/
theorem varIntDigit_of_byte (ch : UInt8) (n len : Nat) (hflag : len ≠ 0 ↔ 128 ≤ ch.toNat) :
    varIntDigit (n * 128 + ch.toNat % 128) len = ch := by
  apply UInt8.toNat_inj.mp
  have hch := ch.toNat_lt
  rw [varIntDigit_toNat]
  by_cases hl : len ≠ 0
  · have htop := hflag.mp hl
    rw [if_pos hl]
    omega
  · have htop := mt hflag.mpr hl
    rw [if_neg hl]
    omega

theorem varIntTmp_of_le {n : Nat} (len : Nat) (h : n ≤ 0x7F) : varIntTmp n len = [varIntDigit n len] := by
  rw [varIntTmp, if_pos h]

theorem varIntTmp_of_gt {n : Nat} (len : Nat) (h : 0x7F < n) :
    varIntTmp n len = varIntDigit n len :: varIntTmp (n / 128 - 1) (len + 1) := by
  rw [varIntTmp, if_neg (Nat.not_le.mpr h), shiftRight_seven]

/-- Only the first step writes an unflagged digit. -/
theorem varIntTmp_succ (n len : Nat) : varIntTmp n (len + 1) = varIntTmp n 1 := by
  induction n using Nat.strongRecOn generalizing len with
  | ind n ih =>
    by_cases h : n ≤ 0x7F
    · rw [varIntTmp_of_le _ h, varIntTmp_of_le _ h, varIntDigit_succ]
    · have hgt : 0x7F < n := Nat.not_le.mp h
      rw [varIntTmp_of_gt _ hgt, varIntTmp_of_gt _ hgt, varIntDigit_succ,
        ih _ (by omega) (len + 1), ih _ (by omega) 1]

/-- `WriteVarInt` never writes past `tmp`, which has room for
    `(sizeof(n) * 8 + 6) / 7` digits. -/
theorem varIntTmp_length_le {w n : Nat} (len : Nat) (hw : 0 < w) (hn : n < 2 ^ w) :
    (varIntTmp n len).length ≤ (w + 6) / 7 := by
  induction n using Nat.strongRecOn generalizing w len with
  | ind n ih =>
    by_cases h : n ≤ 0x7F
    · rw [varIntTmp_of_le _ h, List.length_singleton]
      omega
    · have hgt : 0x7F < n := Nat.not_le.mp h
      -- a value above `0x7F` needs at least eight bits, and one digit takes seven of them
      have hw8 : 8 ≤ w := by
        by_contra hlt
        have : 2 ^ w ≤ 2 ^ 7 := Nat.pow_le_pow_right (by decide) (by omega)
        omega
      have hsplit : 2 ^ w = 2 ^ (w - 7) * 128 := by
        rw [show (128 : Nat) = 2 ^ 7 from rfl, ← Nat.pow_add, Nat.sub_add_cancel (by omega)]
      have hrest := ih (n / 128 - 1) (by omega) (len + 1) (show 0 < w - 7 by omega) (by omega)
      rw [varIntTmp_of_gt _ hgt, List.length_cons]
      omega

/-- The bytes the VarInt reader has read when the value it holds is `n`:
    none for `0`, and for `m + 1` the flagged digits of `m`, most
    significant first. -/
def varIntPrefix : Nat → List UInt8
  | 0 => []
  | m + 1 => (varIntTmp m 1).reverse

/-- The digits of `v` from step `len` on, most significant first: the
    prefix of `v / 128`, then the last digit of `v`. -/
theorem varIntTmp_reverse (v len : Nat) :
    (varIntTmp v len).reverse = varIntPrefix (v / 128) ++ [varIntDigit v len] := by
  by_cases h : v ≤ 0x7F
  · have h0 : v / 128 = 0 := by omega
    rw [varIntTmp_of_le _ h, h0]
    rfl
  · obtain ⟨m, hm⟩ : ∃ m, v / 128 = m + 1 := ⟨v / 128 - 1, by omega⟩
    rw [varIntTmp_of_gt _ (Nat.not_le.mp h), List.reverse_cons, varIntTmp_succ, hm,
      Nat.add_sub_cancel, varIntPrefix]

theorem writeVarInt_eq (n : Nat) : writeVarInt n = varIntPrefix (n / 128) ++ [varIntDigit n 0] :=
  varIntTmp_reverse n 0

theorem varIntPrefix_succ (m : Nat) :
    varIntPrefix (m + 1) = varIntPrefix (m / 128) ++ [varIntDigit m 1] :=
  varIntTmp_reverse m 1

/-! ## The VarInt reader -/

/-- The guard of `ReadVarInt` passes exactly when one more digit keeps the
    value within `w` bits. -/
theorem readVarInt_guard_iff (w n : Nat) : ¬n > (2 ^ w - 1) >>> 7 ↔ n * 128 < 2 ^ w := by
  have hpos : 0 < 2 ^ w := Nat.two_pow_pos w
  rw [shiftRight_seven]
  omega

theorem shiftIn_eq (n : Nat) (ch : UInt8) :
    n <<< 7 ||| (ch &&& 0x7F).toNat = n * 128 + ch.toNat % 128 := by
  have hc : (ch &&& 0x7F).toNat = ch.toNat % 2 ^ 7 := by
    rw [UInt8.toNat_and]
    exact Nat.and_two_pow_sub_one_eq_mod _ 7
  rw [hc, ← Nat.shiftLeft_add_eq_or_of_lt (Nat.mod_lt _ (by decide)), Nat.shiftLeft_eq]

/-- One byte read from the value `n` when the guard passes: the value
    becomes `n * 128` plus the byte's low seven bits, and the top bit says
    whether to read on. -/
theorem readVarIntLoop_cons (w n : Nat) (ch : UInt8) (bs : List UInt8) (hn : n * 128 < 2 ^ w) :
    readVarIntLoop w n (ch :: bs) =
      if 128 ≤ ch.toNat then
        if (n * 128 + ch.toNat % 128) % 2 ^ w = 2 ^ w - 1 then .error "ReadVarInt(): size too large"
        else readVarIntLoop w ((n * 128 + ch.toNat % 128) % 2 ^ w + 1) bs
      else .ok ((n * 128 + ch.toNat % 128) % 2 ^ w, bs) := by
  rw [readVarIntLoop, if_neg ((readVarInt_guard_iff w n).mpr hn), shiftIn_eq]
  dsimp only
  by_cases hf : 128 ≤ ch.toNat
  · have hne : ch &&& 0x80 ≠ 0 := fun h => Nat.not_lt.mpr hf ((CScriptNum.and_0x80_eq_zero_iff ch).mp h)
    rw [if_pos hne, if_pos hf]
  · have heq : ¬ch &&& 0x80 ≠ 0 := not_not.mpr ((CScriptNum.and_0x80_eq_zero_iff ch).mpr (Nat.not_le.mp hf))
    rw [if_neg heq, if_neg hf]

/-- Reading the digit of `v` at step `len` from the value `v / 128`: a
    last digit gives `v`; a flagged one reads on from `v + 1`, unless `v` is
    the largest value of `w` bits. -/
theorem readVarIntLoop_digit (w v len : Nat) (hv : v < 2 ^ w) (bs : List UInt8) :
    readVarIntLoop w (v / 128) (varIntDigit v len :: bs) =
      if len ≠ 0 then
        if v = 2 ^ w - 1 then .error "ReadVarInt(): size too large" else readVarIntLoop w (v + 1) bs
      else .ok (v, bs) := by
  have hd := varIntDigit_toNat v len
  have hlow : (varIntDigit v len).toNat % 128 = v % 128 := by
    rw [hd]
    split <;> omega
  have hval : (v / 128 * 128 + (varIntDigit v len).toNat % 128) % 2 ^ w = v := by
    rw [hlow, show v / 128 * 128 + v % 128 = v by omega, Nat.mod_eq_of_lt hv]
  rw [readVarIntLoop_cons w _ _ _ (by omega), hval]
  by_cases hl : len ≠ 0
  · rw [if_pos hl, if_pos (by rw [hd, if_pos hl]; omega)]
  · rw [if_neg hl, if_neg (by rw [hd, if_neg hl]; omega)]

/-- Reading the prefix of `n` from the value `0` lands on the value `n`.
    The induction is on `n`: the prefix of `m + 1` is the prefix of
    `m / 128` and the flagged digit of `m`. -/
theorem readVarIntLoop_prefix (w : Nat) {n : Nat} (hn : n < 2 ^ w) (rest : List UInt8) :
    readVarIntLoop w 0 (varIntPrefix n ++ rest) = readVarIntLoop w n rest := by
  induction n using Nat.strongRecOn generalizing rest with
  | ind n ih =>
    cases n with
    | zero => rfl
    | succ m =>
      rw [varIntPrefix_succ, List.append_assoc, List.singleton_append,
        ih (m / 128) (by omega) (by omega), readVarIntLoop_digit w m 1 (by omega),
        if_pos Nat.one_ne_zero, if_neg (by omega)]

theorem readVarInt_writeVarInt (w : Nat) {n : Nat} (hn : n < 2 ^ w) (rest : List UInt8) :
    readVarInt w (writeVarInt n ++ rest) = .ok (n, rest) := by
  rw [readVarInt, writeVarInt_eq, List.append_assoc, List.singleton_append,
    readVarIntLoop_prefix w (by omega), readVarIntLoop_digit w n 0 hn, if_neg (fun h => h rfl)]

/-- A value below `0x80` is one byte, the value itself. -/
theorem writeVarInt_of_le {n : Nat} (h : n ≤ 0x7F) : writeVarInt n = [UInt8.ofNat n] := by
  have hlow : n &&& 0x7F = n := Nat.and_two_pow_sub_one_of_lt_two_pow (show n < 2 ^ 7 by omega)
  rw [writeVarInt, varIntTmp_of_le 0 h, List.reverse_singleton, varIntDigit, if_neg (fun h => h rfl),
    hlow, Nat.or_zero]

/-- A byte below `0x80` reads as the VarInt of itself. -/
theorem readVarInt_byte {w : Nat} (hw : 7 ≤ w) {c : UInt8} (hc : c.toNat ≤ 0x7F) (rest : List UInt8) :
    readVarInt w (c :: rest) = .ok (c.toNat, rest) := by
  have hpow : 2 ^ 7 ≤ 2 ^ w := Nat.pow_le_pow_right (by decide) hw
  have h := readVarInt_writeVarInt w (show c.toNat < 2 ^ w by omega) rest
  rwa [writeVarInt_of_le hc, UInt8.ofNat_toNat, List.singleton_append] at h

/-- What the reader accepts from the value `n` on completes the prefix of
    `n` to the encoding of its result, which fits in `w` bits.  The
    induction is on the stream; each byte read is the digit of the new
    value, so the prefix grows by exactly that byte. -/
theorem readVarIntLoop_canonical {w : Nat} (hw : 7 ≤ w) {bs rest : List UInt8} {n x : Nat}
    (h : readVarIntLoop w n bs = .ok (x, rest)) :
    varIntPrefix n ++ bs = writeVarInt x ++ rest ∧ x < 2 ^ w := by
  induction bs generalizing n with
  | nil => cases h
  | cons ch bs ih =>
    by_cases hn : n * 128 < 2 ^ w
    swap
    · have hg : n > (2 ^ w - 1) >>> 7 := by
        by_contra hg
        exact hn ((readVarInt_guard_iff w n).mp hg)
      rw [readVarIntLoop, if_pos hg] at h
      cases h
    -- `2 ^ w` is a multiple of `128`, so no digit overflows
    have h128 : 128 ∣ 2 ^ w := by
      rw [show (128 : Nat) = 2 ^ 7 from rfl]
      exact Nat.pow_dvd_pow 2 hw
    have hv : n * 128 + ch.toNat % 128 < 2 ^ w := by
      obtain ⟨c, hc⟩ := h128
      omega
    have hdiv : (n * 128 + ch.toNat % 128) / 128 = n := by omega
    rw [readVarIntLoop_cons w n ch bs hn, Nat.mod_eq_of_lt hv] at h
    by_cases hf : 128 ≤ ch.toNat
    · rw [if_pos hf] at h
      by_cases hmax : n * 128 + ch.toNat % 128 = 2 ^ w - 1
      · rw [if_pos hmax] at h
        cases h
      rw [if_neg hmax] at h
      have hpre : varIntPrefix (n * 128 + ch.toNat % 128 + 1) = varIntPrefix n ++ [ch] := by
        rw [varIntPrefix_succ, hdiv, varIntDigit_of_byte ch n 1 (iff_of_true Nat.one_ne_zero hf)]
      obtain ⟨heq, hx⟩ := ih h
      rw [hpre, List.append_assoc, List.singleton_append] at heq
      exact ⟨heq, hx⟩
    · rw [if_neg hf] at h
      cases h
      have hwrite : writeVarInt (n * 128 + ch.toNat % 128) = varIntPrefix n ++ [ch] := by
        rw [writeVarInt_eq, hdiv, varIntDigit_of_byte ch n 0 (iff_of_false (fun h => h rfl) hf)]
      rw [hwrite, List.append_assoc, List.singleton_append]
      exact ⟨rfl, hv⟩

theorem getSizeOfVarIntLoop_eq (nRet n len : Nat) :
    getSizeOfVarIntLoop nRet n = nRet + (varIntTmp n len).length := by
  induction n using Nat.strongRecOn generalizing nRet len with
  | ind n ih =>
    rw [getSizeOfVarIntLoop]
    by_cases h : n ≤ 0x7F
    · rw [if_pos h, varIntTmp_of_le _ h, List.length_singleton]
    · rw [if_neg h, varIntTmp_of_gt _ (Nat.not_le.mp h), shiftRight_seven, List.length_cons,
        ih _ (by omega) (nRet + 1) (len + 1)]
      omega

theorem writeVarInt_length (n : Nat) : (writeVarInt n).length = getSizeOfVarInt n := by
  rw [writeVarInt, List.length_reverse, getSizeOfVarInt, getSizeOfVarIntLoop_eq 0 n 0, Nat.zero_add]

/-! ## Streams -/

theorem streamRead_append {k : Nat} (bs rest : List UInt8) (h : bs.length = k) :
    streamRead k (bs ++ rest) = .ok (bs, rest) := by
  rw [streamRead, if_neg (by rw [List.length_append]; omega), List.take_left' h, List.drop_left' h]

/-! ## CompactSize -/

theorem serReadData_append {k : Nat} (bs rest : List UInt8) (h : bs.length = k) :
    serReadData k (bs ++ rest) = .ok (leNat bs, rest) := by
  rw [serReadData, if_neg (by rw [List.length_append]; omega), List.take_left' h, List.drop_left' h]

theorem serReadData_eq_ok {k x : Nat} {bs rest : List UInt8} (h : serReadData k bs = .ok (x, rest)) :
    ∃ pre, pre.length = k ∧ x = leNat pre ∧ bs = pre ++ rest := by
  unfold serReadData at h
  by_cases hk : bs.length < k
  · rw [if_pos hk] at h
    cases h
  · rw [if_neg hk] at h
    cases h
    exact ⟨bs.take k, List.length_take_of_le (by omega), rfl, (List.take_append_drop k bs).symm⟩

/-- A marker branch reads back a value of its width that is not below its
    bound. -/
theorem readCompactSizeWide_leBytes {k lower n : Nat} (hlo : lower ≤ n) (hhi : n < 256 ^ k)
    (rest : List UInt8) : readCompactSizeWide k lower (leBytes n k ++ rest) = .ok (n, rest) := by
  rw [readCompactSizeWide, serReadData_append _ _ (leBytes_length n k), leNat_leBytes,
    Nat.mod_eq_of_lt hhi]
  dsimp only [Except.bind]
  rw [if_neg (Nat.not_lt.mpr hlo)]

/-- What a marker branch accepts is a value of its width, not below its
    bound, written as its bytes. -/
theorem readCompactSizeWide_canonical {k lower x : Nat} {bs rest : List UInt8}
    (h : readCompactSizeWide k lower bs = .ok (x, rest)) :
    lower ≤ x ∧ x < 256 ^ k ∧ bs = leBytes x k ++ rest := by
  unfold readCompactSizeWide at h
  cases hr : serReadData k bs with
  | error e =>
    rw [hr] at h
    cases h
  | ok r =>
    obtain ⟨x', rest'⟩ := r
    rw [hr] at h
    dsimp only [Except.bind] at h
    by_cases hlo : x' < lower
    · rw [if_pos hlo] at h
      cases h
    rw [if_neg hlo] at h
    cases h
    obtain ⟨pre, hlen, hx, hbs⟩ := serReadData_eq_ok hr
    have hlt := leNat_lt pre
    rw [hlen] at hlt
    refine ⟨Nat.not_lt.mp hlo, hx ▸ hlt, ?_⟩
    rw [hbs, hx, ← hlen, leBytes_leNat]

/-- The range check passes a value read within `MAX_SIZE`, or any value
    when it is off. -/
theorem readCompactSize_of_value {rangeCheck : Bool} {chSize : UInt8} {bs rest : List UInt8} {n : Nat}
    (h : readCompactSizeValue chSize bs = .ok (n, rest)) (hrange : rangeCheck = true → n ≤ MAX_SIZE) :
    readCompactSize rangeCheck (chSize :: bs) = .ok (n, rest) := by
  have hpass : ¬(rangeCheck && decide (n > MAX_SIZE)) = true := by
    cases rangeCheck with
    | false => simp
    | true => simpa using hrange rfl
  rw [readCompactSize, h]
  dsimp only [Except.bind]
  rw [if_neg hpass]

theorem leBytes_one (n : Nat) : leBytes n 1 = [UInt8.ofNat (n % 256)] := rfl

/-- Each value in range is read back from its CompactSize bytes. -/
theorem readCompactSize_writeCompactSize (rangeCheck : Bool) {n : Nat} (hn : n < 2 ^ 64)
    (hrange : rangeCheck = true → n ≤ MAX_SIZE) (rest : List UInt8) :
    readCompactSize rangeCheck (writeCompactSize n ++ rest) = .ok (n, rest) := by
  unfold writeCompactSize
  by_cases h1 : n < 253
  · -- one byte, the value itself
    have hb : (UInt8.ofNat (n % 256)).toNat = n := by
      rw [UInt8.toNat_ofNat']
      omega
    have hlt : UInt8.ofNat (n % 256) < 253 := UInt8.lt_iff_toNat_lt.mpr (by rw [hb]; exact h1)
    rw [if_pos h1, leBytes_one, List.singleton_append]
    apply readCompactSize_of_value _ hrange
    rw [readCompactSizeValue, if_pos hlt, hb]
  rw [if_neg h1]
  by_cases h2 : n ≤ 0xffff
  · rw [if_pos h2, List.cons_append]
    apply readCompactSize_of_value _ hrange
    rw [readCompactSizeValue, if_neg (by decide), if_pos rfl]
    exact readCompactSizeWide_leBytes (by omega) (by omega) rest
  rw [if_neg h2]
  by_cases h3 : n ≤ 0xffffffff
  · rw [if_pos h3, List.cons_append]
    apply readCompactSize_of_value _ hrange
    rw [readCompactSizeValue, if_neg (by decide), if_neg (by decide), if_pos rfl]
    exact readCompactSizeWide_leBytes (by omega) (by omega) rest
  · rw [if_neg h3, List.cons_append]
    apply readCompactSize_of_value _ hrange
    rw [readCompactSizeValue, if_neg (by decide), if_neg (by decide), if_neg (by decide)]
    exact readCompactSizeWide_leBytes (by omega) (by omega) rest

/-- What `ReadCompactSize` reads after its first byte is a `uint64_t`
    whose CompactSize bytes are the bytes read: each marker's bound is
    where the writer starts to use that marker. -/
theorem readCompactSizeValue_canonical {chSize : UInt8} {bs rest : List UInt8} {x : Nat}
    (h : readCompactSizeValue chSize bs = .ok (x, rest)) :
    chSize :: bs = writeCompactSize x ++ rest ∧ x < 2 ^ 64 := by
  unfold readCompactSizeValue at h
  have hc := chSize.toNat_lt
  by_cases h1 : chSize < 253
  · rw [if_pos h1] at h
    cases h
    have h1' : chSize.toNat < 253 := UInt8.lt_iff_toNat_lt.mp h1
    refine ⟨?_, by omega⟩
    rw [writeCompactSize, if_pos h1', leBytes_one, List.singleton_append, Nat.mod_eq_of_lt hc,
      UInt8.ofNat_toNat]
  rw [if_neg h1] at h
  by_cases h2 : chSize = 253
  · rw [if_pos h2] at h
    obtain ⟨hlo, hhi, hbs⟩ := readCompactSizeWide_canonical h
    refine ⟨?_, by omega⟩
    rw [writeCompactSize, if_neg (by omega), if_pos (by omega), h2, hbs, List.cons_append]
  rw [if_neg h2] at h
  by_cases h3 : chSize = 254
  · rw [if_pos h3] at h
    obtain ⟨hlo, hhi, hbs⟩ := readCompactSizeWide_canonical h
    refine ⟨?_, by omega⟩
    rw [writeCompactSize, if_neg (by omega), if_neg (by omega), if_pos (by omega), h3, hbs,
      List.cons_append]
  · rw [if_neg h3] at h
    obtain ⟨hlo, hhi, hbs⟩ := readCompactSizeWide_canonical h
    -- the one byte left is `255`
    have h4 : chSize = 255 := by
      have h1' : ¬chSize.toNat < 253 := fun hlt => h1 (UInt8.lt_iff_toNat_lt.mpr hlt)
      have h2' : chSize.toNat ≠ 253 := fun he => h2 (UInt8.toNat_inj.mp he)
      have h3' : chSize.toNat ≠ 254 := fun he => h3 (UInt8.toNat_inj.mp he)
      exact UInt8.toNat_inj.mp (show chSize.toNat = 255 by omega)
    refine ⟨?_, by omega⟩
    rw [writeCompactSize, if_neg (by omega), if_neg (by omega), if_neg (by omega), h4, hbs,
      List.cons_append]

theorem readCompactSize_canonical {rangeCheck : Bool} {bs rest : List UInt8} {x : Nat}
    (h : readCompactSize rangeCheck bs = .ok (x, rest)) :
    bs = writeCompactSize x ++ rest ∧ x < 2 ^ 64 ∧ (rangeCheck = true → x ≤ MAX_SIZE) := by
  cases bs with
  | nil => cases h
  | cons chSize bs =>
    rw [readCompactSize] at h
    cases hv : readCompactSizeValue chSize bs with
    | error e =>
      rw [hv] at h
      cases h
    | ok r =>
      obtain ⟨x', rest'⟩ := r
      rw [hv] at h
      dsimp only [Except.bind] at h
      by_cases hbig : (rangeCheck && decide (x' > MAX_SIZE)) = true
      · rw [if_pos hbig] at h
        cases h
      rw [if_neg hbig] at h
      cases h
      obtain ⟨hbs, hlt⟩ := readCompactSizeValue_canonical hv
      refine ⟨hbs, hlt, fun hrc => ?_⟩
      rw [hrc, Bool.true_and, decide_eq_true_iff] at hbig
      exact Nat.not_lt.mp hbig

/-- With the range check on, a value above `MAX_SIZE` that the unchecked
    read accepts is refused. -/
theorem readCompactSize_range {bs rest : List UInt8} {n : Nat} (h : readCompactSize false bs = .ok (n, rest))
    (hn : MAX_SIZE < n) : readCompactSize true bs = .error "ReadCompactSize(): size too large" := by
  cases bs with
  | nil => cases h
  | cons chSize bs =>
    rw [readCompactSize] at h ⊢
    cases hv : readCompactSizeValue chSize bs with
    | error e =>
      rw [hv] at h
      cases h
    | ok r =>
      rw [hv] at h
      dsimp only [Except.bind] at h ⊢
      rw [Bool.false_and, if_neg Bool.false_ne_true] at h
      cases h
      rw [if_pos (by simpa using hn)]

theorem writeCompactSize_length (n : Nat) : (writeCompactSize n).length = getSizeOfCompactSize n := by
  unfold writeCompactSize getSizeOfCompactSize
  split_ifs <;> simp only [List.length_cons, leBytes_length]

/-! ## The codec laws -/

/-- VarInt, read into an unsigned type of `w ≥ 7` bits, and CompactSize
    are bijective codecs: the readers read back every value in range from
    the writers' bytes, which are as many as `GetSizeOfVarInt` and
    `GetSizeOfCompactSize` say; every stream a reader accepts starts with
    the writer's bytes for the value read, so each value has one encoding;
    and what `ReadVarInt` accepts fits in the type. -/
theorem varInt_compactSize_codecs (w : Nat) (hw : 7 ≤ w) :
    Codec.RoundTrip (· < 2 ^ w) writeVarInt (readVarInt w) ∧
    (∀ n, (writeVarInt n).length = getSizeOfVarInt n) ∧
    Codec.Canonical writeVarInt (readVarInt w) ∧
    (∀ bs x rest, readVarInt w bs = .ok (x, rest) → x < 2 ^ w) ∧
    (∀ rangeCheck, Codec.RoundTrip (fun n => n < 2 ^ 64 ∧ (rangeCheck = true → n ≤ MAX_SIZE))
      writeCompactSize (readCompactSize rangeCheck)) ∧
    (∀ n, (writeCompactSize n).length = getSizeOfCompactSize n) ∧
    ∀ rangeCheck, Codec.Canonical writeCompactSize (readCompactSize rangeCheck) := by
  refine ⟨fun n hn rest => readVarInt_writeVarInt w hn rest, writeVarInt_length,
    fun bs x rest h => (readVarIntLoop_canonical hw h).1,
    fun bs x rest h => (readVarIntLoop_canonical hw h).2,
    fun rangeCheck n hn rest => readCompactSize_writeCompactSize rangeCheck hn.1 hn.2 rest,
    writeCompactSize_length, fun rangeCheck bs x rest h => (readCompactSize_canonical h).1⟩

theorem varInt_compactSize_codecs_uint64 : 7 ≤ 64 ∧
    (Codec.RoundTrip (· < 2 ^ 64) writeVarInt (readVarInt 64) ∧
    (∀ n, (writeVarInt n).length = getSizeOfVarInt n) ∧
    Codec.Canonical writeVarInt (readVarInt 64) ∧
    (∀ bs x rest, readVarInt 64 bs = .ok (x, rest) → x < 2 ^ 64) ∧
    (∀ rangeCheck, Codec.RoundTrip (fun n => n < 2 ^ 64 ∧ (rangeCheck = true → n ≤ MAX_SIZE))
      writeCompactSize (readCompactSize rangeCheck)) ∧
    (∀ n, (writeCompactSize n).length = getSizeOfCompactSize n) ∧
    ∀ rangeCheck, Codec.Canonical writeCompactSize (readCompactSize rangeCheck)) :=
  ⟨by decide, varInt_compactSize_codecs 64 (by decide)⟩

end Revo
