/-
  Revo.Serialize.BitStreamProofs

  The bit streams against lists of bits (`Revo.Lib.BitList`).  A writer
  holds the bits of its bytes and then the high `m_offset` bits of its
  buffer (`BitStreamWriter.bits`), the rest of the buffer zero
  (`BitStreamWriter.Clean`); `Write(data, nbits)` appends the `nbits` low
  bits of `data` (`write_bits`) and `Flush()` pads the last byte with zeros
  (`flush_bits`).  A reader holds the low `8 - m_offset` bits of its buffer
  and then the bits of the bytes left (`BitStreamReader.bits`);
  `Read(nbits)` takes `nbits` of them off the front (`read_bits`).

  On top of these, `GolombRiceEncode` appends `riceBits P x` and
  `GolombRiceDecode` reads `x` back from it (`golombRiceDecode_riceBits`).
-/

import Revo.Serialize.BitStream
import Revo.Lib.BitList
import Revo.Lib.Bits

namespace Revo

open BitList

namespace BitStreamWriter

/-- The bits written so far. -/
def bits (w : BitStreamWriter) : List Bool :=
  ofBytes w.m_ostream ++ toBits (w.m_buffer.toNat / 2 ^ (8 - w.m_offset)) w.m_offset

/-- The bits of the buffer not yet written are zero. -/
def Clean (w : BitStreamWriter) : Prop := w.m_buffer.toNat % 2 ^ (8 - w.m_offset) = 0

theorem clean_new (ostream : List UInt8) : Clean (new ostream) := rfl

theorem bits_mk (os : List UInt8) (B : UInt8) (o : Nat) (h : o < 8) :
    (⟨os, B, o, h⟩ : BitStreamWriter).bits = ofBytes os ++ toBits (B.toNat / 2 ^ (8 - o)) o := rfl

/-- A byte handed to the stream. -/
theorem bits_full (os : List UInt8) (B : UInt8) (h : 0 < 8) :
    (⟨os ++ [B], 0, 0, h⟩ : BitStreamWriter).bits = ofBytes os ++ toBits B.toNat 8 := by
  rw [bits_mk, ofBytes_append, ofBytes_cons, ofBytes_nil, List.append_nil]
  show _ ++ toBits B.toNat 8 ++ [] = _
  rw [List.append_nil]

theorem bits_new (ostream : List UInt8) : (new ostream).bits = ofBytes ostream := by
  rw [bits, new, List.append_right_eq_self]
  rfl

/-- The top `8 - o - b` bits of a byte after the chunk of a `Write`: the
    shifts of the source keep the `b` bits below the `o` written ones. -/
theorem chunk_div (D n o : Nat) (hn1 : 1 ≤ n) (hn : n ≤ 64) (ho : o < 8) :
    D * 2 ^ (64 - n) / 2 ^ (56 + o) = D / 2 ^ (n - min (8 - o) n) * 2 ^ (8 - o - min (8 - o) n) := by
  by_cases hb : 8 - o ≤ n
  · -- a full rest of the byte: the top `8 - o` bits of `D`
    rw [Nat.min_eq_left hb, show 8 - o - (8 - o) = 0 by omega, Nat.pow_zero, Nat.mul_one,
      show 56 + o = (n - (8 - o)) + (64 - n) by omega, Nat.pow_add, Nat.mul_div_mul_right _ _ (Nat.two_pow_pos _)]
  · -- all of `D`, shifted up to the written bits
    rw [Nat.min_eq_right (by omega), Nat.sub_self, Nat.pow_zero, Nat.div_one,
      show 64 - n = (8 - o - n) + (56 + o) by omega, Nat.pow_add, ← Nat.mul_assoc,
      Nat.mul_div_cancel _ (Nat.two_pow_pos _)]

theorem chunk_toNat (data : UInt64) {n o : Nat} (hn1 : 1 ≤ n) (hn : n ≤ 64) (ho : o < 8) :
    ((data <<< UInt64.ofNat (64 - n)) >>> UInt64.ofNat (64 - 8 + o)).toUInt8.toNat =
      data.toNat % 2 ^ n / 2 ^ (n - min (8 - o) n) * 2 ^ (8 - o - min (8 - o) n) := by
  have hs1 : (UInt64.ofNat (64 - n)).toNat % 64 = 64 - n := by
    rw [UInt64.toNat_ofNat_of_lt' (by show 64 - n < 18446744073709551616; omega)]
    omega
  have hs2 : (UInt64.ofNat (64 - 8 + o)).toNat % 64 = 56 + o := by
    rw [UInt64.toNat_ofNat_of_lt' (by show 64 - 8 + o < 18446744073709551616; omega)]
    omega
  have h64 : (2 : Nat) ^ 64 = 2 ^ n * 2 ^ (64 - n) := by
    rw [← Nat.pow_add, Nat.add_sub_cancel' hn]
  have hshl : (data <<< UInt64.ofNat (64 - n)).toNat = data.toNat % 2 ^ n * 2 ^ (64 - n) := by
    rw [UInt64.toNat_shiftLeft, hs1, Nat.shiftLeft_eq, h64, Nat.mul_mod_mul_right]
  have hval := chunk_div (data.toNat % 2 ^ n) n o hn1 hn ho
  -- the chunk is below `2 ^ (8 - o)`, so the cast to `uint8_t` keeps it
  have hlt : data.toNat % 2 ^ n / 2 ^ (n - min (8 - o) n) * 2 ^ (8 - o - min (8 - o) n) < 2 ^ 8 := by
    have htop : data.toNat % 2 ^ n / 2 ^ (n - min (8 - o) n) < 2 ^ min (8 - o) n := by
      rw [Nat.div_lt_iff_lt_mul (Nat.two_pow_pos _), ← Nat.pow_add, show min (8 - o) n + (n - min (8 - o) n) = n by omega]
      exact Nat.mod_lt _ (Nat.two_pow_pos n)
    calc data.toNat % 2 ^ n / 2 ^ (n - min (8 - o) n) * 2 ^ (8 - o - min (8 - o) n)
        < 2 ^ min (8 - o) n * 2 ^ (8 - o - min (8 - o) n) := Nat.mul_lt_mul_of_pos_right htop (Nat.two_pow_pos _)
      _ = 2 ^ (8 - o) := by rw [← Nat.pow_add, show min (8 - o) n + (8 - o - min (8 - o) n) = 8 - o by omega]
      _ ≤ 2 ^ 8 := Nat.pow_le_pow_right (by omega) (by omega)
  rw [UInt64.toNat_toUInt8, UInt64.toNat_shiftRight, hs2, hshl, Nat.shiftRight_eq_div_pow, hval, Nat.mod_eq_of_lt hlt]

/-- A chunk of `b` bits `T` added below the `o` written bits of a clean
    buffer `B`: the buffer stays clean, and its written bits grow by `T`. -/
theorem buffer_add_chunk {B o b : Nat} (T : Nat) (hB : B % 2 ^ (8 - o) = 0) (hob : o + b ≤ 8) :
    (B + T * 2 ^ (8 - o - b)) % 2 ^ (8 - (o + b)) = 0 ∧
      (B + T * 2 ^ (8 - o - b)) / 2 ^ (8 - (o + b)) = B / 2 ^ (8 - o) * 2 ^ b + T := by
  have hsplit : B = B / 2 ^ (8 - o) * 2 ^ b * 2 ^ (8 - o - b) := by
    rw [Nat.mul_assoc, ← Nat.pow_add, show b + (8 - o - b) = 8 - o by omega]
    exact (Nat.div_mul_cancel (Nat.dvd_of_mod_eq_zero hB)).symm
  have hsum : B + T * 2 ^ (8 - o - b) = (B / 2 ^ (8 - o) * 2 ^ b + T) * 2 ^ (8 - o - b) := by
    conv_lhs => rw [hsplit]
    rw [Nat.add_mul]
  rw [hsum, show 8 - (o + b) = 8 - o - b by omega]
  exact ⟨Nat.mul_mod_left _ _, Nat.mul_div_cancel _ (Nat.two_pow_pos _)⟩

/-- One pass of the loop of `Write`: the top `b` of the `n` bits go into
    the buffer. -/
theorem pass_buffer {w : BitStreamWriter} (hc : Clean w) (data : UInt64) {n : Nat} (hn1 : 1 ≤ n) (hn : n ≤ 64) :
    (w.m_buffer ||| ((data <<< UInt64.ofNat (64 - n)) >>> UInt64.ofNat (64 - 8 + w.m_offset)).toUInt8).toNat %
        2 ^ (8 - (w.m_offset + min (8 - w.m_offset) n)) = 0 ∧
      toBits ((w.m_buffer ||| ((data <<< UInt64.ofNat (64 - n)) >>> UInt64.ofNat (64 - 8 + w.m_offset)).toUInt8).toNat /
          2 ^ (8 - (w.m_offset + min (8 - w.m_offset) n))) (w.m_offset + min (8 - w.m_offset) n) =
        toBits (w.m_buffer.toNat / 2 ^ (8 - w.m_offset)) w.m_offset ++
          toBits (data.toNat / 2 ^ (n - min (8 - w.m_offset) n)) (min (8 - w.m_offset) n) := by
  have ho := w.offset_lt
  have hT : data.toNat % 2 ^ n / 2 ^ (n - min (8 - w.m_offset) n) < 2 ^ min (8 - w.m_offset) n := by
    rw [Nat.div_lt_iff_lt_mul (Nat.two_pow_pos _), ← Nat.pow_add,
      show min (8 - w.m_offset) n + (n - min (8 - w.m_offset) n) = n by omega]
    exact Nat.mod_lt _ (Nat.two_pow_pos n)
  have hchunk := chunk_toNat data hn1 hn ho
  -- the chunk lies in the zero bits of the buffer, so `|=` adds it
  have hor : (w.m_buffer ||| ((data <<< UInt64.ofNat (64 - n)) >>> UInt64.ofNat (64 - 8 + w.m_offset)).toUInt8).toNat =
      w.m_buffer.toNat + data.toNat % 2 ^ n / 2 ^ (n - min (8 - w.m_offset) n) *
        2 ^ (8 - w.m_offset - min (8 - w.m_offset) n) := by
    rw [UInt8.toNat_or, hchunk]
    apply Bits.or_eq_add_of_mod hc
    calc data.toNat % 2 ^ n / 2 ^ (n - min (8 - w.m_offset) n) * 2 ^ (8 - w.m_offset - min (8 - w.m_offset) n)
        < 2 ^ min (8 - w.m_offset) n * 2 ^ (8 - w.m_offset - min (8 - w.m_offset) n) :=
          Nat.mul_lt_mul_of_pos_right hT (Nat.two_pow_pos _)
      _ = 2 ^ (8 - w.m_offset) := by
          rw [← Nat.pow_add, show min (8 - w.m_offset) n + (8 - w.m_offset - min (8 - w.m_offset) n) = 8 - w.m_offset by omega]
  obtain ⟨hclean, hdiv⟩ := buffer_add_chunk (data.toNat % 2 ^ n / 2 ^ (n - min (8 - w.m_offset) n)) hc
    (show w.m_offset + min (8 - w.m_offset) n ≤ 8 by omega)
  refine ⟨by rw [hor]; exact hclean, ?_⟩
  rw [hor, hdiv, toBits_mul_add _ _ hT, toBits_mod_div (by omega)]

/-- The loop of `Write` appends the `nbits` low bits of `data`; the
    induction follows the loop, one pass (`pass_buffer`) at a time, with the
    byte handed on when it is full. -/
theorem writeLoop_bits (data : UInt64) {nbits : Nat} {w : BitStreamWriter} (hn : nbits ≤ 64) (hc : Clean w) :
    Clean (writeLoop data nbits w) ∧ (writeLoop data nbits w).bits = w.bits ++ toBits data.toNat nbits := by
  induction nbits, w using writeLoop.induct data with
  | case1 w =>
    rw [writeLoop, if_pos rfl]
    exact ⟨hc, by rw [toBits, List.append_nil]⟩
  | case2 nbits w hn0 b m_buffer m_offset w' ih =>
    have ho := w.offset_lt
    obtain ⟨hclean, hbits⟩ := pass_buffer hc data (show 1 ≤ nbits by omega) hn
    -- the pass leaves the writer `w'`, with the pass's bits appended
    have hw' : Clean w' ∧ w'.bits = w.bits ++ toBits (data.toNat / 2 ^ (nbits - b)) b := by
      simp only [w', m_offset, m_buffer, b]
      split
      · next hfull =>
        rw [hfull, Nat.sub_self, Nat.pow_zero, Nat.div_one] at hbits
        refine ⟨rfl, ?_⟩
        rw [bits_full, hbits, bits, List.append_assoc]
      · refine ⟨hclean, ?_⟩
        rw [bits_mk, hbits, bits, List.append_assoc]
    obtain ⟨hc', hb'⟩ := ih (by omega) hw'.1
    rw [writeLoop, if_neg hn0]
    refine ⟨hc', ?_⟩
    rw [hb', hw'.2, List.append_assoc, ← toBits_add, show b + (nbits - b) = nbits by omega]

theorem write_bits {w : BitStreamWriter} (hc : Clean w) (data : UInt64) {nbits : Nat} (hn : nbits ≤ 64) :
    ∃ w', w.write data nbits = .ok w' ∧ Clean w' ∧ w'.bits = w.bits ++ toBits data.toNat nbits :=
  ⟨_, by rw [write, if_neg (by omega)], writeLoop_bits data hn hc⟩

/-- `Flush()` pads the written bits to a whole byte with zeros. -/
theorem flush_bits {w : BitStreamWriter} (hc : Clean w) :
    ofBytes w.flush.m_ostream = w.bits ++ List.replicate ((8 - w.m_offset) % 8) false := by
  have ho := w.offset_lt
  rw [flush]
  split
  · next h0 =>
    rw [bits, h0, toBits, List.append_nil, Nat.sub_zero, Nat.mod_self, List.replicate_zero, List.append_nil]
  · next h0 =>
    rw [show (8 - w.m_offset) % 8 = 8 - w.m_offset by omega]
    show ofBytes (w.m_ostream ++ [w.m_buffer]) = _
    rw [ofBytes_append, ofBytes_cons, ofBytes_nil, List.append_nil, bits, List.append_assoc,
      show 8 = w.m_offset + (8 - w.m_offset) by omega, toBits_add, ← toBits_mod w.m_buffer.toNat (8 - w.m_offset),
      hc, toBits_zero, show w.m_offset + (8 - w.m_offset) - w.m_offset = 8 - w.m_offset by omega]

end BitStreamWriter

namespace BitStreamReader

/-- The bits the reader can still return. -/
def bits (r : BitStreamReader) : List Bool := toBits r.m_buffer.toNat (8 - r.m_offset) ++ ofBytes r.m_istream

theorem bits_new (istream : List UInt8) : (new istream).bits = ofBytes istream := rfl

theorem length_bits (r : BitStreamReader) : r.bits.length = r.bitsLeft := by
  rw [bits, List.length_append, length_toBits, length_ofBytes, bitsLeft, Nat.add_comm]

/-- The bits one pass of `Read` takes from the buffer: the top `b` of its
    `8 - o` unread bits. -/
theorem pass_chunk (B : UInt8) {o b : Nat} (hb1 : 1 ≤ b) (hob : o + b ≤ 8) :
    ((B <<< UInt8.ofNat o) >>> UInt8.ofNat (8 - b)).toUInt64.toNat = B.toNat / 2 ^ (8 - o - b) % 2 ^ b := by
  have hs1 : (UInt8.ofNat o).toNat % 8 = o := by
    rw [UInt8.toNat_ofNat_of_lt' (by show o < 256; omega)]
    omega
  have hs2 : (UInt8.ofNat (8 - b)).toNat % 8 = 8 - b := by
    rw [UInt8.toNat_ofNat_of_lt' (by show 8 - b < 256; omega)]
    omega
  have h8 : (2 : Nat) ^ 8 = 2 ^ (8 - o) * 2 ^ o := by rw [← Nat.pow_add, show 8 - o + o = 8 by omega]
  have hb8 : (2 : Nat) ^ (8 - b) = 2 ^ (8 - o - b) * 2 ^ o := by
    rw [← Nat.pow_add, show 8 - o - b + o = 8 - b by omega]
  have hrest : B.toNat % 2 ^ (8 - o) / 2 ^ (8 - o - b) = B.toNat / 2 ^ (8 - o - b) % 2 ^ b := by
    rw [show (2 : Nat) ^ (8 - o) = 2 ^ (8 - o - b) * 2 ^ b by rw [← Nat.pow_add, show 8 - o - b + b = 8 - o by omega],
      Nat.mod_mul_right_div_self]
  rw [UInt8.toNat_toUInt64, UInt8.toNat_shiftRight, hs2, UInt8.toNat_shiftLeft, hs1, Nat.shiftLeft_eq, h8,
    Nat.mul_mod_mul_right, Nat.shiftRight_eq_div_pow, hb8, Nat.mul_div_mul_right _ _ (Nat.two_pow_pos _), hrest]

/-- The loop of `Read` returns the next `nbits` bits after the `data`
    read so far; the induction follows the loop, a refill keeping the bits
    and a pass taking up to a byte's rest. -/
theorem readLoop_bits {data : UInt64} {nbits : Nat} {r : BitStreamReader} (hn64 : nbits ≤ 64)
    (hn : nbits ≤ r.bits.length) (hd : data.toNat * 2 ^ nbits < 2 ^ 64) :
    ∃ r', readLoop data nbits r = .ok (UInt64.ofNat (data.toNat * 2 ^ nbits + ofBits (r.bits.take nbits)), r') ∧
      r'.bits = r.bits.drop nbits := by
  induction data, nbits, r using readLoop.induct with
  | case1 data r =>
    refine ⟨r, ?_, rfl⟩
    rw [readLoop, if_pos rfl, List.take_zero, ofBits_nil, Nat.pow_zero, Nat.mul_one, Nat.add_zero, UInt64.ofNat_toNat]
  | case2 data nbits r hn0 ho hnil =>
    -- nothing is left to read
    rw [bits, ho, hnil, ofBytes_nil, List.append_nil, Nat.sub_self, length_toBits] at hn
    omega
  | case3 data nbits r hn0 ho b rest hcons ih =>
    -- the refill reads the next byte, and the bits stay the same
    have hsame : (⟨rest, b, 0, by omega⟩ : BitStreamReader).bits = r.bits := by
      rw [bits, bits, ho, hcons, ofBytes_cons, Nat.sub_self, Nat.sub_zero]
      rfl
    rw [readLoop, if_neg hn0, dif_pos ho, hcons, ← hsame]
    exact ih hn64 (by rw [hsame]; exact hn) hd
  | case4 data nbits r hn0 ho b data' ih =>
    have hle := r.offset_le
    have hb1 : 1 ≤ b := by omega
    have hsplit : toBits r.m_buffer.toNat (8 - r.m_offset) =
        toBits (r.m_buffer.toNat / 2 ^ (8 - r.m_offset - b)) b ++ toBits r.m_buffer.toNat (8 - r.m_offset - b) := by
      rw [← toBits_add, show b + (8 - r.m_offset - b) = 8 - r.m_offset by omega]
    have htake : r.bits.take b = toBits (r.m_buffer.toNat / 2 ^ (8 - r.m_offset - b)) b := by
      rw [bits, hsplit, List.append_assoc, List.take_left' (length_toBits _ _)]
    have hdrop : (⟨r.m_istream, r.m_buffer, r.m_offset + b, by omega⟩ : BitStreamReader).bits = r.bits.drop b := by
      rw [bits, bits, hsplit, List.append_assoc, List.drop_left' (length_toBits _ _),
        show 8 - (r.m_offset + b) = 8 - r.m_offset - b by omega]
    -- the pass appends its `b` bits to `data`, which has room for them
    have hdata : data'.toNat = data.toNat * 2 ^ b + ofBits (r.bits.take b) := by
      have hroom : data.toNat * 2 ^ b < 2 ^ 64 :=
        lt_of_le_of_lt (Nat.mul_le_mul_left _ (Nat.pow_le_pow_right (by omega) (by omega))) hd
      have hbs : (UInt64.ofNat b).toNat % 64 = b := by
        rw [UInt64.toNat_ofNat_of_lt' (by show b < 18446744073709551616; omega)]
        omega
      rw [htake, ofBits_toBits]
      show ((data <<< UInt64.ofNat b) |||
        ((r.m_buffer <<< UInt8.ofNat r.m_offset) >>> UInt8.ofNat (8 - b)).toUInt64).toNat = _
      rw [UInt64.toNat_or, UInt64.toNat_shiftLeft, hbs, Nat.shiftLeft_eq, Nat.mod_eq_of_lt hroom,
        pass_chunk r.m_buffer hb1 (by omega)]
      exact Bits.or_eq_add_of_mod (Nat.mul_mod_left _ _) (Nat.mod_lt _ (Nat.two_pow_pos _))
    have hlen : b ≤ r.bits.length := by rw [length_bits, bitsLeft]; omega
    -- what is left fits in the word: `data` has room for all `nbits`
    have hd' : data'.toNat * 2 ^ (nbits - b) < 2 ^ 64 := by
      have htop := ofBits_lt (r.bits.take b)
      rw [List.length_take_of_le hlen] at htop
      have hmul : (data.toNat + 1) * 2 ^ nbits ≤ 2 ^ 64 := by
        have h64 : (2 : Nat) ^ 64 = 2 ^ (64 - nbits) * 2 ^ nbits := by rw [← Nat.pow_add, Nat.sub_add_cancel hn64]
        have hlt : data.toNat < 2 ^ (64 - nbits) := by
          rw [h64] at hd
          exact Nat.lt_of_mul_lt_mul_right hd
        calc (data.toNat + 1) * 2 ^ nbits ≤ 2 ^ (64 - nbits) * 2 ^ nbits := Nat.mul_le_mul_right _ hlt
          _ = 2 ^ 64 := h64.symm
      calc data'.toNat * 2 ^ (nbits - b) < (data.toNat + 1) * 2 ^ b * 2 ^ (nbits - b) := by
            apply Nat.mul_lt_mul_of_pos_right _ (Nat.two_pow_pos _)
            rw [hdata]
            calc data.toNat * 2 ^ b + ofBits (List.take b r.bits) < data.toNat * 2 ^ b + 2 ^ b := by omega
              _ = (data.toNat + 1) * 2 ^ b := by ring
        _ = (data.toNat + 1) * 2 ^ nbits := by rw [Nat.mul_assoc, ← Nat.pow_add, show b + (nbits - b) = nbits by omega]
        _ ≤ 2 ^ 64 := hmul
    obtain ⟨r', hr', hbits'⟩ := ih (by omega) (by rw [hdrop, List.length_drop]; omega) hd'
    refine ⟨r', ?_, by rw [hbits', hdrop, List.drop_drop, show b + (nbits - b) = nbits by omega]⟩
    -- the two parts of the read make up the first `nbits` bits
    have htakeN : r.bits.take nbits = r.bits.take b ++ (r.bits.drop b).take (nbits - b) := by
      rw [← List.take_add, Nat.add_sub_cancel' (show b ≤ nbits by omega)]
    have hpow : (2 : Nat) ^ nbits = 2 ^ b * 2 ^ (nbits - b) := by
      rw [← Nat.pow_add, Nat.add_sub_cancel' (show b ≤ nbits by omega)]
    rw [readLoop, if_neg hn0, dif_neg ho, hr', hdata, hdrop, htakeN, ofBits_append,
      List.length_take_of_le (by rw [List.length_drop]; omega), hpow]
    congr 3
    ring

theorem read_bits {r : BitStreamReader} {nbits : Nat} (hn64 : nbits ≤ 64) (hn : nbits ≤ r.bits.length) :
    ∃ r', r.read nbits = .ok (UInt64.ofNat (ofBits (r.bits.take nbits)), r') ∧ r'.bits = r.bits.drop nbits := by
  obtain ⟨r', h, hb⟩ := readLoop_bits hn64 hn (show (0 : UInt64).toNat * 2 ^ nbits < 2 ^ 64 by simp)
  refine ⟨r', ?_, hb⟩
  rw [read, if_neg (by omega), h, UInt64.toNat_zero, Nat.zero_mul, Nat.zero_add]

/-- `Read(1)` returns the first bit. -/
theorem read_one {r : BitStreamReader} {b : Bool} {rest : List Bool} (hr : r.bits = b :: rest) :
    ∃ r', r.read 1 = .ok (UInt64.ofNat b.toNat, r') ∧ r'.bits = rest := by
  obtain ⟨r', hread, hb⟩ := read_bits (show 1 ≤ 64 by omega)
    (show 1 ≤ r.bits.length by rw [hr, List.length_cons]; omega)
  rw [hr, List.take_succ_cons, List.take_zero, ofBits_cons, ofBits_nil, List.length_nil, Nat.pow_zero,
    Nat.mul_one, Nat.add_zero] at hread
  rw [hr, List.drop_succ_cons, List.drop_zero] at hb
  exact ⟨r', hread, hb⟩

/-- A reader with fewer than eight bits left has taken every byte of its
    stream. -/
theorem istream_eq_nil {r : BitStreamReader} (h : r.bits.length < 8) : r.m_istream = [] := by
  rw [length_bits, bitsLeft] at h
  exact List.eq_nil_of_length_eq_zero (by omega)

end BitStreamReader

/-! ## Golomb-Rice coding -/

/-- The unary quotient is `q` one bits, however it is cut into chunks. -/
theorem golombRiceEncodeUnary_bits {w : BitStreamWriter} (hc : w.Clean) (q : Nat) :
    ∃ w', golombRiceEncodeUnary w q = .ok w' ∧ w'.Clean ∧ w'.bits = w.bits ++ List.replicate q true := by
  induction w, q using golombRiceEncodeUnary.induct with
  | case1 w =>
    refine ⟨w, ?_, hc, by rw [List.replicate_zero, List.append_nil]⟩
    rw [golombRiceEncodeUnary, if_pos rfl]
  | case2 w q hq nbits e herr =>
    obtain ⟨w', hw', -⟩ := BitStreamWriter.write_bits hc (~~~0) (show nbits ≤ 64 by simp only [nbits]; split <;> omega)
    rw [hw'] at herr
    cases herr
  | case3 w q hq nbits w1 hw1 ih =>
    have hle : nbits ≤ 64 := by simp only [nbits]; split <;> omega
    have hleq : nbits ≤ q := by simp only [nbits]; split <;> omega
    obtain ⟨w1', hw1', hc1, hb1⟩ := BitStreamWriter.write_bits hc (~~~0) hle
    rw [hw1] at hw1'
    cases hw1'
    obtain ⟨w', hw', hc', hb'⟩ := ih hc1
    refine ⟨w', ?_, hc', ?_⟩
    · have hn : (if q ≤ 64 then q else 64) = nbits := rfl
      rw [golombRiceEncodeUnary, if_neg hq, hn]
      dsimp only
      rw [hw1]
      exact hw'
    · have hones : (~~~(0 : UInt64)).toNat = 2 ^ 64 - 1 := by rw [UInt64.toNat_not]; rfl
      rw [hb', hb1, hones, toBits_ones hle, List.append_assoc, List.replicate_append_replicate,
        Nat.add_sub_cancel' hleq]

/-- `GolombRiceEncode` appends the Golomb-Rice code of `x`. -/
theorem golombRiceEncode_bits {w : BitStreamWriter} (hc : w.Clean) {P : UInt8} (hP : P.toNat < 64) (x : UInt64) :
    ∃ w', golombRiceEncode w P x = .ok w' ∧ w'.Clean ∧ w'.bits = w.bits ++ riceBits P.toNat x.toNat := by
  have hq : (x >>> P.toUInt64).toNat = x.toNat / 2 ^ P.toNat := by
    rw [UInt64.toNat_shiftRight, UInt8.toNat_toUInt64, Nat.mod_eq_of_lt hP, Nat.shiftRight_eq_div_pow]
  obtain ⟨w1, hw1, hc1, hb1⟩ := golombRiceEncodeUnary_bits hc (x >>> P.toUInt64).toNat
  obtain ⟨w2, hw2, hc2, hb2⟩ := BitStreamWriter.write_bits hc1 0 (show 1 ≤ 64 by omega)
  obtain ⟨w3, hw3, hc3, hb3⟩ := BitStreamWriter.write_bits hc2 x (show P.toNat ≤ 64 by omega)
  refine ⟨w3, ?_, hc3, ?_⟩
  · rw [golombRiceEncode]
    simp only [hw1, hw2, hw3, bind, Except.bind]
  · rw [hb3, hb2, hb1, hq, UInt64.toNat_zero, toBits_zero, riceBits, List.replicate_one, List.append_assoc,
      List.append_assoc, List.singleton_append]

/-- One pass of the unary loop: `Read(1)` takes the first bit, a one goes
    round again with the count raised and a zero ends the loop. -/
theorem golombRiceDecodeUnary_cons {q : UInt64} {r : BitStreamReader} {b : Bool} {rest : List Bool}
    (hr : r.bits = b :: rest) :
    ∃ r1, r1.bits = rest ∧
      golombRiceDecodeUnary q r = if b then golombRiceDecodeUnary (q + 1) r1 else .ok (q, r1) := by
  obtain ⟨r1, hread, hb1⟩ := BitStreamReader.read_one hr
  refine ⟨r1, hb1, ?_⟩
  rw [golombRiceDecodeUnary]
  split
  · next e heq => rw [hread] at heq; cases heq
  · next bit r' heq =>
    rw [hread] at heq
    cases heq
    cases b <;> rfl

/-- The unary loop of `GolombRiceDecode` counts the ones before a zero;
    the induction is on the count. -/
theorem golombRiceDecodeUnary_bits (k : Nat) :
    ∀ (q : UInt64) (r : BitStreamReader) (rest : List Bool), r.bits = List.replicate k true ++ false :: rest →
      ∃ r', golombRiceDecodeUnary q r = .ok (q + UInt64.ofNat k, r') ∧ r'.bits = rest := by
  induction k with
  | zero =>
    intro q r rest hr
    rw [List.replicate_zero, List.nil_append] at hr
    obtain ⟨r1, hb1, hstep⟩ := golombRiceDecodeUnary_cons (q := q) hr
    -- the zero that ends the quotient
    refine ⟨r1, ?_, hb1⟩
    rw [hstep, if_neg Bool.false_ne_true, show UInt64.ofNat 0 = 0 from rfl, UInt64.add_zero]
  | succ k ih =>
    intro q r rest hr
    rw [List.replicate_succ, List.cons_append] at hr
    obtain ⟨r1, hb1, hstep⟩ := golombRiceDecodeUnary_cons (q := q) hr
    obtain ⟨r', hr', hb'⟩ := ih (q + 1) r1 rest hb1
    refine ⟨r', ?_, hb'⟩
    rw [hstep, if_pos rfl, hr', UInt64.ofNat_add, UInt64.add_assoc, UInt64.add_comm 1,
      show UInt64.ofNat 1 = 1 from rfl]

/-- `GolombRiceDecode` reads `x` back from its Golomb-Rice code. -/
theorem golombRiceDecode_riceBits {P : UInt8} (hP : P.toNat < 64) {x : UInt64} {r : BitStreamReader}
    {rest : List Bool} (hr : r.bits = riceBits P.toNat x.toNat ++ rest) :
    ∃ r', golombRiceDecode r P = .ok (x, r') ∧ r'.bits = rest := by
  rw [riceBits, List.append_assoc, List.cons_append] at hr
  obtain ⟨r1, hu, hb1⟩ := golombRiceDecodeUnary_bits _ 0 r _ hr
  obtain ⟨r2, hread, hb2⟩ := BitStreamReader.read_bits (show P.toNat ≤ 64 by omega)
    (show P.toNat ≤ r1.bits.length by rw [hb1, List.length_append, length_toBits]; omega)
  rw [hb1, List.take_left' (length_toBits _ _), ofBits_toBits] at hread
  rw [hb1, List.drop_left' (length_toBits _ _)] at hb2
  refine ⟨r2, ?_, hb2⟩
  rw [golombRiceDecode]
  simp only [hu, hread, bind, Except.bind, UInt64.zero_add]
  -- the quotient shifted back up and the remainder make `x`
  congr 2
  apply UInt64.toNat_inj.1
  have hlt : x.toNat < 2 ^ 64 := x.toNat_lt
  rw [UInt64.toNat_add, UInt64.toNat_shiftLeft, UInt8.toNat_toUInt64, Nat.mod_eq_of_lt hP,
    UInt64.toNat_ofNat_of_lt' (show x.toNat / 2 ^ P.toNat < 18446744073709551616 from
      lt_of_le_of_lt (Nat.div_le_self _ _) hlt),
    UInt64.toNat_ofNat_of_lt' (show x.toNat % 2 ^ P.toNat < 18446744073709551616 from
      lt_of_le_of_lt (Nat.mod_le _ _) hlt),
    Nat.shiftLeft_eq, Nat.mod_eq_of_lt (lt_of_le_of_lt (Nat.div_mul_le_self _ _) hlt), Nat.div_add_mod',
    Nat.mod_eq_of_lt hlt]

/-- A value written by `GolombRiceEncode` to a fresh writer, flushed, is
    read back by `GolombRiceDecode`. -/
theorem golombRiceDecode_golombRiceEncode {P : UInt8} (hP : P.toNat < 64) (x : UInt64) :
    ∃ w, golombRiceEncode (BitStreamWriter.new []) P x = .ok w ∧
      ∃ r, golombRiceDecode (BitStreamReader.new w.flush.m_ostream) P = .ok (x, r) := by
  obtain ⟨w, hw, hc, hb⟩ := golombRiceEncode_bits (BitStreamWriter.clean_new []) hP x
  have hr : (BitStreamReader.new w.flush.m_ostream).bits =
      riceBits P.toNat x.toNat ++ List.replicate ((8 - w.m_offset) % 8) false := by
    rw [BitStreamReader.bits_new, BitStreamWriter.flush_bits hc, hb, BitStreamWriter.bits_new, ofBytes_nil,
      List.nil_append]
  obtain ⟨r, hd, -⟩ := golombRiceDecode_riceBits hP hr
  exact ⟨w, hw, r, hd⟩

end Revo
