/-
  Revo.Serialize.BitStream

  `BitStreamWriter` and `BitStreamReader` of `streams.h`, and the
  Golomb-Rice coder of `util/golombrice.h` on top of them.

  The writer keeps the byte being filled in `m_buffer`, its high `m_offset`
  bits written, and hands a byte to the stream when all eight are; the
  reader keeps the last byte read, its high `m_offset` bits returned.  The
  writer's stream is the list of bytes written so far (`CVectorWriter`), the
  reader's the list of bytes not yet read (`VectorReader`).  Widths follow
  the source: the data words are `uint64_t`, the buffers `uint8_t`.

  The loops of `Write` and `Read` end because each pass moves at least one
  bit; the unary loop of `GolombRiceDecode` ends because each `Read(1)` that
  succeeds takes a bit off the reader (`readLoop_bitsLeft`), and one that
  fails throws.
-/

import Mathlib

namespace Revo

/-- A pass of either loop moves at most the rest of the byte. -/
theorem add_min_sub_le {o : Nat} (h : o ≤ 8) (n : Nat) : o + min (8 - o) n ≤ 8 := by omega

structure BitStreamWriter where
  m_ostream : List UInt8
  m_buffer : UInt8
  m_offset : Nat
  offset_lt : m_offset < 8

namespace BitStreamWriter

/-- `BitStreamWriter(ostream)`. -/
def new (ostream : List UInt8) : BitStreamWriter := ⟨ostream, 0, 0, Nat.succ_pos 7⟩

/-- `Flush()`: the partial byte, padded with zero bits, goes to the stream. -/
def flush (w : BitStreamWriter) : BitStreamWriter :=
  if w.m_offset = 0 then w else ⟨w.m_ostream ++ [w.m_buffer], 0, 0, Nat.succ_pos 7⟩

/-- The loop of `Write(data, nbits)`. -/
def writeLoop (data : UInt64) (nbits : Nat) (w : BitStreamWriter) : BitStreamWriter :=
  if nbits = 0 then w
  else
    let bits := min (8 - w.m_offset) nbits
    let m_buffer := w.m_buffer ||| ((data <<< UInt64.ofNat (64 - nbits)) >>> UInt64.ofNat (64 - 8 + w.m_offset)).toUInt8
    let m_offset := w.m_offset + bits
    -- `if (m_offset == 8) Flush();`
    let w' : BitStreamWriter :=
      if h : m_offset = 8 then ⟨w.m_ostream ++ [m_buffer], 0, 0, Nat.succ_pos 7⟩
      else ⟨w.m_ostream, m_buffer, m_offset, Nat.lt_of_le_of_ne (add_min_sub_le w.offset_lt.le nbits) h⟩
    writeLoop data (nbits - bits) w'
termination_by nbits
decreasing_by have := w.offset_lt; omega

/-- `Write(data, nbits)`: the `nbits` low bits of `data`. -/
def write (w : BitStreamWriter) (data : UInt64) (nbits : Nat) : Except String BitStreamWriter :=
  if nbits > 64 then .error "nbits must be between 0 and 64" else .ok (writeLoop data nbits w)

end BitStreamWriter

structure BitStreamReader where
  m_istream : List UInt8
  m_buffer : UInt8
  m_offset : Nat
  offset_le : m_offset ≤ 8

namespace BitStreamReader

/-- `BitStreamReader(istream)`: no byte read yet, `m_offset = 8`. -/
def new (istream : List UInt8) : BitStreamReader := ⟨istream, 0, 8, le_rfl⟩

/-- The bits the reader can still return. -/
def bitsLeft (r : BitStreamReader) : Nat := 8 * r.m_istream.length + (8 - r.m_offset)

/-- The loop of `Read(nbits)`, with `data` the bits read so far. -/
def readLoop (data : UInt64) (nbits : Nat) (r : BitStreamReader) : Except String (UInt64 × BitStreamReader) :=
  if nbits = 0 then .ok (data, r)
  else if ho : r.m_offset = 8 then
    -- `m_istream >> m_buffer; m_offset = 0;`
    match r.m_istream with
    | [] => .error "VectorReader::read(): end of data"
    | b :: rest => readLoop data nbits ⟨rest, b, 0, Nat.zero_le 8⟩
  else
    let bits := min (8 - r.m_offset) nbits
    let data := (data <<< UInt64.ofNat bits) |||
      ((r.m_buffer <<< UInt8.ofNat r.m_offset) >>> UInt8.ofNat (8 - bits)).toUInt64
    readLoop data (nbits - bits) ⟨r.m_istream, r.m_buffer, r.m_offset + bits, add_min_sub_le r.offset_le nbits⟩
termination_by 2 * nbits + if r.m_offset = 8 then 1 else 0
decreasing_by
  all_goals have := r.offset_le
  · simp [ho]
  · rw [if_neg ho]
    split <;> omega

/-- `Read(nbits)`: the next `nbits` bits, in the low bits of a `uint64_t`. -/
def read (r : BitStreamReader) (nbits : Nat) : Except String (UInt64 × BitStreamReader) :=
  if nbits > 64 then .error "nbits must be between 0 and 64" else readLoop 0 nbits r

/-- A read that succeeds takes its bits off the reader; the induction
    follows the loop, and a refill keeps the count. -/
theorem readLoop_bitsLeft {data : UInt64} {nbits : Nat} {r : BitStreamReader} {v : UInt64}
    {r' : BitStreamReader} (h : readLoop data nbits r = .ok (v, r')) : r'.bitsLeft + nbits = r.bitsLeft := by
  induction data, nbits, r using readLoop.induct with
  | case1 data r =>
    rw [readLoop, if_pos rfl] at h
    cases h
    rfl
  | case2 data nbits r hn ho hnil =>
    rw [readLoop, if_neg hn, dif_pos ho, hnil] at h
    cases h
  | case3 data nbits r hn ho b rest hcons ih =>
    rw [readLoop, if_neg hn, dif_pos ho, hcons] at h
    have hb := ih h
    simp only [bitsLeft] at hb ⊢
    rw [hcons, List.length_cons, ho]
    omega
  | case4 data nbits r hn ho bits data' ih =>
    rw [readLoop, if_neg hn, dif_neg ho] at h
    have hb := ih h
    have hle := r.offset_le
    simp only [bitsLeft] at hb ⊢
    omega

theorem read_bitsLeft {r : BitStreamReader} {nbits : Nat} {v : UInt64} {r' : BitStreamReader}
    (h : r.read nbits = .ok (v, r')) : r'.bitsLeft + nbits = r.bitsLeft := by
  rw [read] at h
  split at h
  · cases h
  · exact readLoop_bitsLeft h

end BitStreamReader

/-! ## Golomb-Rice coding -/

/-- The unary quotient of `GolombRiceEncode`: `q` one bits, written in
    chunks of at most 64. -/
def golombRiceEncodeUnary (w : BitStreamWriter) (q : Nat) : Except String BitStreamWriter :=
  if q = 0 then .ok w
  else
    let nbits := if q ≤ 64 then q else 64
    match w.write (~~~0) nbits with
    | .error e => .error e
    | .ok w => golombRiceEncodeUnary w (q - nbits)
termination_by q
decreasing_by split <;> omega

/-- `GolombRiceEncode(bitwriter, P, x)`; `x >> P` is taken for `P < 64`. -/
def golombRiceEncode (w : BitStreamWriter) (P : UInt8) (x : UInt64) : Except String BitStreamWriter := do
  let q := x >>> P.toUInt64
  let w ← golombRiceEncodeUnary w q.toNat
  let w ← w.write 0 1
  w.write x P.toNat

/-- The unary loop of `GolombRiceDecode`: `++q` while `Read(1) == 1`. -/
def golombRiceDecodeUnary (q : UInt64) (r : BitStreamReader) : Except String (UInt64 × BitStreamReader) :=
  match h : r.read 1 with
  | .error e => .error e
  | .ok (bit, r') => if bit = 1 then golombRiceDecodeUnary (q + 1) r' else .ok (q, r')
termination_by r.bitsLeft
decreasing_by have := BitStreamReader.read_bitsLeft h; omega

/-- `GolombRiceDecode(bitreader, P)`. -/
def golombRiceDecode (r : BitStreamReader) (P : UInt8) : Except String (UInt64 × BitStreamReader) := do
  let (q, r) ← golombRiceDecodeUnary 0 r
  let (rem, r) ← r.read P.toNat
  .ok ((q <<< P.toUInt64) + rem, r)

end Revo
