/-
  Revo.Serialize.Serialize

  The integer codecs of `serialize.h`.

    * CompactSize, the length prefix of vectors and strings: a value below
      253 is one byte; otherwise a marker 253, 254 or 255 comes before 2, 4
      or 8 little-endian bytes.  `ReadCompactSize` rejects a value that a
      shorter form could hold and, with `range_check`, one above `MAX_SIZE`.
    * VarInt, the integers of the coins database: base-128 digits, most
      significant first, every digit but the last with its top bit set and
      one taken off the number it stands for.  `WriteVarInt` computes the
      digits least significant first into `tmp` and writes `tmp` backwards;
      `ReadVarInt` into an unsigned type of `w` bits refuses a value that
      would not fit.

  A stream is the list of the bytes still to be read; reading past its end
  throws, as `CDataStream::read` does.  Integers are `Nat`; the `w`-bit
  arithmetic of `ReadVarInt` is taken `% 2 ^ w`.
-/

import Revo.Script.ScriptNum

namespace Revo

def MAX_SIZE : Nat := 0x10000000

/-- `ser_readdata8/16/32/64`: `k` bytes read as a little-endian number. -/
def serReadData (k : Nat) (bs : List UInt8) : Except String (Nat × List UInt8) :=
  if bs.length < k then .error "CDataStream::read(): end of data"
  else .ok (leNat (bs.take k), bs.drop k)

/-- `CDataStream::read` of `k` bytes into a span. -/
def streamRead (k : Nat) (bs : List UInt8) : Except String (List UInt8 × List UInt8) :=
  if bs.length < k then .error "CDataStream::read(): end of data"
  else .ok (bs.take k, bs.drop k)

/-- `CDataStream::ignore(nSize)` for an `unsigned int` size, which as the
    `int` parameter is negative from `2 ^ 31` on. -/
def streamIgnore (nSize : Nat) (bs : List UInt8) : Except String (List UInt8) :=
  if nSize ≥ 2 ^ 31 then .error "CDataStream::ignore(): nSize negative"
  else if bs.length < nSize then .error "CDataStream::ignore(): end of data"
  else .ok (bs.drop nSize)

/-! ## CompactSize -/

def getSizeOfCompactSize (nSize : Nat) : Nat :=
  if nSize < 253 then 1
  else if nSize ≤ 0xffff then 1 + 2
  else if nSize ≤ 0xffffffff then 1 + 4
  else 1 + 8

/-- `WriteCompactSize`; `ser_writedataK` is `leBytes · K`. -/
def writeCompactSize (nSize : Nat) : List UInt8 :=
  if nSize < 253 then leBytes nSize 1
  else if nSize ≤ 0xffff then 253 :: leBytes nSize 2
  else if nSize ≤ 0xffffffff then 254 :: leBytes nSize 4
  else 255 :: leBytes nSize 8

/-- A marker branch of `ReadCompactSize`: `k` bytes, rejected when below
    `lower`, the least value the writer gives that width. -/
def readCompactSizeWide (k lower : Nat) (bs : List UInt8) : Except String (Nat × List UInt8) :=
  (serReadData k bs).bind fun r =>
    if r.1 < lower then .error "non-canonical ReadCompactSize()" else .ok r

/-- The value `ReadCompactSize` reads after its first byte `chSize`. -/
def readCompactSizeValue (chSize : UInt8) (bs : List UInt8) : Except String (Nat × List UInt8) :=
  if chSize < 253 then .ok (chSize.toNat, bs)
  else if chSize = 253 then readCompactSizeWide 2 253 bs
  else if chSize = 254 then readCompactSizeWide 4 0x10000 bs
  else readCompactSizeWide 8 0x100000000 bs

/-- `ReadCompactSize(is, range_check)`. -/
def readCompactSize (rangeCheck : Bool) : List UInt8 → Except String (Nat × List UInt8)
  | [] => .error "CDataStream::read(): end of data"
  | chSize :: bs =>
    (readCompactSizeValue chSize bs).bind fun r =>
      if rangeCheck && r.1 > MAX_SIZE then .error "ReadCompactSize(): size too large" else .ok r

/-! ## VarInt -/

/-- `tmp[len] = (n & 0x7F) | (len ? 0x80 : 0x00)`. -/
def varIntDigit (n len : Nat) : UInt8 :=
  UInt8.ofNat ((n &&& 0x7F) ||| (if len ≠ 0 then 0x80 else 0x00))

/-- The loop of `WriteVarInt` from step `len` on, with `n` the value left:
    `tmp[len]`, `tmp[len + 1]`, and so on. -/
def varIntTmp (n len : Nat) : List UInt8 :=
  if n ≤ 0x7F then [varIntDigit n len]
  else varIntDigit n len :: varIntTmp (n >>> 7 - 1) (len + 1)
termination_by n
decreasing_by
  rw [Nat.shiftRight_eq_div_pow]
  omega

/-- `WriteVarInt`: `tmp[len]` down to `tmp[0]`. -/
def writeVarInt (n : Nat) : List UInt8 := (varIntTmp n 0).reverse

/-- The loop of `GetSizeOfVarInt`, which repeats the digit loop of
    `WriteVarInt` and counts the digits in `nRet`. -/
def getSizeOfVarIntLoop (nRet n : Nat) : Nat :=
  if n ≤ 0x7F then nRet + 1 else getSizeOfVarIntLoop (nRet + 1) (n >>> 7 - 1)
termination_by n
decreasing_by
  rw [Nat.shiftRight_eq_div_pow]
  omega

def getSizeOfVarInt (n : Nat) : Nat := getSizeOfVarIntLoop 0 n

/-- The loop of `ReadVarInt` into a `w`-bit unsigned type, with `n` the
    value read so far. -/
def readVarIntLoop (w : Nat) : Nat → List UInt8 → Except String (Nat × List UInt8)
  | _, [] => .error "CDataStream::read(): end of data"
  | n, chData :: bs =>
    if n > (2 ^ w - 1) >>> 7 then .error "ReadVarInt(): size too large"
    else
      let n := (n <<< 7 ||| (chData &&& 0x7F).toNat) % 2 ^ w
      if chData &&& 0x80 ≠ 0 then
        if n = 2 ^ w - 1 then .error "ReadVarInt(): size too large"
        else readVarIntLoop w (n + 1) bs
      else .ok (n, bs)

/-- `ReadVarInt<Stream, Mode, I>` for an `I` of `w` bits. -/
def readVarInt (w : Nat) (bs : List UInt8) : Except String (Nat × List UInt8) :=
  readVarIntLoop w 0 bs

end Revo
