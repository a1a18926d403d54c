/-
  Revo.Util.Bech32

  The Bech32 and Bech32m codecs of `bech32.cpp` (BIP 173 and BIP 350).  A
  string is a human-readable part (HRP), the separator `'1'` and a data
  part of one `CHARSET` character per 5-bit value, the last six of them a
  checksum.  `PolyMod` is the remainder of the values, read as a polynomial
  over GF(32), modulo the BCH generator: one multiplication by `x` and one
  addition a value (`polyModStep`), in a `uint32_t`.  `ExpandHRP` puts the
  high and the low bits of the HRP's characters before the values, and the
  checksum makes `PolyMod` of them all the encoding's constant: 1 for
  Bech32, `0x2bc830a3` for Bech32m.

  Strings are lists of bytes.  A failed `assert` is `.error` with its text.
  `CHARSET[c]` for a value past the 32 characters reads past the string
  literal, taken here as its terminating `0`.  `return {}` in `Decode` is
  `DecodeResult.invalid`; `std::string::rfind` is `Lists.rfind`.
-/

import Revo.Lib.Lists
import Mathlib

namespace Revo

namespace Bech32

/-- `Encoding`. -/
inductive Encoding
  /-- Failed decoding. -/
  | INVALID
  /-- Bech32 as defined in BIP 173. -/
  | BECH32
  /-- Bech32m as defined in BIP 350. -/
  | BECH32M
  deriving DecidableEq, Repr

/-- `CHARSET`: the character of each 5-bit value. -/
def charset : List UInt8 := "qpzry9x8gf2tvdw0s3jn54khce6mua7l".toList.map Char.toUInt8

/-- `CHARSET_REV`: the value of each character below 128, `-1` for none. -/
def charsetRev : List Int := [
  -1, -1, -1, -1, -1, -1, -1, -1, -1, -1, -1, -1, -1, -1, -1, -1,
  -1, -1, -1, -1, -1, -1, -1, -1, -1, -1, -1, -1, -1, -1, -1, -1,
  -1, -1, -1, -1, -1, -1, -1, -1, -1, -1, -1, -1, -1, -1, -1, -1,
  15, -1, 10, 17, 21, 20, 26, 30,  7,  5, -1, -1, -1, -1, -1, -1,
  -1, 29, -1, 24, 13, 25,  9,  8, 23, -1, 18, 22, 31, 27, 19, -1,
   1,  0,  3, 16, 11, 28, 12, 14,  6,  4,  2, -1, -1, -1, -1, -1,
  -1, 29, -1, 24, 13, 25,  9,  8, 23, -1, 18, 22, 31, 27, 19, -1,
   1,  0,  3, 16, 11, 28, 12, 14,  6,  4,  2, -1, -1, -1, -1, -1]

/-- `EncodingConstant(encoding)`: the constant `PolyMod` of a valid string
    is, past the assertion that the encoding is not `INVALID`. -/
def encodingConstant (encoding : Encoding) : Except String UInt32 :=
  if encoding = .BECH32 ∨ encoding = .BECH32M then .ok (if encoding = .BECH32 then 1 else 0x2bc830a3)
  else .error "assert(encoding == Encoding::BECH32 || encoding == Encoding::BECH32M)"

/-- One pass of the loop of `PolyMod`: `c` times `x` plus `v_i` modulo the
    generator.  The top value `c0` falls off, and `c0 * k(x)`, with
    `k(x) = x ^ 6 mod g(x)`, is added back bit by bit of `c0`. -/
def polyModStep (c : UInt32) (v_i : UInt8) : UInt32 :=
  let c0 : UInt8 := (c >>> 25).toUInt8
  let c := ((c &&& 0x1ffffff) <<< 5) ^^^ v_i.toUInt32
  let c := if c0 &&& 1 ≠ 0 then c ^^^ 0x3b6a57b2 else c
  let c := if c0 &&& 2 ≠ 0 then c ^^^ 0x26508e6d else c
  let c := if c0 &&& 4 ≠ 0 then c ^^^ 0x1ea119fa else c
  let c := if c0 &&& 8 ≠ 0 then c ^^^ 0x3d4233dd else c
  if c0 &&& 16 ≠ 0 then c ^^^ 0x2a1462b3 else c

/-- `PolyMod(v)`: from `c = 1`, the implicit leading coefficient. -/
def polyMod (v : List UInt8) : UInt32 := v.foldl polyModStep 1

/-- `LowerCase(c)`. -/
def lowerCase (c : UInt8) : UInt8 := if c ≥ 'A'.toUInt8 ∧ c ≤ 'Z'.toUInt8 then c - 'A'.toUInt8 + 'a'.toUInt8 else c

/-- `ExpandHRP(hrp)`: `ret[i] = c >> 5`, `ret[hrp.size()] = 0` and
    `ret[i + hrp.size() + 1] = c & 0x1f` for the characters `c` of `hrp`. -/
def expandHRP (hrp : List UInt8) : List UInt8 := hrp.map (fun c : UInt8 => c >>> 5) ++ 0 :: hrp.map (· &&& 0x1f)

/-- `VerifyChecksum(hrp, values)`: which constant `PolyMod` gives. -/
def verifyChecksum (hrp values : List UInt8) : Encoding :=
  let check := polyMod (expandHRP hrp ++ values)
  if encodingConstant .BECH32 = .ok check then .BECH32
  else if encodingConstant .BECH32M = .ok check then .BECH32M
  else .INVALID

/-- `CreateChecksum(encoding, hrp, values)`: the six 5-bit groups of what
    `PolyMod` says to xor into six zeros appended, the first group highest. -/
def createChecksum (encoding : Encoding) (hrp values : List UInt8) : Except String (List UInt8) := do
  let enc := expandHRP hrp ++ values ++ List.replicate 6 0
  let mod := polyMod enc ^^^ (← encodingConstant encoding)
  return (List.range 6).map fun i => ((mod >>> UInt32.ofNat (5 * (5 - i))) &&& 31).toUInt8

/-- `bech32::Encode(encoding, hrp, values)`. -/
def encode (encoding : Encoding) (hrp values : List UInt8) : Except String (List UInt8) := do
  -- the HRP must be lower case
  if hrp.any fun c => c ≥ 'A'.toUInt8 ∧ c ≤ 'Z'.toUInt8 then throw "assert(c < 'A' || c > 'Z')"
  let checksum ← createChecksum encoding hrp values
  let combined := values ++ checksum
  return hrp ++ '1'.toUInt8 :: combined.map fun c => charset.getD c.toNat 0

/-- `DecodeResult`. -/
structure DecodeResult where
  /-- The encoding detected, `INVALID` if decoding failed. -/
  encoding : Encoding
  /-- The human-readable part. -/
  hrp : List UInt8
  /-- The payload, without the checksum. -/
  data : List UInt8
  deriving DecidableEq, Repr

/-- `DecodeResult()`. -/
def DecodeResult.invalid : DecodeResult := ⟨.INVALID, [], []⟩

/-- The first loop of `Decode`: whether a lower-case and whether an
    upper-case letter occur, `none` for a character outside `[33, 126]`. -/
def caseScan : Bool → Bool → List UInt8 → Option (Bool × Bool)
  | lower, upper, [] => some (lower, upper)
  | lower, upper, c :: cs =>
    if c ≥ 'a'.toUInt8 ∧ c ≤ 'z'.toUInt8 then caseScan true upper cs
    else if c ≥ 'A'.toUInt8 ∧ c ≤ 'Z'.toUInt8 then caseScan lower true cs
    else if c < 33 ∨ c > 126 then none
    else caseScan lower upper cs

theorem caseScan_nil (lower upper : Bool) : caseScan lower upper [] = some (lower, upper) := rfl

theorem caseScan_cons (lower upper : Bool) (c : UInt8) (cs : List UInt8) :
    caseScan lower upper (c :: cs) =
      if c ≥ 'a'.toUInt8 ∧ c ≤ 'z'.toUInt8 then caseScan true upper cs
      else if c ≥ 'A'.toUInt8 ∧ c ≤ 'Z'.toUInt8 then caseScan lower true cs
      else if c < 33 ∨ c > 126 then none
      else caseScan lower upper cs := rfl

/-- The loop over the data part of `Decode`: the value `CHARSET_REV` gives
    each character, `none` at one it has none for. -/
def decodeValues : List UInt8 → Option (List UInt8)
  | [] => some []
  | c :: cs =>
    let rev := charsetRev.getD c.toNat (-1)
    if rev = -1 then none else (decodeValues cs).map fun values => UInt8.ofNat rev.toNat :: values

theorem decodeValues_nil : decodeValues [] = some [] := rfl

theorem decodeValues_cons (c : UInt8) (cs : List UInt8) :
    decodeValues (c :: cs) =
      if charsetRev.getD c.toNat (-1) = -1 then none
      else (decodeValues cs).map fun values => UInt8.ofNat (charsetRev.getD c.toNat (-1)).toNat :: values := rfl

/-- `bech32::Decode(str)`. -/
def decode (str : List UInt8) : DecodeResult :=
  match caseScan false false str with
  | none => .invalid
  | some (lower, upper) =>
    if lower && upper then .invalid
    else match Lists.rfind '1'.toUInt8 str with
    | none => .invalid
    | some pos =>
      if str.length > 90 ∨ pos = 0 ∨ pos + 7 > str.length then .invalid
      else match decodeValues (str.drop (pos + 1)) with
      | none => .invalid
      | some values =>
        let hrp := (str.take pos).map lowerCase
        let result := verifyChecksum hrp values
        if result = .INVALID then .invalid
        else ⟨result, hrp, values.take (values.length - 6)⟩

end Bech32

end Revo
