/-
  Revo.Util.StrEncodings

  The bit-group codecs of `util/strencodings`: `ConvertBits`, which
  regroups a sequence of `frombits`-bit values into `tobits`-bit values
  through an accumulator masked to `frombits + tobits - 1` bits, and the
  Base64 and Base32 codecs built on it.  Decoding reads alphabet characters
  up to the first other one, regroups them into bytes without padding,
  and then accepts only `'='` up to the end, a multiple of four (eight)
  characters in all and fewer than four (eight) of them `'='`.

  A `std::string` is its bytes; a C string is the bytes up to the first
  zero or the end of the list.  `ConvertBits` computes on `Nat`: its
  `size_t` accumulator stays below `2 ^ (frombits + tobits - 1)`, and its
  `int` shifts `1 << tobits` and `1 << (frombits + tobits - 1)` are exact
  for the widths the source uses.  `EncodeBase64` and `EncodeBase32`, and
  the two decoders, are one function each with the alphabet, the widths
  and the padding quantum as parameters.
-/

import Mathlib

namespace Revo

/-! ## ConvertBits -/

/-- The inner `while (bits >= tobits)` of `ConvertBits`: the values passed
    to `outfn`, and `bits` afterwards.  (The source loops for ever when
    `tobits = 0`; no instance does that.) -/
def convertBitsDrain (tobits maxv acc : Nat) (bits : Nat) : List Nat × Nat :=
  if 0 < tobits ∧ tobits ≤ bits then
    let bits := bits - tobits
    let (outs, bits') := convertBitsDrain tobits maxv acc bits
    (((acc >>> bits) &&& maxv) :: outs, bits')
  else ([], bits)
termination_by bits
decreasing_by omega

/-- The `while (it != end)` loop of `ConvertBits`, from `acc` and `bits`:
    the values passed to `outfn`, and `acc` and `bits` at the end. -/
def convertBitsLoop (frombits tobits maxv max_acc : Nat) : Nat → Nat → List Nat → List Nat × Nat × Nat
  | acc, bits, [] => ([], acc, bits)
  | acc, bits, v :: vs =>
    let acc := ((acc <<< frombits) ||| v) &&& max_acc
    let (outs, bits) := convertBitsDrain tobits maxv acc (bits + frombits)
    let (outs', acc', bits') := convertBitsLoop frombits tobits maxv max_acc acc bits vs
    (outs ++ outs', acc', bits')

/-- `ConvertBits<frombits, tobits, pad>(outfn, it, end)`: the values passed
    to `outfn`, and what it returns. -/
def convertBits (frombits tobits : Nat) (pad : Bool) (input : List Nat) : List Nat × Bool :=
  let maxv := (1 <<< tobits) - 1
  let max_acc := (1 <<< (frombits + tobits - 1)) - 1
  let (outs, acc, bits) := convertBitsLoop frombits tobits maxv max_acc 0 0 input
  if pad then (if bits ≠ 0 then outs ++ [(acc <<< (tobits - bits)) &&& maxv] else outs, true)
  else if bits ≥ frombits ∨ (acc <<< (tobits - bits)) &&& maxv ≠ 0 then (outs, false)
  else (outs, true)

/-! ## Base64 and Base32 -/

/-- `ToLower(char c)`. -/
def toLower (c : UInt8) : UInt8 := if c ≥ 'A'.toUInt8 ∧ c ≤ 'Z'.toUInt8 then c - 'A'.toUInt8 + 'a'.toUInt8 else c

/-- `IsSpace(c)`: space, form feed (`0x0c`), newline, carriage return, tab,
    vertical tab (`0x0b`). -/
def isSpace (c : UInt8) : Bool :=
  c == ' '.toUInt8 || c == 0x0c || c == '\n'.toUInt8 || c == '\r'.toUInt8 || c == '\t'.toUInt8 || c == 0x0b

/-- `TrimString(str, pattern)` of `util/string.h`, by default with the
    pattern `" \f\n\r\t\v"`: `str` from its first character outside
    `pattern` to its last one. -/
def trimString (str : List UInt8) (pattern : List UInt8 := [' '.toUInt8, 0x0c, '\n'.toUInt8, '\r'.toUInt8, '\t'.toUInt8, 0x0b]) :
    List UInt8 :=
  let front := str.dropWhile pattern.contains
  -- `front == std::string::npos`
  if front = [] then [] else (front.reverse.dropWhile pattern.contains).reverse

/-- `ValidAsCString(str)`: `str.size() == strlen(str.c_str())`. -/
def validAsCString (str : List UInt8) : Bool := str.length == (str.takeWhile (· ≠ 0)).length

/-- `while (str.size() % quantum) str += '=';`, with the at most
    `quantum - 1` passes it makes as fuel. -/
def padLoop (quantum : Nat) : Nat → List UInt8 → List UInt8
  | 0, str => str
  | fuel + 1, str => if str.length % quantum ≠ 0 then padLoop quantum fuel (str ++ ['='.toUInt8]) else str

/-- `EncodeBase64` and `EncodeBase32`: the `tobits`-bit groups of the input,
    the last one padded with zero bits, as characters of `alphabet`, then
    `'='` up to a multiple of `quantum` characters when `pad`. -/
def encodeBaseN (alphabet : List UInt8) (tobits quantum : Nat) (pad : Bool) (input : List UInt8) : List UInt8 :=
  let (outs, _) := convertBits 8 tobits true (input.map UInt8.toNat)
  let str := outs.map fun v => alphabet.getD v 0
  if pad then padLoop quantum quantum str else str

/-- The first loop of the decoders: the values of the characters up to the
    first one outside the table or the end of the C string, and the
    characters from there on. -/
def decodeDigits (table : List Int) : List UInt8 → List Nat × List UInt8
  | [] => ([], [])
  | c :: cs =>
    if c = 0 then ([], c :: cs)
    else
      let x := table.getD c.toNat (-1)
      if x = -1 then ([], c :: cs)
      else
        let (val, rest) := decodeDigits table cs
        (x.toNat :: val, rest)

/-- The `'='` loop of the decoders: how many `'='` it passes, and whether it
    stops at the end of the C string rather than at another character. -/
def decodePadding : List UInt8 → Nat × Bool
  | [] => (0, true)
  | c :: cs =>
    if c = 0 then (0, true)
    else if c ≠ '='.toUInt8 then (0, false)
    else
      let (n, ok) := decodePadding cs
      (n + 1, ok)

/-- `DecodeBase64(const char* p, pf_invalid)` and `DecodeBase32`: the bytes
    decoded, and `*pf_invalid`. -/
def decodeBaseNCStr (table : List Int) (frombits quantum : Nat) (p : List UInt8) : List UInt8 × Bool :=
  let (val, rest) := decodeDigits table p
  let (ret, valid) := convertBits frombits 8 false val
  -- `while (valid && *p != 0)`: the loop runs only after a valid regrouping
  let (npad, ok) := if valid then decodePadding rest else (0, true)
  let valid := valid && ok && (val.length + npad) % quantum == 0 && npad < quantum
  (ret.map UInt8.ofNat, !valid)

/-- `DecodeBase64(const std::string& str, pf_invalid)` and `DecodeBase32`:
    a string with a zero byte is invalid. -/
def decodeBaseN (table : List Int) (frombits quantum : Nat) (str : List UInt8) : List UInt8 × Bool :=
  if !validAsCString str then ([], true) else decodeBaseNCStr table frombits quantum str

def pbase64 : List UInt8 := "ABCDEFGHIJKLMNOPQRSTUVWXYZabcdefghijklmnopqrstuvwxyz0123456789+/".toList.map Char.toUInt8

def decode64_table : List Int := [
  -1, -1, -1, -1, -1, -1, -1, -1, -1, -1, -1, -1, -1, -1, -1, -1, -1, -1, -1, -1,
  -1, -1, -1, -1, -1, -1, -1, -1, -1, -1, -1, -1, -1, -1, -1, -1, -1, -1, -1, -1,
  -1, -1, -1, 62, -1, -1, -1, 63, 52, 53, 54, 55, 56, 57, 58, 59, 60, 61, -1, -1,
  -1, -1, -1, -1, -1,  0,  1,  2,  3,  4,  5,  6,  7,  8,  9, 10, 11, 12, 13, 14,
  15, 16, 17, 18, 19, 20, 21, 22, 23, 24, 25, -1, -1, -1, -1, -1, -1, 26, 27, 28,
  29, 30, 31, 32, 33, 34, 35, 36, 37, 38, 39, 40, 41, 42, 43, 44, 45, 46, 47, 48,
  49, 50, 51, -1, -1, -1, -1, -1, -1, -1, -1, -1, -1, -1, -1, -1, -1, -1, -1, -1,
  -1, -1, -1, -1, -1, -1, -1, -1, -1, -1, -1, -1, -1, -1, -1, -1, -1, -1, -1, -1,
  -1, -1, -1, -1, -1, -1, -1, -1, -1, -1, -1, -1, -1, -1, -1, -1, -1, -1, -1, -1,
  -1, -1, -1, -1, -1, -1, -1, -1, -1, -1, -1, -1, -1, -1, -1, -1, -1, -1, -1, -1,
  -1, -1, -1, -1, -1, -1, -1, -1, -1, -1, -1, -1, -1, -1, -1, -1, -1, -1, -1, -1,
  -1, -1, -1, -1, -1, -1, -1, -1, -1, -1, -1, -1, -1, -1, -1, -1, -1, -1, -1, -1,
  -1, -1, -1, -1, -1, -1, -1, -1, -1, -1, -1, -1, -1, -1, -1, -1
]

def pbase32 : List UInt8 := "abcdefghijklmnopqrstuvwxyz234567".toList.map Char.toUInt8

def decode32_table : List Int := [
  -1, -1, -1, -1, -1, -1, -1, -1, -1, -1, -1, -1, -1, -1, -1, -1, -1, -1, -1, -1,
  -1, -1, -1, -1, -1, -1, -1, -1, -1, -1, -1, -1, -1, -1, -1, -1, -1, -1, -1, -1,
  -1, -1, -1, -1, -1, -1, -1, -1, -1, -1, 26, 27, 28, 29, 30, 31, -1, -1, -1, -1,
  -1, -1, -1, -1, -1,  0,  1,  2,  3,  4,  5,  6,  7,  8,  9, 10, 11, 12, 13, 14,
  15, 16, 17, 18, 19, 20, 21, 22, 23, 24, 25, -1, -1, -1, -1, -1, -1,  0,  1,  2,
   3,  4,  5,  6,  7,  8,  9, 10, 11, 12, 13, 14, 15, 16, 17, 18, 19, 20, 21, 22,
  23, 24, 25, -1, -1, -1, -1, -1, -1, -1, -1, -1, -1, -1, -1, -1, -1, -1, -1, -1,
  -1, -1, -1, -1, -1, -1, -1, -1, -1, -1, -1, -1, -1, -1, -1, -1, -1, -1, -1, -1,
  -1, -1, -1, -1, -1, -1, -1, -1, -1, -1, -1, -1, -1, -1, -1, -1, -1, -1, -1, -1,
  -1, -1, -1, -1, -1, -1, -1, -1, -1, -1, -1, -1, -1, -1, -1, -1, -1, -1, -1, -1,
  -1, -1, -1, -1, -1, -1, -1, -1, -1, -1, -1, -1, -1, -1, -1, -1, -1, -1, -1, -1,
  -1, -1, -1, -1, -1, -1, -1, -1, -1, -1, -1, -1, -1, -1, -1, -1, -1, -1, -1, -1,
  -1, -1, -1, -1, -1, -1, -1, -1, -1, -1, -1, -1, -1, -1, -1, -1
]

/-- `EncodeBase64(input)`. -/
def encodeBase64 (input : List UInt8) : List UInt8 := encodeBaseN pbase64 6 4 true input

/-- `DecodeBase64(str, pf_invalid)`. -/
def decodeBase64 (str : List UInt8) : List UInt8 × Bool := decodeBaseN decode64_table 6 4 str

/-- `EncodeBase32(input, pad)`. -/
def encodeBase32 (input : List UInt8) (pad : Bool) : List UInt8 := encodeBaseN pbase32 5 8 pad input

/-- `DecodeBase32(str, pf_invalid)`. -/
def decodeBase32 (str : List UInt8) : List UInt8 × Bool := decodeBaseN decode32_table 5 8 str

end Revo
