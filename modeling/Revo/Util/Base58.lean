/-
  Revo.Util.Base58

  The Base58 codec of `base58.cpp`.  Both directions are schoolbook base
  conversions into a big-endian buffer sized by a rounded ratio of
  logarithms, with the number of digits in use, `length`, kept apart from
  it: each input digit multiplies the buffer by the input base and adds
  itself, from the least significant end (`mulAddLoop`, the inner loop of
  both), and `assert(carry == 0)` checks that the buffer sufficed.  Leading
  zero bytes are leading `'1'`s.

  A buffer is held least significant digit first, the order in which the
  reverse iterators walk it; `b256.begin() + (size - length)` is then the
  reverse of its first `length` digits.  The buffer sizes are computed in
  `size_t` and stored in an `int`, which is `Int32.ofNat`: it wraps for
  inputs of over one and a half billion bytes, and a negative size makes
  the `std::vector` constructor throw.  The other `int` counters stay below
  the length of the input and are computed on `Nat`, `max_ret_len` on
  `Int`.  A call that throws or fails an assertion is `.error`; `return
  false` is `.ok none`.  `Hash`, the double SHA-256 of `EncodeBase58Check`,
  is a parameter: the 32 bytes of the `uint256` it returns.
-/

import Revo.Util.StrEncodings
import Mathlib

namespace Revo

/-- `pszBase58`: all alphanumeric characters except `0`, `I`, `O` and `l`. -/
def pszBase58 : List UInt8 := "123456789ABCDEFGHJKLMNPQRSTUVWXYZabcdefghijkmnopqrstuvwxyz".toList.map Char.toUInt8

/-- `mapBase58`: the digit of each character, `-1` for none. -/
def mapBase58 : List Int := [
  -1, -1, -1, -1, -1, -1, -1, -1,  -1, -1, -1, -1, -1, -1, -1, -1,
  -1, -1, -1, -1, -1, -1, -1, -1,  -1, -1, -1, -1, -1, -1, -1, -1,
  -1, -1, -1, -1, -1, -1, -1, -1,  -1, -1, -1, -1, -1, -1, -1, -1,
  -1, 0, 1, 2, 3, 4, 5, 6,  7, 8, -1, -1, -1, -1, -1, -1,
  -1, 9, 10, 11, 12, 13, 14, 15,  16, -1, 17, 18, 19, 20, 21, -1,
  22, 23, 24, 25, 26, 27, 28, 29,  30, 31, 32, -1, -1, -1, -1, -1,
  -1, 33, 34, 35, 36, 37, 38, 39,  40, 41, 42, 43, -1, 44, 45, 46,
  47, 48, 49, 50, 51, 52, 53, 54,  55, 56, 57, -1, -1, -1, -1, -1,
  -1, -1, -1, -1, -1, -1, -1, -1,  -1, -1, -1, -1, -1, -1, -1, -1,
  -1, -1, -1, -1, -1, -1, -1, -1,  -1, -1, -1, -1, -1, -1, -1, -1,
  -1, -1, -1, -1, -1, -1, -1, -1,  -1, -1, -1, -1, -1, -1, -1, -1,
  -1, -1, -1, -1, -1, -1, -1, -1,  -1, -1, -1, -1, -1, -1, -1, -1,
  -1, -1, -1, -1, -1, -1, -1, -1,  -1, -1, -1, -1, -1, -1, -1, -1,
  -1, -1, -1, -1, -1, -1, -1, -1,  -1, -1, -1, -1, -1, -1, -1, -1,
  -1, -1, -1, -1, -1, -1, -1, -1,  -1, -1, -1, -1, -1, -1, -1, -1,
  -1, -1, -1, -1, -1, -1, -1, -1,  -1, -1, -1, -1, -1, -1, -1, -1]

/-- The inner loop of both conversions, from the least significant digit of
    the buffer: `carry += r * (*it); *it = carry % b; carry /= b` while
    `carry != 0 || i < length`, up to the end of the buffer.  The buffer
    afterwards, the carry left and `i`. -/
def mulAddLoop (b r length : Nat) : Nat → Nat → List Nat → List Nat × Nat × Nat
  | carry, i, [] => ([], carry, i)
  | carry, i, d :: ds =>
    if carry ≠ 0 ∨ i < length then
      let carry := carry + r * d
      let rest := mulAddLoop b r length (carry / b) (i + 1) ds
      (carry % b :: rest.1, rest.2)
    else (d :: ds, carry, i)

theorem mulAddLoop_nil (b r length carry i : Nat) : mulAddLoop b r length carry i [] = ([], carry, i) := rfl

theorem mulAddLoop_cons (b r length carry i d : Nat) (ds : List Nat) :
    mulAddLoop b r length carry i (d :: ds) =
      if carry ≠ 0 ∨ i < length then
        ((carry + r * d) % b :: (mulAddLoop b r length ((carry + r * d) / b) (i + 1) ds).1,
          (mulAddLoop b r length ((carry + r * d) / b) (i + 1) ds).2)
      else (d :: ds, carry, i) := rfl

/-- The `while (input.size() > 0)` loop of `EncodeBase58`: `b58 = b58 * 256 + ch`
    for each byte, and `length` after it. -/
def encodeLoop (b58 : List Nat) (length : Nat) : List UInt8 → Except String (List Nat × Nat)
  | [] => .ok (b58, length)
  | ch :: input =>
    let r := mulAddLoop 58 256 length ch.toNat 0 b58
    if r.2.1 ≠ 0 then .error "assert(carry == 0)" else encodeLoop r.1 r.2.2 input

theorem encodeLoop_cons (b58 : List Nat) (length : Nat) (ch : UInt8) (input : List UInt8) :
    encodeLoop b58 length (ch :: input) =
      if (mulAddLoop 58 256 length ch.toNat 0 b58).2.1 ≠ 0 then .error "assert(carry == 0)"
      else encodeLoop (mulAddLoop 58 256 length ch.toNat 0 b58).1 (mulAddLoop 58 256 length ch.toNat 0 b58).2.2 input :=
  rfl

/-- `EncodeBase58(input)`. -/
def encodeBase58 (input : List UInt8) : Except String (List UInt8) := do
  let zeroes := (input.takeWhile (· = 0)).length
  let input := input.dropWhile (· = 0)
  let size := (Int32.ofNat (input.length * 138 / 100 + 1)).toInt
  if size < 0 then throw "cannot create std::vector larger than max_size()"
  let (b58, length) ← encodeLoop (List.replicate size.toNat 0) 0 input
  -- skip the leading zeroes of the result
  let digits := (b58.take length).reverse.dropWhile (· = 0)
  return List.replicate zeroes '1'.toUInt8 ++ digits.map fun d => pszBase58.getD d 0

/-- The `while (*psz == '1')` loop of `DecodeBase58`: the leading `'1'`s
    counted into `zeroes`, `none` once there are more than `max_ret_len`. -/
def skipOnes (max_ret_len : Int) : Nat → List UInt8 → Option (Nat × List UInt8)
  | zeroes, [] => some (zeroes, [])
  | zeroes, c :: psz =>
    if c = '1'.toUInt8 then
      if ((zeroes + 1 : Nat) : Int) > max_ret_len then none else skipOnes max_ret_len (zeroes + 1) psz
    else some (zeroes, c :: psz)

theorem skipOnes_nil (max_ret_len : Int) (zeroes : Nat) : skipOnes max_ret_len zeroes [] = some (zeroes, []) := rfl

theorem skipOnes_cons (max_ret_len : Int) (zeroes : Nat) (c : UInt8) (psz : List UInt8) :
    skipOnes max_ret_len zeroes (c :: psz) =
      if c = '1'.toUInt8 then
        if ((zeroes + 1 : Nat) : Int) > max_ret_len then none else skipOnes max_ret_len (zeroes + 1) psz
      else some (zeroes, c :: psz) := rfl

/-- The `while (*psz && !IsSpace(*psz))` loop of `DecodeBase58`: each base58
    digit gives `b256 = b256 * 58 + digit`.  `.ok none` for `return false`,
    and otherwise the buffer, `length` and where `psz` stops. -/
def decodeLoop (max_ret_len : Int) (zeroes : Nat) (b256 : List Nat) (length : Nat) :
    List UInt8 → Except String (Option (List Nat × Nat × List UInt8))
  | [] => .ok (some (b256, length, []))
  | c :: psz =>
    if isSpace c then .ok (some (b256, length, c :: psz))
    else
      let carry := mapBase58.getD c.toNat (-1)
      if carry = -1 then .ok none
      else
        let r := mulAddLoop 256 58 length carry.toNat 0 b256
        if r.2.1 ≠ 0 then .error "assert(carry == 0)"
        else if ((r.2.2 + zeroes : Nat) : Int) > max_ret_len then .ok none
        else decodeLoop max_ret_len zeroes r.1 r.2.2 psz

theorem decodeLoop_nil (max_ret_len : Int) (zeroes : Nat) (b256 : List Nat) (length : Nat) :
    decodeLoop max_ret_len zeroes b256 length [] = .ok (some (b256, length, [])) := rfl

theorem decodeLoop_cons (max_ret_len : Int) (zeroes : Nat) (b256 : List Nat) (length : Nat) (c : UInt8)
    (psz : List UInt8) :
    decodeLoop max_ret_len zeroes b256 length (c :: psz) =
      if isSpace c then .ok (some (b256, length, c :: psz))
      else if mapBase58.getD c.toNat (-1) = -1 then .ok none
      else if (mulAddLoop 256 58 length (mapBase58.getD c.toNat (-1)).toNat 0 b256).2.1 ≠ 0 then
        .error "assert(carry == 0)"
      else if (((mulAddLoop 256 58 length (mapBase58.getD c.toNat (-1)).toNat 0 b256).2.2 + zeroes : Nat) : Int) >
          max_ret_len then .ok none
      else decodeLoop max_ret_len zeroes (mulAddLoop 256 58 length (mapBase58.getD c.toNat (-1)).toNat 0 b256).1
        (mulAddLoop 256 58 length (mapBase58.getD c.toNat (-1)).toNat 0 b256).2.2 psz := rfl

/-- `DecodeBase58(const char* psz, vch, max_ret_len)`: the C string runs to
    the end of the list.  The bytes decoded, `none` for `false`. -/
def decodeBase58CStr (psz : List UInt8) (max_ret_len : Int) : Except String (Option (List UInt8)) := do
  let psz := psz.dropWhile isSpace
  match skipOnes max_ret_len 0 psz with
  | none => return none
  | some (zeroes, psz) =>
    let size := (Int32.ofNat (psz.length * 733 / 1000 + 1)).toInt
    if size < 0 then throw "cannot create std::vector larger than max_size()"
    match ← decodeLoop max_ret_len zeroes (List.replicate size.toNat 0) 0 psz with
    | none => return none
    | some (b256, length, psz) =>
      -- trailing spaces, then the end of the string
      if psz.dropWhile isSpace ≠ [] then return none
      return some (List.replicate zeroes 0 ++ (b256.take length).reverse.map UInt8.ofNat)

/-- `DecodeBase58(const std::string& str, vchRet, max_ret_len)`. -/
def decodeBase58 (str : List UInt8) (max_ret_len : Int) : Except String (Option (List UInt8)) :=
  if !validAsCString str then .ok none else decodeBase58CStr str max_ret_len

section Check

variable (hash : List UInt8 → Vector UInt8 32)

/-- `EncodeBase58Check(input)`: the first four bytes of `Hash(input)`
    appended. -/
def encodeBase58Check (input : List UInt8) : Except String (List UInt8) :=
  encodeBase58 (input ++ (hash input).toList.take 4)

/-- `DecodeBase58Check(const char* psz, vchRet, max_ret_len)`. -/
def decodeBase58CheckCStr (psz : List UInt8) (max_ret_len : Int) : Except String (Option (List UInt8)) := do
  let limit : Int := if max_ret_len > 2147483647 - 4 then 2147483647 else max_ret_len + 4
  match ← decodeBase58CStr psz limit with
  | none => return none
  | some vchRet =>
    if vchRet.length < 4 then return none
    -- re-calculate the checksum
    if (hash (vchRet.take (vchRet.length - 4))).toList.take 4 ≠ vchRet.drop (vchRet.length - 4) then return none
    return some (vchRet.take (vchRet.length - 4))

/-- `DecodeBase58Check(const std::string& str, vchRet, max_ret)`. -/
def decodeBase58Check (str : List UInt8) (max_ret : Int) : Except String (Option (List UInt8)) :=
  if !validAsCString str then .ok none else decodeBase58CheckCStr hash str max_ret

end Check

end Revo
