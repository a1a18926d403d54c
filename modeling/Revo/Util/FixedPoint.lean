/-
  Revo.Util.FixedPoint

  `ParseFixedPoint` (`util/strencodings.cpp`): a JSON number read as a
  fixed-point amount with `decimals` digits after the point.

    * `ProcessMantissaDigit` keeps the mantissa without its trailing zeros
      and counts them; it multiplies them in only before the next digit that
      is not `0`, checking that the mantissa stays below `10 ^ 18`.
    * The digits after the point are counted, and the exponent, that count,
      the trailing zeros and `decimals` are folded into one exponent, which
      must lie in `[0, 18)`; the mantissa is then scaled by it.

  The string is a list of characters and a position is the rest of it from
  there.  The `int` positions and counters are exact, as they are for
  strings of fewer than `2 ^ 31` characters; the checks of the source keep
  the `int64_t` mantissa and exponent below `10 ^ 18`, so they are exact
  too.
-/

import Mathlib.Data.BitVec

namespace Revo

/-- `IsDigit(c)`: `c >= '0' && c <= '9'`. -/
def isDigit (c : Char) : Bool := '0' ≤ c && c ≤ '9'

/-- `ch - '0'`. -/
def digitValue (ch : Char) : Nat := ch.toNat - '0'.toNat

/-- `UPPER_BOUND`: `10 ^ 18 - 1`, the largest mantissa. -/
def UPPER_BOUND : Int := 1000000000000000000 - 1

/-! ## The mantissa and the exponent -/

/-- The `for (int i = 0; i <= mantissa_tzeros; ++i)` loop of
    `ProcessMantissaDigit`, with `k` multiplications by ten left. -/
def mulTenLoop : Nat → Int → Option Int
  | 0, mantissa => some mantissa
  | k + 1, mantissa => if mantissa > UPPER_BOUND / 10 then none else mulTenLoop k (mantissa * 10)

/-- `ProcessMantissaDigit(ch, mantissa, mantissa_tzeros)`: the new mantissa
    and count of trailing zeros, `none` on overflow. -/
def processMantissaDigit (ch : Char) (mantissa : Int) (mantissa_tzeros : Nat) : Option (Int × Nat) :=
  if ch = '0' then some (mantissa, mantissa_tzeros + 1)
  else (mulTenLoop (mantissa_tzeros + 1) mantissa).map fun mantissa => (mantissa + digitValue ch, 0)

/-- `while (ptr < end && IsDigit(val[ptr]))` over the digits of the
    mantissa; after the point, `point_ofs` counts them. -/
def mantissaDigits (afterPoint : Bool) : List Char → Int → Nat → Nat → Option (List Char × Int × Nat × Nat)
  | [], mantissa, mantissa_tzeros, point_ofs => some ([], mantissa, mantissa_tzeros, point_ofs)
  | ch :: rest, mantissa, mantissa_tzeros, point_ofs =>
    if isDigit ch then
      match processMantissaDigit ch mantissa mantissa_tzeros with
      | none => none  -- overflow
      | some (mantissa, mantissa_tzeros) =>
        mantissaDigits afterPoint rest mantissa mantissa_tzeros (if afterPoint then point_ofs + 1 else point_ofs)
    else some (ch :: rest, mantissa, mantissa_tzeros, point_ofs)

/-- The digit loop of the exponent. -/
def exponentDigits : List Char → Int → Option (List Char × Int)
  | [], exponent => some ([], exponent)
  | ch :: rest, exponent =>
    if isDigit ch then
      if exponent > UPPER_BOUND / 10 then none  -- overflow
      else exponentDigits rest (exponent * 10 + digitValue ch)
    else some (ch :: rest, exponent)

/-! ## The parts of a number -/

/-- An optional `-`. -/
def readMinus : List Char → Bool × List Char
  | '-' :: rest => (true, rest)
  | s => (false, s)

/-- The integer part: one `0`, or digits with `1` to `9` first. -/
def parseIntPart : List Char → Option (List Char × Int × Nat)
  | [] => none  -- empty string or loose '-'
  | ch :: rest =>
    if ch = '0' then some (rest, 0, 0)  -- pass single 0
    else if '1' ≤ ch ∧ ch ≤ '9' then
      (mantissaDigits false (ch :: rest) 0 0 0).map fun (rest, mantissa, mantissa_tzeros, _) =>
        (rest, mantissa, mantissa_tzeros)
    else none  -- missing expected digit

/-- An optional `.` and at least one digit. -/
def parseFracPart (s : List Char) (mantissa : Int) (mantissa_tzeros : Nat) :
    Option (List Char × Int × Nat × Nat) :=
  match s with
  | '.' :: rest =>
    match rest with
    | ch :: _ => if isDigit ch then mantissaDigits true rest mantissa mantissa_tzeros 0 else none
    | [] => none  -- missing expected digit
  | _ => some (s, mantissa, mantissa_tzeros, 0)

/-- The sign after `e` or `E`. -/
def readExponentSign : List Char → Bool × List Char
  | '+' :: rest => (false, rest)
  | '-' :: rest => (true, rest)
  | s => (false, s)

/-- An optional `e` or `E`, a sign and at least one digit: the sign and the
    digits of the exponent. -/
def parseExpPart : List Char → Option (List Char × Bool × Int)
  | [] => some ([], false, 0)
  | ch :: rest =>
    if ch = 'e' ∨ ch = 'E' then
      let (exponent_sign, rest) := readExponentSign rest
      match rest with
      | d :: _ =>
        if isDigit d then (exponentDigits rest 0).map fun (rest, exponent) => (rest, exponent_sign, exponent)
        else none
      | [] => none  -- missing expected digit
    else some (ch :: rest, false, 0)

/-! ## `ParseFixedPoint` -/

/-- The loop `for (int i = 0; i < exponent; ++i)` scaling the mantissa. -/
def scaleLoop : Nat → Int → Option Int
  | 0, mantissa => some mantissa
  | k + 1, mantissa =>
    if mantissa > UPPER_BOUND / 10 ∨ mantissa < -(UPPER_BOUND / 10) then none  -- overflow
    else scaleLoop k (mantissa * 10)

/-- From the parts of the number: the one exponent, and the mantissa scaled
    by it. -/
def finalizeFixedPoint (mantissa_sign exponent_sign : Bool) (mantissa exponent : Int)
    (mantissa_tzeros point_ofs : Nat) (decimals : Int) : Option Int :=
  let exponent := (if exponent_sign then -exponent else exponent) - point_ofs + mantissa_tzeros
  let mantissa := if mantissa_sign then -mantissa else mantissa
  let exponent := exponent + decimals
  if exponent < 0 then none  -- cannot represent values smaller than 10^-decimals
  else if exponent ≥ 18 then none  -- cannot represent values larger than or equal to 10^(18-decimals)
  else
    match scaleLoop exponent.toNat mantissa with
    | none => none
    | some mantissa => if mantissa > UPPER_BOUND ∨ mantissa < -UPPER_BOUND then none else some mantissa

/-- `ParseFixedPoint(val, decimals, &amount_out)`: the amount, or `none`
    where it returns `false`. -/
def parseFixedPoint (val : List Char) (decimals : Int) : Option Int := do
  let (mantissa_sign, s) := readMinus val
  let (s, mantissa, mantissa_tzeros) ← parseIntPart s
  let (s, mantissa, mantissa_tzeros, point_ofs) ← parseFracPart s mantissa mantissa_tzeros
  let (s, exponent_sign, exponent) ← parseExpPart s
  if s = [] then finalizeFixedPoint mantissa_sign exponent_sign mantissa exponent mantissa_tzeros point_ofs decimals
  else none  -- trailing garbage

example : parseFixedPoint "-12.345e1".toList 8 = some (-12345000000) := by decide

example : parseFixedPoint "01".toList 8 = none := by decide

end Revo
