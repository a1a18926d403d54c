/-
  Revo.Pow.Pow

  The retarget of `pow.cpp`: the target of the next block from the last
  block's target and the time it took.

    * `mul_exp(a, p, q)` is `a * exp(p / q)` by the exponential series in
      `arith_uint256`, each term floored, the odd ones subtracted when
      `p < 0`, until a term is `0`.
    * `CalculateNextWorkRequired` clamps the actual spacing, then before
      QIP9 scales the target linearly and from QIP9 on by `mul_exp`; a
      target that is `0` or above `GetLimit` becomes the limit.

  The operand types are the source's: in `a * abs_p` the `uint64_t` converts
  to the `uint32_t` of `operator*`, so it is taken modulo `2 ^ 32`; a divisor
  is a `base_uint(uint64_t)`; the counter `n` is a `uint64_t`, so after
  `2 ^ 64` rounds it wraps to `0` and the division by it throws.  The
  `int64_t` arithmetic on spacings and heights is exact.
-/

import Revo.Arith.ArithUint256
import Revo.Consensus.Params

namespace Revo

open BaseUint ArithUint256

/-! ## `mul_exp` -/

/-- The `while (a > 0)` loop of `mul_exp`, from the term `a`, the sum
    `result` and the counter `n`, with `fuel` rounds before `++n` wraps. -/
def mulExpLoop (abs_p q : Nat) (isNegative : Bool) :
    Nat → ArithUint256 → ArithUint256 → Nat → Except String ArithUint256
  | 0, _, result, _ => .ok result
  | fuel + 1, a, result, n =>
    if a.compareTo (ofUInt64 0) > 0 then do
      let n := (n + 1) % 2 ^ 64
      let a ← (a.mulU32 (UInt32.ofNat abs_p)).div (ofUInt64 q)
      let a ← a.div (ofUInt64 n)
      let result := if isNegative && n % 2 == 1 then result.sub a else result.add a
      mulExpLoop abs_p q isNegative fuel a result n
    else .ok result

/-- `mul_exp(a, p, q)`.  The counter starts at `0`, so the `2 ^ 64` rounds
    of fuel are every round the source can make: the next one divides by
    `0`. -/
def mulExp (a : ArithUint256) (p q : Int) : Except String ArithUint256 :=
  let isNegative := decide (p < 0)
  let abs_p := (if p ≥ 0 then p else -p).toNat % 2 ^ 64
  mulExpLoop abs_p (q % 2 ^ 64).toNat isNegative (2 ^ 64) a a 0

/-! ## `GetLimit` -/

def getLimit (nHeight : Int) (params : ConsensusParams) (fProofOfStake : Bool) : ArithUint256 :=
  if fProofOfStake then
    if nHeight < params.QIP9Height then params.posLimit
    else if nHeight < params.nReduceBlocktimeHeight then params.QIP9PosLimit
    else params.RBTPosLimit
  else params.powLimit

/-! ## `CalculateNextWorkRequired` -/

/-- The fields of a `CBlockIndex` the retarget reads. -/
structure BlockIndex where
  nHeight : Int
  nBits : UInt32
  nTime : UInt32

/-- `GetBlockTime()`: `nTime` as an `int64_t`. -/
def BlockIndex.getBlockTime (pindex : BlockIndex) : Int := pindex.nTime.toNat

/-- The two `if`s on `nActualSpacing`: a negative spacing counts as the
    target spacing, and one above `factor` target spacings as that many. -/
def limitSpacing (nTargetSpacing factor nActualSpacing : Int) : Int :=
  let nActualSpacing := if nActualSpacing < 0 then nTargetSpacing else nActualSpacing
  if nActualSpacing > nTargetSpacing * factor then nTargetSpacing * factor else nActualSpacing

/-- An `int64_t` converted to the `uint32_t` of `operator*=`. -/
def truncUInt32 (x : Int) : UInt32 := UInt32.ofNat (x % 2 ^ 32).toNat

/-- The retarget before QIP9: `bnNew *= (nInterval - 1) * nTargetSpacing +
    2 * nActualSpacing` and `bnNew /= (nInterval + 1) * nTargetSpacing`, the
    spacing clamped to `10` target spacings. -/
def retargetLinear (bnNew : ArithUint256) (nInterval nTargetSpacing nActualSpacing : Int) :
    Except String ArithUint256 :=
  let nActualSpacing := limitSpacing nTargetSpacing 10 nActualSpacing
  let bnNew := bnNew.mulU32
    (truncUInt32 ((nInterval - 1) * nTargetSpacing + nActualSpacing + nActualSpacing))
  bnNew.div (ofUInt64 (((nInterval + 1) * nTargetSpacing) % 2 ^ 64).toNat)

/-- The retarget from QIP9 on: `mul_exp` with `p = 2 * (nActualSpacing -
    nTargetSpacing)` and `q = (nInterval + 1) * nTargetSpacing`, both over
    `stakeTimestampMask + 1`, the spacing clamped to `20` target spacings. -/
def retargetExp (bnNew : ArithUint256) (nInterval nTargetSpacing nActualSpacing : Int)
    (stakeTimestampMask : UInt32) : Except String ArithUint256 := do
  let nActualSpacing := limitSpacing nTargetSpacing 20 nActualSpacing
  -- `stakeTimestampMask + 1` is a `uint32_t`; an `int64_t` division by `0` has no value
  let divisor : Int := (stakeTimestampMask + 1).toNat
  if divisor = 0 then throw "division by zero"
  mulExp bnNew (Int.tdiv (2 * (nActualSpacing - nTargetSpacing)) divisor)
    (Int.tdiv ((nInterval + 1) * nTargetSpacing) divisor)

/-- `if (bnNew <= 0 || bnNew > bnTargetLimit) bnNew = bnTargetLimit`. -/
def clampTarget (bnTargetLimit bnNew : ArithUint256) : ArithUint256 :=
  if bnNew.compareTo (ofUInt64 0) ≤ 0 || bnNew.compareTo bnTargetLimit > 0 then bnTargetLimit else bnNew

/-- `CalculateNextWorkRequired(pindexLast, nFirstBlockTime, params,
    fProofOfStake)`: the compact target of the block after `pindexLast`. -/
def calculateNextWorkRequired (pindexLast : BlockIndex) (nFirstBlockTime : Int)
    (params : ConsensusParams) (fProofOfStake : Bool) : Except String UInt32 := do
  if (if fProofOfStake then params.fPoSNoRetargeting else params.fPowNoRetargeting) then
    return pindexLast.nBits
  let nHeight := pindexLast.nHeight + 1
  let nTargetSpacing := params.targetSpacing nHeight
  let nActualSpacing := pindexLast.getBlockTime - nFirstBlockTime
  let bnTargetLimit := getLimit nHeight params fProofOfStake
  let bnNew := (setCompact pindexLast.nBits).1
  let nInterval := params.difficultyAdjustmentInterval nHeight
  let bnNew ←
    if nHeight < params.QIP9Height then retargetLinear bnNew nInterval nTargetSpacing nActualSpacing
    else retargetExp bnNew nInterval nTargetSpacing nActualSpacing (params.stakeTimestampMask nHeight)
  (clampTarget bnTargetLimit bnNew).getCompact false

end Revo
