/-
  Revo.Consensus.Params

  The consensus parameters the modelled code reads (`Consensus::Params`,
  `consensus/params.h`) and their accessors by height: a height from
  `nReduceBlocktimeHeight` on takes the reduced block time's spacing and
  stake mask, and one from `QIP9Height` on the second target timespan.
  The `uint256` limits are kept as the `arith_uint256` that `UintToArith256`
  makes of them.

  `mainParams` holds the values of `CMainParams` and `regtestParams` those
  of `CRegTestParams` (`chainparams.cpp`);
  `updateDifficultyChangeBlockHeight` is what `-difficultychangeheight` does
  to the regression-test chain.
-/

import Revo.Arith.ArithUint256

namespace Revo

/-- `Consensus::Params`, the fields of it that are modelled. -/
structure ConsensusParams where
  QIP9Height : Int
  nReduceBlocktimeHeight : Int
  powLimit : ArithUint256
  posLimit : ArithUint256
  QIP9PosLimit : ArithUint256
  RBTPosLimit : ArithUint256
  fPowNoRetargeting : Bool
  fPoSNoRetargeting : Bool
  nPowTargetSpacing : Int
  nRBTPowTargetSpacing : Int
  nPowTargetTimespan : Int
  nPowTargetTimespanV2 : Int
  nRBTPowTargetTimespan : Int
  nLastBigReward : Int
  nStakeTimestampMask : UInt32
  nRBTStakeTimestampMask : UInt32

namespace ConsensusParams

def stakeTimestampMask (params : ConsensusParams) (height : Int) : UInt32 :=
  if height < params.nReduceBlocktimeHeight then params.nStakeTimestampMask
  else params.nRBTStakeTimestampMask

def targetSpacing (params : ConsensusParams) (height : Int) : Int :=
  if height < params.nReduceBlocktimeHeight then params.nPowTargetSpacing
  else params.nRBTPowTargetSpacing

def targetTimespan (params : ConsensusParams) (height : Int) : Int :=
  if height < params.QIP9Height then params.nPowTargetTimespan
  else if height < params.nReduceBlocktimeHeight then params.nPowTargetTimespanV2
  else params.nRBTPowTargetTimespan

/-- `DifficultyAdjustmentInterval`: an `int64_t` division, which truncates. -/
def difficultyAdjustmentInterval (params : ConsensusParams) (height : Int) : Int :=
  Int.tdiv (params.targetTimespan height) (params.targetSpacing height)

end ConsensusParams

/-- `0000ffff…ff`, the proof-of-work limit and first proof-of-stake limit of
    the main chain. -/
def mainPowLimit : ArithUint256 :=
  ⟨[0xffffffff, 0xffffffff, 0xffffffff, 0xffffffff, 0xffffffff, 0xffffffff, 0xffffffff, 0x0000ffff],
    rfl⟩

/-- `0000000000001fff…ff`, the proof-of-stake limit of the main chain from
    QIP9 on. -/
def mainQIP9PosLimit : ArithUint256 :=
  ⟨[0xffffffff, 0xffffffff, 0xffffffff, 0xffffffff, 0xffffffff, 0xffffffff, 0x00001fff, 0x00000000],
    rfl⟩

/-- The consensus parameters of `CMainParams`. -/
def mainParams : ConsensusParams where
  QIP9Height := 0
  nReduceBlocktimeHeight := 1
  powLimit := mainPowLimit
  posLimit := mainPowLimit
  QIP9PosLimit := mainQIP9PosLimit
  RBTPosLimit := mainQIP9PosLimit
  fPowNoRetargeting := true
  fPoSNoRetargeting := false
  nPowTargetSpacing := 32
  nRBTPowTargetSpacing := 32
  nPowTargetTimespan := 8 * 60
  nPowTargetTimespanV2 := 4000
  nRBTPowTargetTimespan := 1000
  nLastBigReward := 5000
  nStakeTimestampMask := 3
  nRBTStakeTimestampMask := 3

/-- `7fff…ff`, every limit of the regression-test chain. -/
def regtestLimit : ArithUint256 :=
  ⟨[0xffffffff, 0xffffffff, 0xffffffff, 0xffffffff, 0xffffffff, 0xffffffff, 0xffffffff, 0x7fffffff],
    rfl⟩

/-- The consensus parameters of `CRegTestParams`. -/
def regtestParams : ConsensusParams where
  QIP9Height := 0
  nReduceBlocktimeHeight := 0
  powLimit := regtestLimit
  posLimit := regtestLimit
  QIP9PosLimit := regtestLimit
  RBTPosLimit := regtestLimit
  fPowNoRetargeting := true
  fPoSNoRetargeting := true
  nPowTargetSpacing := 2 * 64
  nRBTPowTargetSpacing := 32
  nPowTargetTimespan := 16 * 60
  nPowTargetTimespanV2 := 4000
  nRBTPowTargetTimespan := 1000
  nLastBigReward := 5000
  nStakeTimestampMask := 15
  nRBTStakeTimestampMask := 3

/-- `00000000ffff…ff`, the first proof-of-stake limit after
    `-difficultychangeheight`. -/
def difficultyChangePosLimit : ArithUint256 :=
  ⟨[0xffffffff, 0xffffffff, 0xffffffff, 0xffffffff, 0xffffffff, 0xffffffff, 0xffffffff, 0x00000000],
    rfl⟩

/-- `0000000000003fff…ff`, the reduced block time's proof-of-stake limit
    after `-difficultychangeheight`. -/
def difficultyChangeRBTPosLimit : ArithUint256 :=
  ⟨[0xffffffff, 0xffffffff, 0xffffffff, 0xffffffff, 0xffffffff, 0xffffffff, 0x00003fff, 0x00000000],
    rfl⟩

/-- `UpdateDifficultyChangeBlockHeight(nHeight)`: QIP9 moves to `nHeight`,
    with new proof-of-stake limits and proof-of-stake retargeting on. -/
def ConsensusParams.updateDifficultyChangeBlockHeight (params : ConsensusParams) (nHeight : Int) :
    ConsensusParams :=
  { params with
    posLimit := difficultyChangePosLimit
    QIP9PosLimit := mainQIP9PosLimit
    RBTPosLimit := difficultyChangeRBTPosLimit
    QIP9Height := nHeight
    fPowNoRetargeting := true
    fPoSNoRetargeting := false }

end Revo
