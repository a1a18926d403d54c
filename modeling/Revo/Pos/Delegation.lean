/-
  Revo.Pos.Delegation

  Offline staking: a super staker stakes a delegate's coin and keeps a fee
  of `f` percent of the reward (`pos.cpp`, `wallet/wallet.cpp`,
  `validation.cpp`).

    * `splitOfflineStakeReward` splits a reward `R` into the staker's
      `R * f / 100` and the delegate's rest;
    * `coinStakeDelegateReward` is the reward part of
      `CWallet::CreateCoinStakeFromDelegate`: inside the MPoS window the
      block reward is cut in `nMPoSRewardRecipients` pieces and the staker
      splits the first piece with the remainder;
    * `getDelegationFeeTx` reads the fee back from a coinstake, rounding up;
    * `checkReward` is the proof-of-stake check of `CheckReward`, with the
      delegate check `delegateRewardOk`.

  Amounts are `int64_t`; the model computes on `Int` with C++'s truncating
  division (`Int.tdiv`, `Int.tmod`).  For amounts up to `MAX_MONEY` no
  product the code forms (at most `100 * nReward`) reaches `2 ^ 63`, so the
  two agree there.
-/

import Revo.Coins.Coin

namespace Revo

/-- `SplitOfflineStakeReward(nReward, fee, nRewardOffline, nRewardStaker)`:
    `none` when it returns false, else `(nRewardOffline, nRewardStaker)`. -/
def splitOfflineStakeReward (nReward : CAmount) (fee : UInt8) : Option (CAmount × CAmount) :=
  if fee.toNat > 100 then none
  else
    let nRewardStaker := (nReward * fee.toNat).tdiv 100
    some (nReward - nRewardStaker, nRewardStaker)

/-- `IsDelegateOutputExist(inFee)`: a fee below 100 leaves the delegate an output. -/
def isDelegateOutputExist (inFee : Int) : Bool := decide (0 ≤ inFee) && decide (inFee < 100)

/-- The value of `vout[i]`, where the source reads it unchecked. -/
def voutValue (vout : List CTxOut) (i : Nat) : CAmount := (vout[i]?.map CTxOut.nValue).getD 0

/-- `GetDelegationFeeTx(tx, coin, delegateOutputExist)`: the staker's share of
    the reward in percent, rounded up, or `-1`. -/
def getDelegationFeeTx (tx : CTransaction) (coin : Coin) (delegateOutputExist : Bool) : Int :=
  let nValueCoin := coin.out.nValue
  let minVoutSize := if delegateOutputExist then 3 else 2
  if !tx.isCoinStake || tx.vout.length < minVoutSize || nValueCoin ≤ 0 then -1
  else
    let nValueStaker := voutValue tx.vout 1 - nValueCoin
    let nValueDelegate := if delegateOutputExist then voutValue tx.vout 2 else 0
    let nReward := nValueStaker + nValueDelegate
    if nReward ≤ 0 then -1
    else (nValueStaker * 100 + nReward - 1).tdiv nReward

/-! ## The reward split -/

/-- The MPoS consensus parameters. -/
structure MPoSParams where
  nFirstMPoSBlock : Int
  nLastMPoSBlock : Int
  nMPoSRewardRecipients : Int
  deriving DecidableEq, Repr

/-- Whether the block after `nPrevHeight` pays MPoS recipients. -/
def MPoSParams.inWindow (p : MPoSParams) (nPrevHeight : Int) : Bool :=
  decide (p.nFirstMPoSBlock ≤ nPrevHeight) && decide (nPrevHeight < p.nLastMPoSBlock)

/-- `rewardRecipients` of `CheckReward`. -/
def MPoSParams.rewardRecipients (p : MPoSParams) (nPrevHeight : Int) : Int :=
  if p.inWindow nPrevHeight then p.nMPoSRewardRecipients else 1

/-- The reward the staker splits with the delegate: the whole reward, or
    inside the MPoS window one piece plus the remainder. -/
def stakerReward (p : MPoSParams) (nPrevHeight : Int) (nTotalReward : CAmount) : CAmount :=
  if p.inWindow nPrevHeight then
    nTotalReward.tdiv p.nMPoSRewardRecipients + nTotalReward.tmod p.nMPoSRewardRecipients
  else nTotalReward

/-- The "Calculate reward" and "Set output amount" steps of
    `CreateCoinStakeFromDelegate`: `(vout[1].nValue, vout[2].nValue)` from
    the total reward, the fee and the super staker's credit, or `none`. -/
def coinStakeDelegateReward (p : MPoSParams) (nPrevHeight : Int) (nTotalReward : CAmount)
    (fee : UInt8) (nCredit : CAmount) : Option (CAmount × CAmount) :=
  if nTotalReward < 0 then none
  else
    (splitOfflineStakeReward (stakerReward p nPrevHeight nTotalReward) fee).map
      fun (nRewardOffline, nRewardStaker) => (nCredit + nRewardStaker, nRewardOffline)

/-! ## CheckReward -/

/-- Remove each of `vouts` from `outs` (`std::find`, then `erase`); `none`
    when one is missing. -/
def removeOutputs (outs : List CTxOut) : List CTxOut → Option (List CTxOut)
  | [] => some outs
  | v :: vs => if v ∈ outs then removeOutputs (outs.erase v) vs else none

/-- The delegate check of `CheckReward`: the staker's and the delegate's
    outputs, less the staked coin, are the reward left after the MPoS pieces. -/
def delegateRewardOk (blockReward gasRefunds : CAmount) (rewardRecipients : Int)
    (vout : List CTxOut) (nValueCoinPrev : CAmount) (delegateOutputExist : Bool) : Bool :=
  let splitReward := (blockReward - gasRefunds).tdiv rewardRecipients
  let nReward := blockReward - gasRefunds - splitReward * (rewardRecipients - 1)
  let nValueStaker := voutValue vout 1
  let nValueDelegate := if delegateOutputExist then voutValue vout 2 else 0
  nReward == nValueStaker + nValueDelegate - nValueCoinPrev

/-- `CheckReward` for a proof-of-stake block whose coinstake has outputs
    `vout`: refunds present, reward not exceeded, the delegate split right,
    and the MPoS outputs present (`getMPoSOutputs` is `GetMPoSOutputs`). -/
def checkReward (hasProofOfDelegation : Bool) (vout : List CTxOut) (nHeight : Int) (p : MPoSParams)
    (subsidy nFees gasRefunds nActualStakeReward : CAmount) (vouts : List CTxOut)
    (nValueCoinPrev : CAmount) (delegateOutputExist : Bool)
    (getMPoSOutputs : CAmount → Int → Option (List CTxOut)) : Except String Unit := do
  let some rest := removeOutputs vout vouts | throw "bad-gas-refund-missing"
  let blockReward := nFees + subsidy
  if nActualStakeReward > blockReward then throw "bad-cs-amount"
  let nPrevHeight := nHeight - 1
  let rewardRecipients := p.rewardRecipients nPrevHeight
  if rewardRecipients < 1 then throw "CheckReward(): invalid reward recipients"
  if blockReward < gasRefunds then throw "bad-cs-gas-greater-than-reward"
  let splitReward := (blockReward - gasRefunds).tdiv rewardRecipients
  if hasProofOfDelegation &&
      !delegateRewardOk blockReward gasRefunds rewardRecipients vout nValueCoinPrev delegateOutputExist then
    throw "bad-cs-delegate-reward"
  if rewardRecipients = 1 then return ()
  let some mposOutputList := getMPoSOutputs splitReward nPrevHeight
    | throw "CheckReward(): cannot create the list of MPoS outputs"
  let some _ := removeOutputs rest mposOutputList | throw "bad-cs-mpos-missing"
  return ()

end Revo
