/-
  Revo.Validation.ConnectBlock

  The fee and gas accounting of `CChainState::ConnectBlock`
  (`validation.cpp`).  For every transaction of the block, in order:

    * a transaction other than the coinbase adds its fee to `nFees`
      (`Consensus::CheckTxInputs`), which must stay in the money range;
    * a contract transaction (an `OP_CREATE` or `OP_CALL` output and no
      `OP_SPEND`) has its converted outputs checked: their gas stipend
      `sum(gas * gasPrice)` may exceed neither `INT64_MAX` nor the fee, their
      VM versions must be known and agree, and their gas must fit.  The
      results of their execution are then processed; the gas used is added
      to the block's and the refund outputs to `gasRefunds`.

  After the loop a block whose refunds exceed its fees is rejected.  Errors
  are the source's reject reasons.

  A transaction is what this loop reads of it (`BlockTx`): its kind, the
  values of the coins it spends and of its outputs, what the converter
  extracted from it, and the EVM's results for the extracted transactions.
-/

import Revo.Contract.ByteCodeExec

namespace Revo

/-- `MoneyRange`. -/
def MoneyRange (v : CAmount) : Bool := decide (0 ≤ v) && decide (v ≤ MAX_MONEY)

def MINIMUM_GAS_LIMIT : Nat := 10000
def UINT32_MAX : Nat := 2 ^ 32 - 1

/-! ## `Consensus::CheckTxInputs` -/

/-- The input tally: every coin and every partial sum is in the money range. -/
def sumCoins (coins : List CAmount) : Except String CAmount :=
  coins.foldlM (fun nValueIn v =>
    if MoneyRange v && MoneyRange (nValueIn + v) then .ok (nValueIn + v)
    else .error "bad-txns-inputvalues-outofrange") 0

/-- The fee `CheckTxInputs` reports; a coinstake reports none. -/
def checkTxInputs (isCoinStake : Bool) (coins : List CAmount) (valueOut : CAmount) :
    Except String CAmount :=
  (sumCoins coins).bind fun nValueIn =>
    if isCoinStake then .ok 0
    else if nValueIn < valueOut then .error "bad-txns-in-belowout"
    else if !MoneyRange (nValueIn - valueOut) then .error "bad-txns-fee-outofrange"
    else .ok (nValueIn - valueOut)

/-! ## The checks of the converted outputs -/

/-- `CheckMinGasPrice`. -/
def checkMinGasPrice (etps : List EthTransactionParams) (minGasPrice : Nat) : Bool :=
  etps.all fun etp => decide (minGasPrice ≤ etp.gasPrice.toNat)

/-- The stipend check: the running sum of `gas * gasPrice` in `dev::u256`,
    against `INT64_MAX` and the transaction's fee converted to `dev::u256`. -/
def addStipend (nTxFee : CAmount) (sumGas : U256) (qtx : RevoTransaction) : Except String U256 :=
  if sumGas + qtx.gas * qtx.gasPrice > BitVec.ofInt 256 INT64_MAX then
    .error "bad-tx-gas-stipend-overflow"
  else if sumGas + qtx.gas * qtx.gasPrice > BitVec.ofInt 256 nTxFee then
    .error "bad-txns-fee-notenough"
  else .ok (sumGas + qtx.gas * qtx.gasPrice)

/-- The version checks; the result is the new `nonZeroVersion`. -/
def checkVersion (nonZeroVersion : Bool) (v : VersionVM) : Except String Bool :=
  if v.format ≠ 0 then .error "bad-tx-version-format"
  -- a version-0 output may not follow a non-zero one
  else if v.rootVM = 0 ∧ nonZeroVersion then .error "bad-tx-mixed-zero-versions"
  else if ¬(v.rootVM = 0 ∨ v.rootVM = 1) then .error "bad-tx-version-rootvm"
  else if v.vmVersion ≠ 0 then .error "bad-tx-version-vmversion"
  else if v.flagOptions ≠ 0 then .error "bad-tx-version-flags"
  else .ok (nonZeroVersion || decide (v.rootVM ≠ 0))

/-- The gas checks; the result is the new `gasAllTxs`. -/
def checkGas (blockGasLimit minGasPrice : Nat) (gasAllTxs : U256) (qtx : RevoTransaction)
    (v : VersionVM) : Except String U256 :=
  if qtx.gas.toNat < MINIMUM_GAS_LIMIT ∧ v.rootVM ≠ 0 then .error "bad-tx-too-little-gas"
  else if qtx.gas.toNat > UINT32_MAX then .error "bad-tx-too-much-gas"
  else if (gasAllTxs + qtx.gas).toNat > blockGasLimit then
    .error "bad-txns-gas-exceeds-blockgaslimit"
  else if v.rootVM ≠ 0 ∧ (qtx.gasPrice.setWidth 64).toNat < minGasPrice then
    .error "bad-tx-low-gas-price"
  else .ok (gasAllTxs + qtx.gas)

/-- The state of the loop over the converted outputs. -/
structure StipendState where
  sumGas : U256
  gasAllTxs : U256
  nonZeroVersion : Bool
  deriving DecidableEq, Repr

/-- One iteration of the loop over the converted outputs.  The version is
    read from the parameters, which `createEthTX` copies into the transaction. -/
def checkContractOutput (nTxFee : CAmount) (blockGasLimit minGasPrice : Nat) (st : StipendState)
    (e : RevoTransaction × EthTransactionParams) : Except String StipendState :=
  (addStipend nTxFee st.sumGas e.1).bind fun sumGas =>
    (checkVersion st.nonZeroVersion e.2.version).bind fun nonZeroVersion =>
      (checkGas blockGasLimit minGasPrice st.gasAllTxs e.1 e.2.version).map fun gasAllTxs =>
        ⟨sumGas, gasAllTxs, nonZeroVersion⟩

/-- The loop over the converted outputs, then the rule that only the AAL
    (transactions with `OP_SPEND`, not checked here) may run version 0 alone. -/
def checkContractTxs (nTxFee : CAmount) (blockGasLimit minGasPrice : Nat)
    (outs : List (RevoTransaction × EthTransactionParams)) : Except String StipendState :=
  (outs.foldlM (checkContractOutput nTxFee blockGasLimit minGasPrice) ⟨0, 0, false⟩).bind fun st =>
    if !st.nonZeroVersion then .error "bad-tx-improper-version-0" else .ok st

/-- The version check of `ByteCodeExec::performByteCode`, which otherwise runs the EVM. -/
def performByteCode (outs : List (RevoTransaction × EthTransactionParams)) : Bool :=
  outs.all fun e => e.2.version == VersionVM.evmDefault

/-! ## The loop over the block -/

/-- What the fee and gas accounting reads of a transaction.  `extracted` is
    the result of `extractionRevoTransactions` (`none` when it fails), as
    pairs of a transaction and its parameters, and `results` the EVM's
    results for the extracted transactions. -/
structure BlockTx where
  isCoinBase : Bool
  isCoinStake : Bool
  coins : List CAmount
  valueOut : CAmount
  hasCreateOrCall : Bool
  hasOpSpend : Bool
  extracted : Option (List (RevoTransaction × EthTransactionParams))
  results : List ResultExecute
  deriving DecidableEq, Repr

/-- `view.GetValueIn(tx)`. -/
def BlockTx.valueIn (tx : BlockTx) : CAmount := if tx.isCoinBase then 0 else tx.coins.sum

structure BlockFees where
  nFees : CAmount
  gasRefunds : CAmount
  blockGasUsed : BitVec 64
  deriving DecidableEq, Repr

def BlockFees.init : BlockFees := ⟨0, 0, 0⟩

/-- The fee of a transaction added to `nFees`. -/
def tallyFee (nFees : CAmount) (tx : BlockTx) : Except String CAmount :=
  if tx.isCoinBase then .ok nFees
  else (checkTxInputs tx.isCoinStake tx.coins tx.valueOut).bind fun txfee =>
    if !MoneyRange (nFees + txfee) then .error "bad-txns-accumulated-fee-outofrange"
    else .ok (nFees + txfee)

/-- The results of executing the outputs `outs`: the block's gas and refunds. -/
def addResults (toCAmount : U256 → CAmount) (afterQIP7 : Bool) (blockGasLimit : Nat)
    (st : BlockFees) (outs : List (RevoTransaction × EthTransactionParams))
    (results : List ResultExecute) : Except String BlockFees :=
  match processingResults toCAmount afterQIP7 (outs.map Prod.fst) results with
  | none => .error "bad-vm-exec-processing"
  | some bcer =>
    if (st.blockGasUsed + bcer.usedGas).toNat > blockGasLimit then .error "bad-blk-gaslimit"
    else .ok { st with
      gasRefunds := st.gasRefunds + (bcer.refundOutputs.map CTxOut.nValue).sum
      blockGasUsed := st.blockGasUsed + bcer.usedGas }

/-- The contract part of the loop for a contract transaction. -/
def connectContract (toCAmount : U256 → CAmount) (afterQIP7 : Bool) (blockGasLimit minGasPrice : Nat)
    (st : BlockFees) (tx : BlockTx) : Except String BlockFees :=
  match tx.extracted with
  | none => .error "bad-tx-bad-contract-format"
  | some outs =>
    if !checkMinGasPrice (outs.map Prod.snd) minGasPrice then .error "bad-tx-low-gas-price"
    else (checkContractTxs (tx.valueIn - tx.valueOut) blockGasLimit minGasPrice outs).bind fun _ =>
      if !performByteCode outs then .error "bad-tx-unknown-error"
      else addResults toCAmount afterQIP7 blockGasLimit st outs tx.results

/-- One iteration of the loop over the block's transactions. -/
def connectTx (toCAmount : U256 → CAmount) (afterQIP7 : Bool) (blockGasLimit minGasPrice : Nat)
    (st : BlockFees) (tx : BlockTx) : Except String BlockFees :=
  (tallyFee st.nFees tx).bind fun nFees =>
    if tx.hasCreateOrCall && !tx.hasOpSpend then
      connectContract toCAmount afterQIP7 blockGasLimit minGasPrice { st with nFees } tx
    else .ok { st with nFees }

/-- The fee and gas accounting of `ConnectBlock`, with its final refund check. -/
def connectBlockFees (toCAmount : U256 → CAmount) (afterQIP7 : Bool) (blockGasLimit minGasPrice : Nat)
    (block : List BlockTx) : Except String BlockFees :=
  (block.foldlM (connectTx toCAmount afterQIP7 blockGasLimit minGasPrice) .init).bind fun st =>
    if st.nFees < st.gasRefunds then .error "bad-blk-fees-greater-gasrefund" else .ok st

end Revo
