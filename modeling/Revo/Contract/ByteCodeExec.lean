/-
  Revo.Contract.ByteCodeExec

  `ByteCodeExec::processingResults` (`validation.cpp`): after the EVM has run
  the transactions of one contract transaction, their results are turned
  into Bitcoin-side effects.

    * a run that failed returns the call's value to its sender and is
      charged its gas, except a `REVERT` after QIP7;
    * a clean run, or after QIP7 a `REVERT`, is charged the gas it used and
      refunds `(gas - gasUsed) * gasPrice` to the refund sender as a new
      output, computed in `uint64_t` and read back as an `int64_t`;
    * the condensing transaction of a run is queued for the block.

  The EVM is not modelled: its results are an input, one per transaction as
  `performByteCode` produces them.  `chain.Height() >= QIP7Height` is the
  flag `afterQIP7`, and boost's `CAmount(u256)` the parameter `toCAmount`.
-/

import Revo.Contract.Converter
import Revo.State.Condensing
import Revo.Lib.Fold

namespace Revo

/-- `dev::eth::TransactionException`. -/
inductive TransactionException
  | None | Unknown | BadRLP | InvalidFormat | OutOfGasIntrinsic | InvalidSignature
  | InvalidNonce | NotEnoughCash | OutOfGasBase | BlockGasLimitReached | BadInstruction
  | BadJumpDestination | OutOfGas | OutOfStack | StackUnderflow | RevertInstruction
  | InvalidZeroSignatureFormat | AddressAlreadyUsed | CreateWithValue | NoInformation
  | InvalidCode
  deriving DecidableEq, Repr

/-- `ResultExecute`, with what `processingResults` reads of it: the exception
    and the gas used of the run, and its condensing transaction. -/
structure ResultExecute where
  excepted : TransactionException
  gasUsed : U256
  tx : CTransaction
  deriving DecidableEq, Repr

structure ByteCodeExecResult where
  usedGas : BitVec 64
  refundSender : CAmount
  refundOutputs : List CTxOut
  valueTransfers : List CTransaction
  deriving DecidableEq, Repr

/-- `ByteCodeExecResult{}`. -/
def ByteCodeExecResult.init : ByteCodeExecResult := ⟨0, 0, [], []⟩

def UINT64_MAX : Nat := 2 ^ 64 - 1

/-- `CScript() << OP_DUP << OP_HASH160 << a.asBytes() << OP_EQUALVERIFY << OP_CHECKSIG`. -/
def payToPubkeyHash (a : Address) : CScript :=
  open CScript in
  pushOpcode (pushOpcode (pushData (pushOpcode (pushOpcode [] OP_DUP) OP_HASH160)
    a.asBytes) OP_EQUALVERIFY) OP_CHECKSIG

/-- The transaction that returns the value of a failed call to its sender:
    it spends the call's output and pays its sender. -/
def valueRefundTx (toCAmount : U256 → CAmount) (q : RevoTransaction) : CTransaction :=
  ⟨[⟨⟨h256Touint q.hashWith, q.nVout⟩, spendScript⟩], [⟨toCAmount q.value, payToPubkeyHash q.sender⟩]⟩

/-- Whether the unused gas of a run is refunded: a clean run, or after QIP7 a `REVERT`. -/
def refundsGas (afterQIP7 : Bool) (e : TransactionException) : Bool :=
  e == .None || (afterQIP7 && e == .RevertInstruction)

/-- The branch for a run that raised an exception. -/
def exceptionStep (toCAmount : U256 → CAmount) (afterQIP7 : Bool) (r : ByteCodeExecResult)
    (q : RevoTransaction) (res : ResultExecute) : ByteCodeExecResult :=
  if res.excepted ≠ .None then
    { r with
      valueTransfers := if q.value > 0 then r.valueTransfers ++ [valueRefundTx toCAmount q]
        else r.valueTransfers
      -- a `REVERT` after QIP7 is charged in the refund branch instead
      usedGas := if !(afterQIP7 && res.excepted == .RevertInstruction)
        then r.usedGas + res.gasUsed.setWidth 64 else r.usedGas }
  else r

/-- `int64_t amount = (gas - gasUsed) * gasPrice` with `uint64_t` operands. -/
def refundAmount (gas gasUsed gasPrice : BitVec 64) : Int := ((gas - gasUsed) * gasPrice).toInt

/-- The refund branch; `none` is `return false`. -/
def refundStep (afterQIP7 : Bool) (r : ByteCodeExecResult) (q : RevoTransaction)
    (res : ResultExecute) : Option ByteCodeExecResult :=
  if refundsGas afterQIP7 res.excepted then
    if q.gas.toNat > UINT64_MAX ∨ res.gasUsed.toNat > UINT64_MAX ∨ q.gasPrice.toNat > UINT64_MAX then
      none
    else
      let amount := refundAmount (q.gas.setWidth 64) (res.gasUsed.setWidth 64) (q.gasPrice.setWidth 64)
      let r := { r with usedGas := r.usedGas + res.gasUsed.setWidth 64 }
      if amount < 0 then none
      else if amount > 0 then
        some { r with
          refundOutputs := r.refundOutputs ++ [⟨amount, payToPubkeyHash q.refundSender⟩]
          refundSender := r.refundSender + amount }
      else some r
  else some r

/-- The condensing transaction of a run, queued when it is not empty. -/
def transferStep (r : ByteCodeExecResult) (res : ResultExecute) : ByteCodeExecResult :=
  if res.tx ≠ CTransaction.empty then { r with valueTransfers := r.valueTransfers ++ [res.tx] }
  else r

/-- One iteration of `processingResults`. -/
def processingStep (toCAmount : U256 → CAmount) (afterQIP7 : Bool) (r : ByteCodeExecResult)
    (e : RevoTransaction × ResultExecute) : Option ByteCodeExecResult :=
  (refundStep afterQIP7 (exceptionStep toCAmount afterQIP7 r e.1 e.2) e.1 e.2).map
    (transferStep · e.2)

/-- `ByteCodeExec::processingResults` over the transactions `txs` and their
    results; `none` is `return false`. -/
def processingResults (toCAmount : U256 → CAmount) (afterQIP7 : Bool) (txs : List RevoTransaction)
    (results : List ResultExecute) : Option ByteCodeExecResult :=
  (txs.zip results).foldlM (processingStep toCAmount afterQIP7) .init

/-! ## Field lemmas -/

@[simp] theorem exceptionStep_refundOutputs (toCAmount : U256 → CAmount) (afterQIP7 : Bool)
    (r : ByteCodeExecResult) (q : RevoTransaction) (res : ResultExecute) :
    (exceptionStep toCAmount afterQIP7 r q res).refundOutputs = r.refundOutputs := by
  unfold exceptionStep
  split <;> rfl

@[simp] theorem exceptionStep_refundSender (toCAmount : U256 → CAmount) (afterQIP7 : Bool)
    (r : ByteCodeExecResult) (q : RevoTransaction) (res : ResultExecute) :
    (exceptionStep toCAmount afterQIP7 r q res).refundSender = r.refundSender := by
  unfold exceptionStep
  split <;> rfl

@[simp] theorem transferStep_refundOutputs (r : ByteCodeExecResult) (res : ResultExecute) :
    (transferStep r res).refundOutputs = r.refundOutputs := by
  unfold transferStep
  split <;> rfl

@[simp] theorem transferStep_refundSender (r : ByteCodeExecResult) (res : ResultExecute) :
    (transferStep r res).refundSender = r.refundSender := by
  unfold transferStep
  split <;> rfl

/-! ## The refund of a run -/

/-- The bounds under which a run's refund is computed exactly: those the
    parser puts on the gas of the transaction, and a run that used no more
    gas than it was given. -/
structure RefundBounds (q : RevoTransaction) (res : ResultExecute) : Prop where
  gas_le : q.gas.toNat ≤ INT64_MAX_U
  gasPrice_le : q.gasPrice.toNat ≤ INT64_MAX_U
  mul_le : q.gas.toNat * q.gasPrice.toNat ≤ INT64_MAX_U
  gasUsed_le : res.gasUsed.toNat ≤ q.gas.toNat

/-- The refund a run is owed: its unused gas at the gas price, as an exact
    number, paid to the refund sender when it is positive. -/
def gasRefundOutput (afterQIP7 : Bool) (e : RevoTransaction × ResultExecute) : Option CTxOut :=
  if refundsGas afterQIP7 e.2.excepted ∧ 0 < (e.1.gas.toNat - e.2.gasUsed.toNat) * e.1.gasPrice.toNat then
    some ⟨((e.1.gas.toNat - e.2.gasUsed.toNat) * e.1.gasPrice.toNat : Nat),
      payToPubkeyHash e.1.refundSender⟩
  else none

/-- A `dev::u256` below `INT64_MAX` survives the cast to `uint64_t`. -/
theorem toNat_setWidth_of_le {x : U256} (h : x.toNat ≤ INT64_MAX_U) :
    (x.setWidth 64).toNat = x.toNat := by
  have hlt : INT64_MAX_U < 2 ^ 64 := by decide
  rw [BitVec.toNat_setWidth, Nat.mod_eq_of_lt (by omega)]

/-- Within the parser's bounds the `uint64_t` refund neither wraps nor turns negative. -/
theorem refundAmount_eq {q : RevoTransaction} {res : ResultExecute} (hb : RefundBounds q res) :
    refundAmount (q.gas.setWidth 64) (res.gasUsed.setWidth 64) (q.gasPrice.setWidth 64) =
      ((q.gas.toNat - res.gasUsed.toNat) * q.gasPrice.toNat : Nat) := by
  have hg := toNat_setWidth_of_le hb.gas_le
  have hu := toNat_setWidth_of_le (hb.gasUsed_le.trans hb.gas_le)
  have hp := toNat_setWidth_of_le hb.gasPrice_le
  have hsub : (q.gas.setWidth 64 - res.gasUsed.setWidth 64).toNat =
      q.gas.toNat - res.gasUsed.toNat := by
    rw [BitVec.toNat_sub_of_le (by rw [BitVec.le_def, hg, hu]; exact hb.gasUsed_le), hg, hu]
  -- the unused gas costs at most what all the gas costs
  have hprod : (q.gas.toNat - res.gasUsed.toNat) * q.gasPrice.toNat ≤ INT64_MAX_U :=
    (Nat.mul_le_mul_right _ (Nat.sub_le _ _)).trans hb.mul_le
  have hmax : INT64_MAX_U = 2 ^ 63 - 1 := rfl
  have hmul : ((q.gas.setWidth 64 - res.gasUsed.setWidth 64) * q.gasPrice.setWidth 64).toNat =
      (q.gas.toNat - res.gasUsed.toNat) * q.gasPrice.toNat := by
    rw [BitVec.toNat_mul_of_lt (by rw [hsub, hp]; omega), hsub, hp]
  unfold refundAmount
  rw [BitVec.toInt_eq_toNat_of_lt (by rw [hmul]; omega), hmul]

/-- One run within the bounds: its refund branch succeeds and pays exactly
    what the run is owed. -/
theorem refundStep_of_bounds (afterQIP7 : Bool) (r : ByteCodeExecResult) {q : RevoTransaction}
    {res : ResultExecute} (hb : RefundBounds q res) :
    ∃ r', refundStep afterQIP7 r q res = some r' ∧
      r'.refundOutputs = r.refundOutputs ++ (gasRefundOutput afterQIP7 (q, res)).toList ∧
      r'.refundSender =
        r.refundSender + ((gasRefundOutput afterQIP7 (q, res)).toList.map CTxOut.nValue).sum := by
  unfold refundStep gasRefundOutput
  by_cases hr : refundsGas afterQIP7 res.excepted = true
  case neg =>
    rw [if_neg hr, if_neg (fun h => hr h.1)]
    exact ⟨r, rfl, by simp, by simp⟩
  case pos =>
    have hrange : ¬(q.gas.toNat > UINT64_MAX ∨ res.gasUsed.toNat > UINT64_MAX ∨
        q.gasPrice.toNat > UINT64_MAX) := by
      have := hb.gas_le
      have := hb.gasPrice_le
      have := hb.gasUsed_le
      have hmax : INT64_MAX_U < UINT64_MAX := by decide
      omega
    rw [if_pos hr, if_neg hrange]
    dsimp only
    rw [refundAmount_eq hb]
    -- the amount is a natural number: the `amount < 0` rejection never fires
    rw [if_neg (Int.not_lt.mpr (Int.natCast_nonneg _))]
    by_cases hpos : 0 < (q.gas.toNat - res.gasUsed.toNat) * q.gasPrice.toNat
    case pos =>
      rw [if_pos (Int.natCast_pos.mpr hpos), if_pos ⟨hr, hpos⟩]
      exact ⟨_, rfl, rfl, by simp⟩
    case neg =>
      rw [if_neg (fun h => hpos (Int.natCast_pos.mp h)), if_neg (fun h => hpos h.2)]
      exact ⟨_, rfl, by simp, by simp⟩

theorem processingStep_of_bounds (toCAmount : U256 → CAmount) (afterQIP7 : Bool)
    (r : ByteCodeExecResult) {q : RevoTransaction} {res : ResultExecute} (hb : RefundBounds q res) :
    ∃ r', processingStep toCAmount afterQIP7 r (q, res) = some r' ∧
      r'.refundOutputs = r.refundOutputs ++ (gasRefundOutput afterQIP7 (q, res)).toList ∧
      r'.refundSender =
        r.refundSender + ((gasRefundOutput afterQIP7 (q, res)).toList.map CTxOut.nValue).sum := by
  obtain ⟨r₁, h₁, hout, hsnd⟩ :=
    refundStep_of_bounds afterQIP7 (exceptionStep toCAmount afterQIP7 r q res) hb
  refine ⟨transferStep r₁ res, ?_, ?_, ?_⟩
  · rw [processingStep, h₁]
    rfl
  · rw [transferStep_refundOutputs, hout, exceptionStep_refundOutputs]
  · rw [transferStep_refundSender, hsnd, exceptionStep_refundSender]

/-- `processingResults` succeeds on runs within the bounds; its refund
    outputs are what the runs are owed, in order, and `refundSender` is
    their total. -/
theorem processingResults_of_bounds (toCAmount : U256 → CAmount) (afterQIP7 : Bool)
    {txs : List RevoTransaction} {results : List ResultExecute}
    (hb : List.Forall₂ RefundBounds txs results) :
    ∃ r, processingResults toCAmount afterQIP7 txs results = some r ∧
      r.refundOutputs = (txs.zip results).filterMap (gasRefundOutput afterQIP7) ∧
      r.refundSender = (r.refundOutputs.map CTxOut.nValue).sum := by
  have hzip : ∀ e ∈ txs.zip results, RefundBounds e.1 e.2 := fun e he =>
    (List.forall₂_iff_zip.mp hb).2 he
  -- the relation: outputs and total so far are those owed to the runs processed
  obtain ⟨r, hr, hout, hsnd⟩ := Fold.foldlM_option_progress
    (fun pre (r : ByteCodeExecResult) =>
      r.refundOutputs = pre.filterMap (gasRefundOutput afterQIP7) ∧
        r.refundSender = (r.refundOutputs.map CTxOut.nValue).sum)
    (txs.zip results)
    (fun pre ⟨q, res⟩ r he ⟨hout, hsnd⟩ => by
      obtain ⟨r', h', hout', hsnd'⟩ := processingStep_of_bounds toCAmount afterQIP7 r (hzip _ he)
      refine ⟨r', h', ?_, ?_⟩
      · rw [hout', hout, List.filterMap_append]
        cases h : gasRefundOutput afterQIP7 (q, res) <;> simp [h]
      · rw [hsnd', hsnd, hout', List.map_append, List.sum_append])
    [] .init ⟨rfl, rfl⟩
  exact ⟨r, hr, by rwa [List.nil_append] at hout, hsnd⟩

end Revo
