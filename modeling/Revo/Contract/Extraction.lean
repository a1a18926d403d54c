/-
  Revo.Contract.Extraction

  `RevoTxConverter::extractionRevoTransactions` (`validation.cpp`): every
  output with one `OP_CREATE` or one `OP_CALL` is run by `receiveStack` and
  read by `parseEthTXParams`.  The converter keeps its member `stack` from
  one output to the next: it is emptied only when `receiveStack` rejects, and
  `EvalScript`'s result is ignored, so what one output leaves on the stack
  is there when the next output's script runs.

  The results are `Option`s of the outcome: `none` when a script reaches an
  opcode outside the modelled fragment of `EvalScript`, or when the source's
  read of `*scriptRest.begin()` is on an empty item (not defined); otherwise
  `some false` / `some true` as the source returns.  `GetSenderAddress` of
  an output and of the whole transaction are the inputs `senderOf` and
  `refundSender`.
-/

import Revo.Script.Interpreter
import Revo.Contract.Converter

namespace Revo

/-- The members of `RevoTxConverter` that carry from one output to the next. -/
structure ConverterState where
  stack : List Valtype
  opcode : Opcode
  sender : Bool
  deriving DecidableEq, Repr

/-- A converter as constructed: an empty stack (its `opcode` is not set yet). -/
def ConverterState.fresh : ConverterState := ⟨[], 0xff, false⟩

/-- `RevoTxConverter::receiveStack`: `some none` is `return false`. -/
def receiveStack (outputSender : Bool) (c : ConverterState) (script : CScript) :
    Option (Option ConverterState) :=
  (evalScript outputSender c.stack script).bind fun r =>
    match r.2 with
    | [] => some none
    | top :: stack =>
      match top.head? with
      | none => none
      | some opcode =>
        let sender := script.hasOpSender
        if (opcode = OP_CREATE ∧ stack.length < correctedStackSize sender 4) ∨
            (opcode = OP_CALL ∧ stack.length < correctedStackSize sender 5) then some none
        else some (some ⟨stack, opcode, sender⟩)

/-- The outputs `extractionRevoTransactions` converts. -/
def CTxOut.isContract (o : CTxOut) : Bool := o.scriptPubKey.hasOpCreate || o.scriptPubKey.hasOpCall

/-- One contract output on the converter: the pair `createEthTX` and
    `parseEthTXParams` produce and the converter after it. -/
def convertOutput (outputSender : Bool) (senderOf : Nat → Address) (refundSender : Address)
    (txHash : Hash256) (c : ConverterState) (i : Nat) (o : CTxOut) :
    Option (Option ((RevoTransaction × EthTransactionParams) × ConverterState)) :=
  (receiveStack outputSender c o.scriptPubKey).map fun r =>
    r.bind fun c =>
      (parseEthTXParams c.opcode c.sender c.stack).map fun (etp, stack) =>
        ((createEthTX etp o.nValue i (senderOf i) refundSender txHash, etp), { c with stack })

/-- The loop of `extractionRevoTransactions` from output `i` on. -/
def extractionLoop (outputSender : Bool) (senderOf : Nat → Address) (refundSender : Address)
    (txHash : Hash256) : Nat → List CTxOut → ConverterState →
      Option (Option (List (RevoTransaction × EthTransactionParams)))
  | _, [], _ => some (some [])
  | i, o :: os, c =>
    if o.isContract then
      match convertOutput outputSender senderOf refundSender txHash c i o with
      | none => none
      | some none => some none
      | some (some (e, c)) =>
        (extractionLoop outputSender senderOf refundSender txHash (i + 1) os c).map
          (·.map (e :: ·))
    else extractionLoop outputSender senderOf refundSender txHash (i + 1) os c

/-- `RevoTxConverter::extractionRevoTransactions` on the outputs `vout`. -/
def extractionRevoTransactions (outputSender : Bool) (senderOf : Nat → Address)
    (refundSender : Address) (txHash : Hash256) (vout : List CTxOut) :
    Option (Option (List (RevoTransaction × EthTransactionParams))) :=
  extractionLoop outputSender senderOf refundSender txHash 0 vout .fresh

/-- Each contract output converted alone, by a fresh converter, the results
    collected in order: the reading of the outputs as independent. -/
def extractionAlone (outputSender : Bool) (senderOf : Nat → Address) (refundSender : Address)
    (txHash : Hash256) : Nat → List CTxOut → Option (Option (List (RevoTransaction × EthTransactionParams)))
  | _, [] => some (some [])
  | i, o :: os =>
    if o.isContract then
      match convertOutput outputSender senderOf refundSender txHash .fresh i o with
      | none => none
      | some none => some none
      | some (some (e, _)) =>
        (extractionAlone outputSender senderOf refundSender txHash (i + 1) os).map (·.map (e :: ·))
    else extractionAlone outputSender senderOf refundSender txHash (i + 1) os

end Revo
