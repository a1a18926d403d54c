/-
  Revo.Script.Standard

  `MatchContract` (`script/standard.cpp`), the contract part of `Solver`: an
  output script is compared, instruction by instruction, with the templates
  of the four contract output types.  A template position written as a
  placeholder opcode (`OP_VERSION`, `OP_GAS_LIMIT`, ...) accepts an
  instruction of the script under the checks of that placeholder; any other
  position must be the same opcode.  Some checks reject the script outright
  (`return false`), others only move on to the next template (`break`).

  The placeholders check a push only when the script has a push there: a
  non-push opcode in an `OP_VERSION`, `OP_DATA` or `OP_SCRIPT_SIG` position is
  accepted as it is.  The solutions `vSolutionsRet` are not modelled.
-/

import Revo.Script.Interpreter
import Revo.Contract.Converter

namespace Revo

/-- The contract output types of `TxoutType`. -/
inductive ContractType
  | CREATE_SENDER | CALL_SENDER | CREATE | CALL
  deriving DecidableEq, Repr

def OP_ADDRESS_TYPE : Opcode := 0xf2
def OP_ADDRESS : Opcode := 0xf3
def OP_SCRIPT_SIG : Opcode := 0xf4
def OP_GAS_PRICE : Opcode := 0xf5
def OP_VERSION : Opcode := 0xf6
def OP_GAS_LIMIT : Opcode := 0xf7
def OP_DATA : Opcode := 0xf8
def OP_PUBKEYHASH : Opcode := 0xfd

def MAX_BLOCK_GAS_LIMIT_DGP : Nat := 1000000000
def DEFAULT_BLOCK_GAS_LIMIT_DGP : Nat := 1000000000
def STANDARD_MINIMUM_GAS_LIMIT : Nat := 10000
def STANDARD_MINIMUM_GAS_PRICE : Nat := 1
def MAX_BASE_SCRIPT_SIZE : Nat := 10000

/-- `addresstype::PUBKEYHASH` and `addresstype::NONSTANDARD`. -/
def PUBKEYHASH_TYPE : Nat := 1
def NONSTANDARD_TYPE : Nat := 6

/-- The templates, in the order of the multimap `mTemplates` (by type); each
    is a script of single-byte opcodes, given as its opcodes. -/
def contractTemplates : List (ContractType × List Opcode) :=
  [(.CREATE_SENDER, [OP_ADDRESS_TYPE, OP_ADDRESS, OP_SCRIPT_SIG, OP_SENDER, OP_VERSION,
      OP_GAS_LIMIT, OP_GAS_PRICE, OP_DATA, OP_CREATE]),
    (.CALL_SENDER, [OP_ADDRESS_TYPE, OP_ADDRESS, OP_SCRIPT_SIG, OP_SENDER, OP_VERSION,
      OP_GAS_LIMIT, OP_GAS_PRICE, OP_DATA, OP_PUBKEYHASH, OP_CALL]),
    (.CREATE, [OP_VERSION, OP_GAS_LIMIT, OP_GAS_PRICE, OP_DATA, OP_CREATE]),
    (.CALL, [OP_VERSION, OP_GAS_LIMIT, OP_GAS_PRICE, OP_DATA, OP_PUBKEYHASH, OP_CALL])]

/-- The outcome of comparing one instruction with one template position:
    go on with the version's `rootVM` and the address type read so far,
    try the next template (`break`), or reject (`return false`). -/
inductive SlotResult
  | ok (rootVM addressType : Nat)
  | mismatch
  | reject
  deriving DecidableEq, Repr

/-- The gas checks of `OP_GAS_LIMIT` and `OP_GAS_PRICE`; `true` rejects. -/
def gasLimitRejected (contractConsensus : Bool) (rootVM val : Nat) : Bool :=
  if contractConsensus then decide (rootVM ≠ 0 ∧ val < 1) || decide (val > MAX_BLOCK_GAS_LIMIT_DGP)
  else decide (rootVM ≠ 0 ∧ val < STANDARD_MINIMUM_GAS_LIMIT) ||
    decide (val > DEFAULT_BLOCK_GAS_LIMIT_DGP / 2)

def gasPriceRejected (contractConsensus : Bool) (rootVM val : Nat) : Bool :=
  if contractConsensus then decide (rootVM ≠ 0 ∧ val < 1)
  else decide (rootVM ≠ 0 ∧ val < STANDARD_MINIMUM_GAS_PRICE)

/-- One instruction `(op, vch)` of the script against the template opcode `t`. -/
def matchSlot (contractConsensus allowEmptySenderSig : Bool) (rootVM addressType : Nat)
    (op : Opcode) (vch : Valtype) (t : Opcode) : SlotResult :=
  if t = OP_PUBKEYHASH then
    if vch.length ≠ 20 then .mismatch else .ok rootVM addressType
  else if t = OP_VERSION then
    if op ≤ OP_PUSHDATA4 then
      if vch.isEmpty ∨ vch.length > 4 ∨ (vch.getLast?.map fun b => decide (b &&& 0x80 ≠ 0)) = some true then
        .reject
      else
        let version := VersionVM.fromRaw ((CScriptNum.vchToUint64 vch).getD 0)
        -- only the EVM and no-exec versions are standard
        if version = VersionVM.evmDefault ∨ version = VersionVM.noExec then
          .ok version.rootVM addressType
        else .reject
    else .ok rootVM addressType
  else if t = OP_GAS_LIMIT then
    match CScriptNum.vchToUint64 vch with
    | none => .reject
    | some val => if gasLimitRejected contractConsensus rootVM val then .reject
      else .ok rootVM addressType
  else if t = OP_GAS_PRICE then
    match CScriptNum.vchToUint64 vch with
    | none => .reject
    | some val => if gasPriceRejected contractConsensus rootVM val then .reject
      else .ok rootVM addressType
  else if t = OP_DATA then
    if op ≤ OP_PUSHDATA4 ∧ vch.isEmpty then .mismatch else .ok rootVM addressType
  else if t = OP_ADDRESS_TYPE then
    match CScriptNum.vchToUint64 vch with
    | none => .mismatch
    | some val =>
      if val < PUBKEYHASH_TYPE ∨ val > NONSTANDARD_TYPE then .mismatch else .ok rootVM val
  else if t = OP_ADDRESS then
    if addressType = PUBKEYHASH_TYPE ∧ vch.length = 20 then .ok rootVM addressType
    else .mismatch
  else if t = OP_SCRIPT_SIG then
    if op ≤ OP_PUSHDATA4 then
      if !allowEmptySenderSig ∧ vch.isEmpty then .mismatch
      else if vch.length > MAX_BASE_SCRIPT_SIZE then .reject
      else .ok rootVM addressType
    else .ok rootVM addressType
  else if op ≠ t ∨ vch ≠ [] then .mismatch
  else .ok rootVM addressType

/-- The outcome of comparing a script with one template. -/
inductive MatchResult
  | matched
  | mismatch
  | reject
  deriving DecidableEq, Repr

/-- The comparison loop, on the decoded instructions of the script (and
    whether decoding reached its end) and the template's opcodes. -/
def matchTemplate (contractConsensus allowEmptySenderSig decoded : Bool) :
    List Instr → List Opcode → Nat → Nat → MatchResult
  | [], [], _, _ => if decoded then .matched else .mismatch
  | [], _ :: _, _, _ => .mismatch
  | _ :: _, [], _, _ => .mismatch
  | (op, vch, _) :: is, t :: ts, rootVM, addressType =>
    match matchSlot contractConsensus allowEmptySenderSig rootVM addressType op vch t with
    | .ok rootVM addressType =>
      matchTemplate contractConsensus allowEmptySenderSig decoded is ts rootVM addressType
    | .mismatch => .mismatch
    | .reject => .reject

/-- The scan over the templates; the version starts out invalid (`rootVM = 20`). -/
def scanTemplates (contractConsensus allowEmptySenderSig : Bool) (script : CScript) :
    List (ContractType × List Opcode) → Option ContractType
  | [] => none
  | (ty, t) :: rest =>
    match matchTemplate contractConsensus allowEmptySenderSig (decode script).2 (decode script).1
        t 20 0 with
    | .matched => some ty
    | .mismatch => scanTemplates contractConsensus allowEmptySenderSig script rest
    | .reject => none

/-- `MatchContract`: the contract type of the script, `none` for `false`. -/
def matchContract (contractConsensus allowEmptySenderSig : Bool) (script : CScript) :
    Option ContractType :=
  scanTemplates contractConsensus allowEmptySenderSig script contractTemplates

end Revo
