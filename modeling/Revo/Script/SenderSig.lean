/-
  Revo.Script.SenderSig

  The sender signature of an `OP_SENDER` output (`script/script.cpp`,
  `script/script.h`) and the hash it signs (`SignatureHashOutput` in
  `script/interpreter.cpp`).

    * `ReplaceParam(findOp, posBefore, vchParam)` reads the script up to the
      first `findOp` and, when more than `posBefore` instructions come before
      it, writes `vchParam` as a push in place of the instruction `posBefore`
      places before it; `FindParam` returns what that instruction pushes.
    * `UpdateSenderSig` replaces the instruction just before `OP_SENDER`, the
      signature of `<type> <address> <signature> OP_SENDER`;
      `WithoutSenderSig` replaces it by an empty push, or keeps the script
      when there is none.
    * `SignatureHashOutput` hashes the signed output with its sender
      signature emptied, and, for `SIGHASH_ALL`, every output with one
      `OP_SENDER` the same way.

  Iterators into the script are offsets.  `FindParam` keeps, of each
  instruction it reads, only the bytes it pushes: the iterator beside them is
  never read.  With `posBefore = 0` the source reads one place past the
  recorded iterators; callers pass `1` and `2`.  SHA-256 is a parameter: the
  `uint256` whose bytes are the digest of the bytes given.
-/

import Revo.Script.Interpreter
import Revo.Primitives.Block

namespace Revo

namespace CScript

/-! ## `ReplaceParam` and `FindParam` -/

/-- The loop of `ReplaceParam` from the offset `pc`; `opcodes` are the
    offsets where the instructions read so far begin.  `pc != end()` is a
    read that fails: `getOp [] = none`. -/
def replaceParamLoop (s : CScript) (findOp : Opcode) (posBefore : Nat) (vchParam : Valtype) :
    Nat → List Nat → Nat → Option CScript
  | 0, _, _ => none
  | fuel + 1, opcodes, pc =>
    match getOp (s.drop pc) with
    | none => none
    | some (opcode, _, rest) =>
      if opcode = findOp then
        let size := opcodes.length
        if size > posBefore + 1 then
          let firstPart := size - 1 - posBefore
          let secondPart := size - posBefore
          some (pushData (s.take (opcodes.getD firstPart 0)) vchParam ++ s.drop (opcodes.getD secondPart 0))
        else none
      else
        let pc := s.length - rest.length
        replaceParamLoop s findOp posBefore vchParam fuel (opcodes ++ [pc]) pc

/-- `CScript::ReplaceParam`.  Every instruction takes a byte, so the
    script's length bounds the rounds. -/
def replaceParam (s : CScript) (findOp : Opcode) (posBefore : Int) (vchParam : Valtype) :
    Option CScript :=
  if posBefore < 0 then none
  else replaceParamLoop s findOp posBefore.toNat vchParam s.length [0] 0

/-- The loop of `FindParam`: `opcodes` are the pushes of the instructions
    read so far, the one at `findOp` included. -/
def findParamLoop (findOp : Opcode) (posBefore : Nat) :
    Nat → List Valtype → List UInt8 → Option Valtype
  | 0, _, _ => none
  | fuel + 1, opcodes, pc =>
    match getOp pc with
    | none => none
    | some (opcode, tmpParam, rest) =>
      let opcodes := opcodes ++ [tmpParam]
      if opcode = findOp then
        let size := opcodes.length
        if size > posBefore + 1 then some (opcodes.getD (size - 1 - posBefore) [])
        else none
      else findParamLoop findOp posBefore fuel opcodes rest

/-- `CScript::FindParam`. -/
def findParam (s : CScript) (findOp : Opcode) (posBefore : Int) : Option Valtype :=
  if posBefore < 0 then none
  else findParamLoop findOp posBefore.toNat s.length [] s

/-! ## The sender signature -/

def updateSenderSig (s : CScript) (scriptSig : Valtype) : Option CScript :=
  s.replaceParam OP_SENDER 1 scriptSig

def withoutSenderSig (s : CScript) : CScript := (s.updateSenderSig []).getD s

end CScript

/-! ## `SignatureHashOutput` -/

def SIGHASH_ALL : Int32 := 1
def SIGHASH_NONE : Int32 := 2
def SIGHASH_SINGLE : Int32 := 3
def SIGHASH_ANYONECANPAY : Int32 := 0x80

/-- The transaction `SignatureHashOutput` reads: `CTransaction` with the
    version, the lock time and each input's `nSequence`, which it leaves
    out. -/
structure SigHashTx where
  nVersion : Int
  tx : CTransaction
  nSequence : List UInt32
  nLockTime : UInt32
  nSequence_length : nSequence.length = tx.vin.length

/-- `txTo.vout[k] = output`. -/
def SigHashTx.setOutput (txTo : SigHashTx) (k : Nat) (output : CTxOut) : SigHashTx :=
  { txTo with tx := { txTo.tx with vout := txTo.tx.vout.set k output },
              nSequence_length := txTo.nSequence_length }

@[simp] theorem SigHashTx.setOutput_vout (txTo : SigHashTx) (k : Nat) (output : CTxOut) :
    (txTo.setOutput k output).tx.vout = txTo.tx.vout.set k output := rfl

@[simp] theorem SigHashTx.setOutput_vin (txTo : SigHashTx) (k : Nat) (output : CTxOut) :
    (txTo.setOutput k output).tx.vin = txTo.tx.vin := rfl

/-- A `CAmount` as `Serialize` writes an `int64_t`. -/
def serInt64 (x : Int) : List UInt8 := leBytes (x % 2 ^ 64).toNat 8

/-- `CTxOut`: the value, then the script as a byte vector. -/
def serTxOut (o : CTxOut) : List UInt8 := serInt64 o.nValue ++ serBytes o.scriptPubKey

section Hash

variable (sha256 : List UInt8 → Hash256)

/-- `SHA256Uint256`: the digest of a hash's 32 bytes. -/
def sha256Uint256 (h : Hash256) : Hash256 := sha256 (serUint256 h)

/-- `CHashWriter::GetHash`: SHA-256 twice. -/
def hashWriterGetHash (bytes : List UInt8) : Hash256 := sha256Uint256 sha256 (sha256 bytes)

def getOutputWithoutSenderSig (output : CTxOut) : CTxOut :=
  ⟨output.nValue, output.scriptPubKey.withoutSenderSig⟩

/-- The bytes `GetOutputsOpSenderSHA256` writes for one output. -/
def opSenderOutputBytes (txout : CTxOut) : List UInt8 :=
  if txout.scriptPubKey.hasOpSender then serTxOut (getOutputWithoutSenderSig txout)
  else serTxOut txout

def getOutputsOpSenderSHA256 (txTo : SigHashTx) : Hash256 :=
  sha256 (txTo.tx.vout.map opSenderOutputBytes).flatten

def getPrevoutsSHA256 (txTo : SigHashTx) : Hash256 :=
  sha256 (txTo.tx.vin.map fun txin => serOutPoint txin.prevout).flatten

def getSequencesSHA256 (txTo : SigHashTx) : Hash256 :=
  sha256 (txTo.nSequence.map serUInt32).flatten

/-- `GetFirstPrevoutSHA256` and `GetFirstSequenceSHA256`, once `0 <
    txTo.vin.size()` is asserted. -/
def getFirstPrevoutSHA256 (txin : CTxIn) : Hash256 := sha256 (serOutPoint txin.prevout)

def getFirstSequenceSHA256 (nSequence : UInt32) : Hash256 := sha256 (serUInt32 nSequence)

/-- The hashes of `PrecomputedTransactionData` that `SignatureHashOutput`
    reads once `m_bip143_segwit_ready` is set. -/
structure PrecomputedHashes where
  hashPrevouts : Hash256
  hashSequence : Hash256
  hashOutputsOpSender : Hash256

/-- `SignatureHashOutput(scriptCode, txTo, nOut, nHashType, amount,
    sigversion, cache)`; `cache` is `none` when it is null or not ready.  The
    three hashes start as `uint256()`, zero. -/
def signatureHashOutput (scriptCode : CScript) (txTo : SigHashTx) (nOut : Nat) (nHashType : Int32)
    (amount : CAmount) (cache : Option PrecomputedHashes) : Except String Hash256 := do
  let some output := txTo.tx.vout[nOut]? | throw "assertion nOut < txTo.vout.size() failed"
  let anyoneCanPay := nHashType &&& SIGHASH_ANYONECANPAY ≠ 0
  let baseType := nHashType &&& 0x1f
  let (hashPrevouts, hashSequence) ←
    if anyoneCanPay then
      match txTo.tx.vin.head?, txTo.nSequence.head? with
      | some txin, some nSequence =>
        pure (sha256Uint256 sha256 (getFirstPrevoutSHA256 sha256 txin),
          sha256Uint256 sha256 (getFirstSequenceSHA256 sha256 nSequence))
      | _, _ => throw "assertion 0 < txTo.vin.size() failed"
    else
      let hashPrevouts := match cache with
        | some c => c.hashPrevouts
        | none => sha256Uint256 sha256 (getPrevoutsSHA256 sha256 txTo)
      let hashSequence :=
        if baseType ≠ SIGHASH_SINGLE ∧ baseType ≠ SIGHASH_NONE then
          match cache with
          | some c => c.hashSequence
          | none => sha256Uint256 sha256 (getSequencesSHA256 sha256 txTo)
        else 0
      pure (hashPrevouts, hashSequence)
  let hashOutputs :=
    if baseType ≠ SIGHASH_SINGLE ∧ baseType ≠ SIGHASH_NONE then
      match cache with
      | some c => c.hashOutputsOpSender
      | none => sha256Uint256 sha256 (getOutputsOpSenderSHA256 sha256 txTo)
    else if baseType = SIGHASH_SINGLE then
      hashWriterGetHash sha256 (serTxOut (getOutputWithoutSenderSig output))
    else 0
  return hashWriterGetHash sha256
    (serInt32 txTo.nVersion ++ serUint256 hashPrevouts ++ serUint256 hashSequence ++
      serTxOut (getOutputWithoutSenderSig output) ++ serBytes scriptCode ++ serInt64 amount ++
      serUint256 hashOutputs ++ serUInt32 txTo.nLockTime ++ serInt32 nHashType.toInt)

end Hash

end Revo
