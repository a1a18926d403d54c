/-
  Revo.Primitives.Block

  The block header of `primitives/block.h` and how it carries the block
  signature and the proof of delegation (`primitives/block.cpp`).

    * `vchBlockSigDlgt` holds the signature, followed by a proof of
      delegation of `COMPACT_SIGNATURE_SIZE = 65` bytes when there is one.
      A vector of at least `2 * 65` bytes is read as signature and proof, a
      shorter one as a signature alone.
    * `SetProofOfDelegation` pads or cuts the signature to 65 bytes and
      appends the proof; `SetBlockSignature` replaces the signature and keeps
      the proof.
    * `GetHashWithoutSign` hashes `CBlockHeaderSign`: the header without
      `vchBlockSigDlgt`, then the proof of delegation when there is one.

  The serializations are the byte strings `Serialize` writes; the hash
  `SerializeHash` takes of them is a parameter.
-/

import Revo.Primitives.Transaction
import Revo.Serialize.Serialize
import Revo.Lib.Lists

namespace Revo

/-- `CPubKey::COMPACT_SIGNATURE_SIZE`. -/
def COMPACT_SIGNATURE_SIZE : Nat := 65

/-- `CBlockHeader`. -/
structure CBlockHeader where
  nVersion : Int
  hashPrevBlock : Hash256
  hashMerkleRoot : Hash256
  nTime : UInt32
  nBits : UInt32
  nNonce : UInt32
  hashStateRoot : Hash256
  hashUTXORoot : Hash256
  prevoutStake : COutPoint
  vchBlockSigDlgt : List UInt8
  deriving DecidableEq, Repr

namespace CBlockHeader

/-- `CBlockHeader()`: `SetNull()`, with a null `prevoutStake`. -/
def null : CBlockHeader := ⟨0, 0, 0, 0, 0, 0, 0, 0, ⟨0, NULL_INDEX⟩, []⟩

/-! ## Signature and proof of delegation -/

def getBlockSignature (h : CBlockHeader) : List UInt8 :=
  if h.vchBlockSigDlgt.length < 2 * COMPACT_SIGNATURE_SIZE then h.vchBlockSigDlgt
  else h.vchBlockSigDlgt.take (h.vchBlockSigDlgt.length - COMPACT_SIGNATURE_SIZE)

def getProofOfDelegation (h : CBlockHeader) : List UInt8 :=
  if h.vchBlockSigDlgt.length < 2 * COMPACT_SIGNATURE_SIZE then []
  else h.vchBlockSigDlgt.drop (h.vchBlockSigDlgt.length - COMPACT_SIGNATURE_SIZE)

def hasProofOfDelegation (h : CBlockHeader) : Bool :=
  h.vchBlockSigDlgt.length ≥ 2 * COMPACT_SIGNATURE_SIZE

/-- `IsProofOfStake()`: the header names the output it stakes. -/
def isProofOfStake (h : CBlockHeader) : Bool := !h.prevoutStake.isNull

def setBlockSignature (h : CBlockHeader) (vchSign : List UInt8) : CBlockHeader :=
  if h.hasProofOfDelegation then
    let vchPoD := h.getProofOfDelegation
    { h with vchBlockSigDlgt := vchSign ++ vchPoD }
  else { h with vchBlockSigDlgt := vchSign }

def setProofOfDelegation (h : CBlockHeader) (vchPoD : List UInt8) : CBlockHeader :=
  let vchSign := h.getBlockSignature
  let vchSign :=
    if vchSign.length ≠ COMPACT_SIGNATURE_SIZE then Lists.resize vchSign COMPACT_SIGNATURE_SIZE 0
    else vchSign
  { h with vchBlockSigDlgt := vchSign ++ vchPoD }

end CBlockHeader

/-! ## Serialization -/

/-- `int32_t`, `uint32_t` and `uint256` as `Serialize` writes them:
    little-endian, in 4, 4 and 32 bytes. -/
def serInt32 (x : Int) : List UInt8 := leBytes (x % 2 ^ 32).toNat 4

def serUInt32 (x : UInt32) : List UInt8 := leBytes x.toNat 4

def serUint256 (x : Hash256) : List UInt8 := leBytes x.toNat 32

/-- `COutPoint`: the hash, then `n` as a `uint32_t`. -/
def serOutPoint (o : COutPoint) : List UInt8 := serUint256 o.hash ++ leBytes o.n 4

/-- `std::vector<unsigned char>`: its size as a `CompactSize`, then the bytes. -/
def serBytes (v : List UInt8) : List UInt8 := writeCompactSize v.length ++ v

namespace CBlockHeader

/-- The fields before `vchBlockSigDlgt`, which `CBlockHeader` and
    `CBlockHeaderSign` write alike. -/
def serFields (h : CBlockHeader) : List UInt8 :=
  serInt32 h.nVersion ++ serUint256 h.hashPrevBlock ++ serUint256 h.hashMerkleRoot ++
    serUInt32 h.nTime ++ serUInt32 h.nBits ++ serUInt32 h.nNonce ++ serUint256 h.hashStateRoot ++
    serUint256 h.hashUTXORoot ++ serOutPoint h.prevoutStake

/-- The serialization of `CBlockHeader`. -/
def serialize (h : CBlockHeader) : List UInt8 := h.serFields ++ serBytes h.vchBlockSigDlgt

/-- The serialization of `CBlockHeaderSign(h)`: the proof of delegation
    only when the header has one. -/
def serializeSign (h : CBlockHeader) : List UInt8 :=
  h.serFields ++ if h.hasProofOfDelegation then serBytes h.getProofOfDelegation else []

/-- `GetHash()`, with `hash` the hash `SerializeHash` takes. -/
def getHash {β : Type} (hash : List UInt8 → β) (h : CBlockHeader) : β := hash h.serialize

/-- `GetHashWithoutSign()`. -/
def getHashWithoutSign {β : Type} (hash : List UInt8 → β) (h : CBlockHeader) : β := hash h.serializeSign

end CBlockHeader

end Revo
