/-
  Revo.Primitives.Transaction

  The value types shared by the whole model: 256-bit hashes and EVM words,
  160-bit addresses, `CAmount`, and the transaction records of
  `primitives/transaction.h` reduced to the fields the modelled code reads.

  `uint256` and `dev::h256` are the same 32 bytes (`uintToh256` and
  `h256Touint` copy them in order), so both are `Hash256`.  An address
  (`dev::h160`) is the number whose big-endian bytes it stores; its order is
  then the byte-wise order `std::map<dev::Address, _>` iterates in.
-/

import Revo.Script.Script
import Mathlib.Data.BitVec

namespace Revo

/-- `uint256` / `dev::h256`: a 256-bit hash. -/
abbrev Hash256 := BitVec 256

/-- `dev::u256`: an unsigned 256-bit EVM word. -/
abbrev U256 := BitVec 256

/-- `CAmount`: an `int64_t` number of satoshis. -/
abbrev CAmount := Int

def COIN : CAmount := 100000000
def MAX_MONEY : CAmount := 213895050 * COIN
def INT64_MAX : Int := 2 ^ 63 - 1

/-- `dev::Address` (`h160`). -/
abbrev Address := Fin (2 ^ 160)

/-- Address numerals (`Fin.instOfNat`) read this instance instead of a proof of
    their own. -/
instance Address.neZero : NeZero (2 ^ 160) := ⟨by decide⟩

/-- `Address::asBytes()`: the 20 stored bytes, most significant first. -/
def Address.asBytes (a : Address) : List UInt8 := (leBytes a.val 20).reverse

@[simp] theorem Address.asBytes_length (a : Address) : a.asBytes.length = 20 := by
  simp [Address.asBytes]

theorem Address.asBytes_injective : Function.Injective Address.asBytes := by
  intro a b h
  have hle : leBytes a.val 20 = leBytes b.val 20 := List.reverse_injective h
  have hdec := congrArg leNat hle
  rw [leNat_leBytes, leNat_leBytes, Nat.mod_eq_of_lt (a.isLt.trans_eq (by decide)),
    Nat.mod_eq_of_lt (b.isLt.trans_eq (by decide))] at hdec
  exact Fin.ext hdec

/-- `uintToh256` / `h256Touint`: byte-for-byte copies. -/
def uintToh256 (h : Hash256) : Hash256 := h
def h256Touint (h : Hash256) : Hash256 := h

structure COutPoint where
  hash : Hash256
  n : Nat
  deriving DecidableEq, Repr

/-- `CTxIn`; `nSequence` is left out (no modelled function reads it). -/
structure CTxIn where
  prevout : COutPoint
  scriptSig : CScript
  deriving DecidableEq, Repr

structure CTxOut where
  nValue : CAmount
  scriptPubKey : CScript
  deriving DecidableEq, Repr

/-- `CTransaction`; version, lock time and witnesses are left out. -/
structure CTransaction where
  vin : List CTxIn
  vout : List CTxOut
  deriving DecidableEq, Repr

/-- `CTransaction()`: no inputs and no outputs. -/
def CTransaction.empty : CTransaction := ⟨[], []⟩

/-- `COutPoint::NULL_INDEX`, the largest `uint32_t`. -/
def NULL_INDEX : Nat := 2 ^ 32 - 1

/-- `COutPoint::IsNull`: the outpoint of a coinbase input. -/
def COutPoint.isNull (o : COutPoint) : Bool := o.hash == 0 && o.n == NULL_INDEX

/-- `CTxOut::SetNull`: the value `-1` marks a spent output. -/
def CTxOut.null : CTxOut := ⟨-1, []⟩

/-- `CTxOut::IsNull`. -/
def CTxOut.isNull (o : CTxOut) : Bool := o.nValue == -1

/-- `CTxOut::IsEmpty`: the empty first output that marks a coinstake. -/
def CTxOut.isEmpty (o : CTxOut) : Bool := o.nValue == 0 && o.scriptPubKey.isEmpty

/-- `CTransaction::IsCoinBase`. -/
def CTransaction.isCoinBase (tx : CTransaction) : Bool :=
  tx.vin.length == 1 && ((tx.vin.head?.map fun i => i.prevout.isNull).getD false) && tx.vout.length ≥ 1

/-- `CTransaction::IsCoinStake`. -/
def CTransaction.isCoinStake (tx : CTransaction) : Bool :=
  tx.vin.length > 0 && !((tx.vin.head?.map fun i => i.prevout.isNull).getD false) &&
    tx.vout.length ≥ 2 && ((tx.vout.head?.map CTxOut.isEmpty).getD false)

end Revo
