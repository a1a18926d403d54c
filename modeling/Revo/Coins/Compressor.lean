/-
  Revo.Coins.Compressor

  The compact serialization of outputs in the coins database
  (`compressor.h`, `compressor.cpp`).

    * `CompressAmount` divides out up to nine trailing decimal zeros,
      counted in `e`, and folds the last digit `d` of what is left, which is
      then not zero, into `1 + 10 * (9 * n + d - 1) + e`; with nine zeros
      divided out it writes `1 + 10 * (n - 1) + 9`.  `DecompressAmount`
      undoes both.  Both compute in `uint64_t`.
    * `ScriptCompression` stores a P2PKH or P2SH script as a code byte and
      the 20-byte hash, a P2PK script as a code byte and the key's x
      coordinate, and every other script as `VARINT(size + 6)` and its
      bytes.  A code byte is below 6, so it reads back as the `VARINT` of
      itself.
    * `TxOutCompression` is the amount, then the script.

  The secp256k1 operations behind an uncompressed key (`IsFullyValid`,
  `Decompress`) are not modelled; `Secp256k1` carries them.
-/

import Revo.Lib.Codec
import Revo.Primitives.Transaction
import Revo.Script.Interpreter
import Revo.Serialize.Serialize

namespace Revo

/-! ## Amounts -/

/-- The loop of `CompressAmount` that divides out trailing decimal zeros,
    nine at most, counting them in `e`. -/
def stripZeros (n e : Nat) : Nat × Nat :=
  if n % 10 = 0 ∧ e < 9 then stripZeros (n / 10) (e + 1) else (n, e)
termination_by 9 - e

/-- `CompressAmount(n)`; the wrap of its `uint64_t` arithmetic is the final
    `% 2 ^ 64`.  The `assert(d >= 1 && d <= 9)` holds (`stripZeros_digit`). -/
def compressAmount (n : Nat) : Nat :=
  if n = 0 then 0
  else
    match stripZeros n 0 with
    | (n, e) =>
      if e < 9 then
        let d := n % 10
        (1 + (n / 10 * 9 + d - 1) * 10 + e) % 2 ^ 64
      else (1 + (n - 1) * 10 + 9) % 2 ^ 64

/-- `while (e) { n *= 10; e--; }` in `uint64_t`. -/
def timesTen : Nat → Nat → Nat
  | n, 0 => n
  | n, e + 1 => timesTen (n * 10 % 2 ^ 64) e

def decompressAmount (x : Nat) : Nat :=
  if x = 0 then 0
  else
    let x := x - 1
    let e := x % 10
    let x := x / 10
    let n := if e < 9 then x / 9 * 10 + (x % 9 + 1) else x + 1
    timesTen n e

/-- The `int64_t` a `uint64_t` converts to. -/
def CAmount.ofUInt64 (v : Nat) : CAmount := if v < 2 ^ 63 then v else (v : Int) - 2 ^ 64

/-! ## Scripts -/

/-- The secp256k1 operations of `CPubKey` that the compressor calls. -/
structure Secp256k1 where
  /-- `CPubKey::IsFullyValid` of a 65-byte key. -/
  isFullyValid : List UInt8 → Bool
  /-- `CPubKey::Decompress` of a 33-byte key; `none` when it is not a point. -/
  decompress : List UInt8 → Option (List UInt8)
  /-- A decompressed key has 65 bytes: `DecompressScript`'s `assert` holds. -/
  decompress_length : ∀ k pk, decompress k = some pk → pk.length = 65

/-- What the round trip of an uncompressed key asks of secp256k1: a fully
    valid key `04 ‖ x ‖ y` is recovered by `Decompress` from `02 ‖ x` or
    `03 ‖ x`, as the parity of `y` says. -/
def Secp256k1.RecoversValidKeys (secp : Secp256k1) : Prop :=
  ∀ pk : List UInt8, pk.length = 65 → pk.getD 0 0 = 0x04 → secp.isFullyValid pk = true →
    secp.decompress (UInt8.ofNat (2 + (pk.getD 64 0).toNat % 2) :: (pk.drop 1).take 32) = some pk

def isToKeyID (script : CScript) : Option (List UInt8) :=
  if script.length = 25 ∧ script.getD 0 0 = OP_DUP ∧ script.getD 1 0 = OP_HASH160 ∧
      script.getD 2 0 = 20 ∧ script.getD 23 0 = OP_EQUALVERIFY ∧ script.getD 24 0 = OP_CHECKSIG then
    some ((script.drop 3).take 20)
  else none

def isToScriptID (script : CScript) : Option (List UInt8) :=
  if script.length = 23 ∧ script.getD 0 0 = OP_HASH160 ∧ script.getD 1 0 = 20 ∧
      script.getD 22 0 = OP_EQUAL then
    some ((script.drop 2).take 20)
  else none

/-- `IsToPubKey`: the key of a P2PK script, compressed or, when fully
    valid, uncompressed. -/
def isToPubKey (secp : Secp256k1) (script : CScript) : Option (List UInt8) :=
  if script.length = 35 ∧ script.getD 0 0 = 33 ∧ script.getD 34 0 = OP_CHECKSIG ∧
      (script.getD 1 0 = 0x02 ∨ script.getD 1 0 = 0x03) then
    some ((script.drop 1).take 33)
  else if script.length = 67 ∧ script.getD 0 0 = 65 ∧ script.getD 66 0 = OP_CHECKSIG ∧
      script.getD 1 0 = 0x04 then
    -- a key that is not fully valid could not be rebuilt from its x coordinate
    if secp.isFullyValid ((script.drop 1).take 65) then some ((script.drop 1).take 65) else none
  else none

def compressScript (secp : Secp256k1) (script : CScript) : Option (List UInt8) :=
  match isToKeyID script with
  | some hash => some (0x00 :: hash)
  | none =>
    match isToScriptID script with
    | some hash => some (0x01 :: hash)
    | none =>
      match isToPubKey secp script with
      | none => none
      | some pubkey =>
        if pubkey.getD 0 0 = 0x02 ∨ pubkey.getD 0 0 = 0x03 then
          some (pubkey.getD 0 0 :: (pubkey.drop 1).take 32)
        else if pubkey.getD 0 0 = 0x04 then
          some ((0x04 ||| (pubkey.getD 64 0 &&& 0x01)) :: (pubkey.drop 1).take 32)
        else none

def getSpecialScriptSize (nSize : Nat) : Nat :=
  if nSize = 0 ∨ nSize = 1 then 20
  else if nSize = 2 ∨ nSize = 3 ∨ nSize = 4 ∨ nSize = 5 then 32
  else 0

/-- `DecompressScript(script, nSize, in)`; `none` is `false`, which leaves
    the script as it was. -/
def decompressScript (secp : Secp256k1) (nSize : Nat) (input : List UInt8) : Option CScript :=
  if nSize = 0x00 then some ([OP_DUP, OP_HASH160, 20] ++ input.take 20 ++ [OP_EQUALVERIFY, OP_CHECKSIG])
  else if nSize = 0x01 then some ([OP_HASH160, 20] ++ input.take 20 ++ [OP_EQUAL])
  else if nSize = 0x02 ∨ nSize = 0x03 then
    some ([33, UInt8.ofNat nSize] ++ input.take 32 ++ [OP_CHECKSIG])
  else if nSize = 0x04 ∨ nSize = 0x05 then
    (secp.decompress (UInt8.ofNat (nSize - 2) :: input.take 32)).map fun pubkey =>
      [65] ++ pubkey ++ [OP_CHECKSIG]
  else none

def nSpecialScripts : Nat := 6

/-- `ScriptCompression::Ser`; `nSize` is an `unsigned int`. -/
def scriptCompressionSer (secp : Secp256k1) (script : CScript) : List UInt8 :=
  match compressScript secp script with
  | some compr => compr
  | none => writeVarInt ((script.length + nSpecialScripts) % 2 ^ 32) ++ script

/-- `ScriptCompression::Unser(s, script)`, on the script `script` held
    before. -/
def scriptCompressionUnser (secp : Secp256k1) (script : CScript) (bs : List UInt8) :
    Except String (CScript × List UInt8) :=
  (readVarInt 32 bs).bind fun (nSize, bs) =>
    if nSize < nSpecialScripts then
      (streamRead (getSpecialScriptSize nSize) bs).map fun (vch, bs) =>
        ((decompressScript secp nSize vch).getD script, bs)
    else if nSize - nSpecialScripts > MAX_SCRIPT_SIZE then
      -- an overly long script is replaced with a short invalid one
      (streamIgnore (nSize - nSpecialScripts) bs).map fun bs => (script ++ [OP_RETURN], bs)
    else streamRead (nSize - nSpecialScripts) bs

/-! ## Outputs -/

/-- `AmountCompression::Ser` of a `CAmount`, which `CompressAmount` takes
    as a `uint64_t`. -/
def amountCompressionSer (val : CAmount) : List UInt8 :=
  writeVarInt (compressAmount (val % 2 ^ 64).toNat)

def amountCompressionUnser : List UInt8 → Except String (CAmount × List UInt8) :=
  Codec.map (fun v => CAmount.ofUInt64 (decompressAmount v)) (readVarInt 64)

/-- `TxOutCompression`: `READWRITE(Using<AmountCompression>(obj.nValue),
    Using<ScriptCompression>(obj.scriptPubKey))`. -/
def txOutCompressionSer (secp : Secp256k1) (out : CTxOut) : List UInt8 :=
  amountCompressionSer out.nValue ++ scriptCompressionSer secp out.scriptPubKey

/-- `TxOutCompression` read into the output `out` held before. -/
def txOutCompressionUnser (secp : Secp256k1) (out : CTxOut) :
    List UInt8 → Except String (CTxOut × List UInt8) :=
  Codec.map (fun p => ⟨p.1, p.2⟩)
    (Codec.seq amountCompressionUnser (scriptCompressionUnser secp out.scriptPubKey))

end Revo
