/-
  Revo.Validation.DisconnectBlock

  The coin updates of connecting a block and their undo (`validation.cpp`).

    * `UpdateCoins` spends the inputs of a transaction other than a
      coinbase, moving every spent coin into the transaction's undo record,
      and adds its outputs with `AddCoins`, where only a coinbase may
      overwrite.  `ConnectBlock` calls it for every transaction in order and
      keeps the undo records of all but the first.
    * `DisconnectBlock` walks the transactions backwards.  It spends every
      spendable output, clearing `fClean` when no coin is there or the coin
      is not the one the block created, and then restores the inputs of a
      transaction after the first, last input first, with `ApplyTxInUndo`.
      An undo coin of height 0 has lost its metadata, which is then taken
      from another unspent output of the same transaction.

  The view is a cache `l` over the caches `ps` and the database `db`, as in
  `Revo.Coins.CoinsView`.  Transaction hashes come from `getHash`, which is
  not modelled.  The undo data is what `UndoReadFromDisk` read; the address
  and stake indexes and the state roots that `DisconnectBlock` also rewrites
  are left out.
-/

import Revo.Coins.CoinsView

namespace Revo

/-- `CTxUndo`: the coins the inputs of a transaction spent, in input order. -/
structure CTxUndo where
  vprevout : List Coin
  deriving DecidableEq, Repr

/-- `CBlockUndo`: the undo records of the transactions after the first. -/
structure CBlockUndo where
  vtxundo : List CTxUndo
  deriving DecidableEq, Repr

inductive DisconnectResult
  | DISCONNECT_OK
  | DISCONNECT_UNCLEAN
  | DISCONNECT_FAILED
  deriving DecidableEq, Repr

/-- `fClean ? DISCONNECT_OK : DISCONNECT_UNCLEAN`. -/
def DisconnectResult.ofClean (fClean : Bool) : DisconnectResult :=
  if fClean then .DISCONNECT_OK else .DISCONNECT_UNCLEAN

/-! ## `UpdateCoins` -/

/-- The input loop of `UpdateCoins`: each input's coin is spent and moved
    into the undo record, and `assert(is_spent)` fails on an input with no
    coin. -/
def spendInputs (db : CCoinsViewDB) :
    List CTxIn → CCoinsViewCache → List CCoinsViewCache →
      Except String (List Coin × CCoinsViewCache × List CCoinsViewCache)
  | [], l, ps => .ok ([], l, ps)
  | txin :: vin, l, ps =>
    match spendCoin db l ps txin.prevout with
    | (isSpent, moved, l', ps') =>
      if isSpent then
        -- `txundo.vprevout.emplace_back()` holds `Coin()` until the coin is moved into it
        (spendInputs db vin l' ps').map fun r => (moved.getD Coin.empty :: r.1, r.2)
      else .error "assertion is_spent failed"

/-- `UpdateCoins(tx, inputs, txundo, nHeight)`; `AddCoins` is called
    without `check_for_overwrite`. -/
def updateCoins (db : CCoinsViewDB) (getHash : CTransaction → Hash256) (tx : CTransaction)
    (l : CCoinsViewCache) (ps : List CCoinsViewCache) (nHeight : Nat) :
    Except String (CTxUndo × CCoinsViewCache × List CCoinsViewCache) :=
  (if tx.isCoinBase then .ok ([], l, ps) else spendInputs db tx.vin l ps).bind fun r =>
    (addCoins db r.2.1 r.2.2 tx (getHash tx) nHeight false).map fun r' => (⟨r.1⟩, r'.1, r'.2)

/-- The `UpdateCoins` calls of `ConnectBlock` from transaction `i` on, with
    the undo records pushed to `blockundo.vtxundo`. -/
def connectBlockCoins (db : CCoinsViewDB) (getHash : CTransaction → Hash256) (nHeight : Nat) :
    Nat → List CTransaction → CCoinsViewCache → List CCoinsViewCache →
      Except String (List CTxUndo × CCoinsViewCache × List CCoinsViewCache)
  | _, [], l, ps => .ok ([], l, ps)
  | i, tx :: vtx, l, ps =>
    (updateCoins db getHash tx l ps nHeight).bind fun r =>
      (connectBlockCoins db getHash nHeight (i + 1) vtx r.2.1 r.2.2).map fun r' =>
        -- the first transaction's record goes to `undoDummy`
        (if i > 0 then r.1 :: r'.1 else r'.1, r'.2)

/-! ## `ApplyTxInUndo` -/

/-- `ApplyTxInUndo(undo, view, out)`. -/
def applyTxInUndo (db : CCoinsViewDB) (undo : Coin) (l : CCoinsViewCache) (ps : List CCoinsViewCache)
    (out : COutPoint) : Except String (DisconnectResult × CCoinsViewCache × List CCoinsViewCache) :=
  match haveCoin db l ps out with
  | (haveOut, l, ps) =>
    -- an unspent coin at `out` is overwritten: the view did not match the block
    let fClean := !haveOut
    let restored : Option Coin × CCoinsViewCache × List CCoinsViewCache :=
      if undo.nHeight = 0 then
        -- missing undo metadata: height and coinbase flag of another output
        -- of the same transaction
        match accessByTxid db l ps out.hash with
        | (alternate, l, ps) =>
          (if !alternate.isSpent then
            some { undo with nHeight := alternate.nHeight, fCoinBase := alternate.fCoinBase }
          else none, l, ps)
      else (some undo, l, ps)
    match restored with
    | (none, l, ps) => .ok (.DISCONNECT_FAILED, l, ps)
    | (some undo, l, ps) => (l.addCoin out undo !fClean).map fun l => (.ofClean fClean, l, ps)

/-! ## `DisconnectBlock` -/

/-- The output loop of `DisconnectBlock` for one transaction, from output
    `o` on: every spendable output is spent, and `fClean` is cleared when
    no coin was there or it is not the coin the block created. -/
def spendOutputs (db : CCoinsViewDB) (hash : Hash256) (nHeight : Nat) (isCoinbase isCoinstake : Bool) :
    Nat → List CTxOut → Bool → CCoinsViewCache → List CCoinsViewCache →
      Bool × CCoinsViewCache × List CCoinsViewCache
  | _, [], fClean, l, ps => (fClean, l, ps)
  | o, out :: outs, fClean, l, ps =>
    if !out.scriptPubKey.isUnspendable then
      match spendCoin db l ps ⟨hash, o⟩ with
      | (isSpent, moved, l, ps) =>
        let coin := moved.getD Coin.empty
        let intact := isSpent && out == coin.out && nHeight == coin.nHeight.val &&
          isCoinbase == coin.fCoinBase && isCoinstake == coin.fCoinStake
        spendOutputs db hash nHeight isCoinbase isCoinstake (o + 1) outs (fClean && intact) l ps
    else spendOutputs db hash nHeight isCoinbase isCoinstake (o + 1) outs fClean l ps

/-- The input loop of `DisconnectBlock` for one transaction, over the
    outpoints and undo coins in the order given, the last input first.
    `DISCONNECT_FAILED` stops it; otherwise it returns `fClean` as
    `DISCONNECT_OK` or `DISCONNECT_UNCLEAN`. -/
def restoreInputs (db : CCoinsViewDB) :
    List (COutPoint × Coin) → Bool → CCoinsViewCache → List CCoinsViewCache →
      Except String (DisconnectResult × CCoinsViewCache × List CCoinsViewCache)
  | [], fClean, l, ps => .ok (.ofClean fClean, l, ps)
  | (out, undo) :: rest, fClean, l, ps =>
    (applyTxInUndo db undo l ps out).bind fun r =>
      if r.1 = .DISCONNECT_FAILED then .ok r
      else restoreInputs db rest (fClean && r.1 != .DISCONNECT_UNCLEAN) r.2.1 r.2.2

/-- The body of `DisconnectBlock`'s loop for transaction `i`: its outputs
    are spent, then, unless it is the first, its inputs are restored from
    `vtxundo[i-1]`. -/
def disconnectTx (db : CCoinsViewDB) (getHash : CTransaction → Hash256) (nHeight : Nat)
    (vtxundo : List CTxUndo) (i : Nat) (tx : CTransaction) (fClean : Bool) (l : CCoinsViewCache)
    (ps : List CCoinsViewCache) : Except String (DisconnectResult × CCoinsViewCache × List CCoinsViewCache) :=
  match spendOutputs db (getHash tx) nHeight tx.isCoinBase tx.isCoinStake 0 tx.vout fClean l ps with
  | (fClean, l, ps) =>
    if i > 0 then
      let txundo := vtxundo.getD (i - 1) ⟨[]⟩
      if txundo.vprevout.length ≠ tx.vin.length then .ok (.DISCONNECT_FAILED, l, ps)
      else restoreInputs db ((tx.vin.map fun txin => txin.prevout).zip txundo.vprevout).reverse fClean l ps
    else .ok (.ofClean fClean, l, ps)

/-- The loop of `DisconnectBlock` over the transactions `i - 1` down to `0`. -/
def disconnectLoop (db : CCoinsViewDB) (getHash : CTransaction → Hash256) (nHeight : Nat)
    (vtx : List CTransaction) (vtxundo : List CTxUndo) :
    Nat → Bool → CCoinsViewCache → List CCoinsViewCache →
      Except String (DisconnectResult × CCoinsViewCache × List CCoinsViewCache)
  | 0, fClean, l, ps => .ok (.ofClean fClean, l, ps)
  | i + 1, fClean, l, ps =>
    (disconnectTx db getHash nHeight vtxundo i (vtx.getD i .empty) fClean l ps).bind fun r =>
      if r.1 = .DISCONNECT_FAILED then .ok r
      else disconnectLoop db getHash nHeight vtx vtxundo i (r.1 == .DISCONNECT_OK) r.2.1 r.2.2

/-- `DisconnectBlock(block, pindex, view)` with the undo data read for the
    block; `nHeight` is `pindex->nHeight` and `hashPrevBlock` the hash of
    `pindex->pprev`. -/
def disconnectBlock (db : CCoinsViewDB) (getHash : CTransaction → Hash256) (vtx : List CTransaction)
    (nHeight : Nat) (hashPrevBlock : Hash256) (blockUndo : CBlockUndo) (l : CCoinsViewCache)
    (ps : List CCoinsViewCache) : Except String (DisconnectResult × CCoinsViewCache × List CCoinsViewCache) :=
  if blockUndo.vtxundo.length + 1 ≠ vtx.length then .ok (.DISCONNECT_FAILED, l, ps)
  else (disconnectLoop db getHash nHeight vtx blockUndo.vtxundo vtx.length true l ps).map fun r =>
    -- the best block moves back to the parent once every transaction is undone
    if r.1 = .DISCONNECT_FAILED then r else (r.1, r.2.1.setBestBlock hashPrevBlock, r.2.2)

end Revo
