/-
  Revo.State.Condensing

  `CondensingTX` (`revo/revostate.{h,cpp}`): after a contract execution, the
  value transfers the EVM recorded are condensed into one Bitcoin-style
  transaction that spends the UTXOs of every address involved and pays each
  address its new balance.

    * `selectionVin` picks, for each address of the transfers, the UTXO it
      owns (`state->vin`), or for the sender of a value-carrying call the
      call's own output;
    * `calculatePlusAndMinus` totals what each address receives and sends;
    * `createNewBalances` computes `start + plus - minus` per address, with
      `start` the selected UTXO's value when it counts (alive, or dead but
      not deleted), and fails on a negative balance;
    * `createVins` spends the counted UTXOs, `createVout` pays every positive
      balance, stopping once more than `MAX_CONTRACT_VOUTS` outputs exist;
    * `createVin` turns the balances into the new `Vin` of each address.

  The four `std::map`s are `OrdMap`s, so every loop runs in key order.  The
  reads through `operator[]` that insert default entries are kept
  (`OrdMap.touch`).  `CAmount(u256)` is boost's conversion, not part of the
  repository: it is the parameter `toCAmount`.
-/

import Revo.State.RevoState

namespace Revo

/-- `MAX_CONTRACT_VOUTS` (`validation.h`). -/
def MAX_CONTRACT_VOUTS : Nat := 1000

/-- `CScript() << OP_SPEND`, the scriptSig of every condensing input. -/
def spendScript : CScript := CScript.pushOpcode [] OP_SPEND

/-- The scriptPubKey `createVout` pays `a` with: a no-exec `OP_CALL` to a live
    account, a pay-to-pubkey-hash otherwise. -/
def condensingScript (contract : Bool) (a : Address) : CScript :=
  open CScript in
  if contract then
    pushOpcode (pushData (pushData (pushData (pushData (pushData [] [0]) [0]) [0]) [0])
      a.asBytes) OP_CALL
  else
    pushOpcode (pushOpcode (pushData (pushOpcode (pushOpcode [] OP_DUP) OP_HASH160)
      a.asBytes) OP_EQUALVERIFY) OP_CHECKSIG

theorem condensingScript_true (a : Address) :
    condensingScript true a = [1, 0, 1, 0, 1, 0, 1, 0, 20] ++ a.asBytes ++ [OP_CALL] := by
  simp [condensingScript, CScript.pushData_eq, CScript.pushPrefix_small]

theorem condensingScript_false (a : Address) :
    condensingScript false a = [OP_DUP, OP_HASH160, 20] ++ a.asBytes ++ [OP_EQUALVERIFY, OP_CHECKSIG] := by
  simp [condensingScript, CScript.pushData_eq, CScript.pushPrefix_small]

/-- Different addresses are paid with different scripts. -/
theorem condensingScript_inj {x y : Bool} {a b : Address}
    (h : condensingScript x a = condensingScript y b) : a = b := by
  apply Address.asBytes_injective
  cases x <;> cases y <;>
    simp only [condensingScript_true, condensingScript_false, List.append_assoc] at h
  · simpa using h
  · simp [OP_DUP] at h
  · simp [OP_DUP] at h
  · simpa using h

structure CondensingTX where
  state : RevoState
  transfers : List TransferInfo
  deleteAddresses : Finset Address
  transaction : RevoTransaction
  plusMinusInfo : OrdMap Address (U256 × U256)
  balances : OrdMap Address U256
  nVouts : OrdMap Address Nat
  vins : OrdMap Address Vin
  voutOverflow : Bool

namespace CondensingTX

/-- The constructor: every map empty, no overflow. -/
def init (state : RevoState) (transfers : List TransferInfo) (transaction : RevoTransaction)
    (deleteAddresses : Finset Address) : CondensingTX :=
  ⟨state, transfers, deleteAddresses, transaction, .empty, .empty, .empty, .empty, false⟩

def checkDeleteAddress (c : CondensingTX) (a : Address) : Bool := decide (a ∈ c.deleteAddresses)

/-! ## selectionVin -/

/-- The sender's own `OP_CALL`/`OP_CREATE` output, spent when the call carries value. -/
def senderVin (t : RevoTransaction) : Vin := ⟨t.hashWith, t.nVout, t.value, 1⟩

/-- The `ti.from` half of one `selectionVin` iteration. -/
def selectFrom (c : CondensingTX) (ti : TransferInfo) : CondensingTX :=
  if c.vins.contains ti.fromAddr then c
  else
    let (r, st) := c.state.vin ti.fromAddr
    let vins := match r with
      | some v => c.vins.insert ti.fromAddr v
      | none => c.vins
    let vins :=
      if ti.fromAddr = c.transaction.sender ∧ c.transaction.value > 0 then
        vins.insert ti.fromAddr (senderVin c.transaction)
      else vins
    { c with state := st, vins := vins }

/-- The `ti.to` half of one `selectionVin` iteration. -/
def selectTo (c : CondensingTX) (ti : TransferInfo) : CondensingTX :=
  if c.vins.contains ti.toAddr then c
  else
    match c.state.vin ti.toAddr with
    | (some v, st) => { c with state := st, vins := c.vins.insert ti.toAddr v }
    | (none, st) => { c with state := st }

def selectionVin (c : CondensingTX) : CondensingTX :=
  c.transfers.foldl (fun c ti => selectTo (selectFrom c ti) ti) c

/-! ## calculatePlusAndMinus -/

/-- `plusMinusInfo[a]` after `a` sends `v`. -/
def addMinus (pm : OrdMap Address (U256 × U256)) (a : Address) (v : U256) :
    OrdMap Address (U256 × U256) :=
  if !pm.contains a then pm.insert a (0, v)
  else pm.insert a ((pm.findD a (0, 0)).1, (pm.findD a (0, 0)).2 + v)

/-- `plusMinusInfo[a]` after `a` receives `v`. -/
def addPlus (pm : OrdMap Address (U256 × U256)) (a : Address) (v : U256) :
    OrdMap Address (U256 × U256) :=
  if !pm.contains a then pm.insert a (v, 0)
  else pm.insert a ((pm.findD a (0, 0)).1 + v, (pm.findD a (0, 0)).2)

/-- One iteration of `calculatePlusAndMinus`. -/
def plusMinusStep (pm : OrdMap Address (U256 × U256)) (ti : TransferInfo) :
    OrdMap Address (U256 × U256) :=
  addPlus (addMinus pm ti.fromAddr ti.value) ti.toAddr ti.value

def calculatePlusAndMinus (c : CondensingTX) : CondensingTX :=
  { c with plusMinusInfo := c.transfers.foldl plusMinusStep c.plusMinusInfo }

/-! ## createNewBalances -/

/-- The loop of `createNewBalances` over the entries of `plusMinusInfo`,
    threading `vins` (grown by the `operator[]` reads) and `balances`. -/
def newBalancesLoop (deleted : Finset Address) :
    List (Address × (U256 × U256)) → OrdMap Address Vin → OrdMap Address U256 →
      Bool × OrdMap Address Vin × OrdMap Address U256
  | [], vins, balances => (true, vins, balances)
  | (a, (plus, minus)) :: rest, vins, balances =>
    -- `vins.count(a) && vins[a].alive` short-circuits; otherwise the read
    -- `vins[a]` of `!vins[a].alive` inserts `Vin{}` for a missing key
    let live := vins.contains a && (vins.findD a default).alive != 0
    let vins := if live then vins else vins.touch a default
    let counted := live || ((vins.findD a default).alive == 0 && !decide (a ∈ deleted))
    let balance : U256 := (if counted then (vins.findD a default).value else 0) + plus
    if balance < minus then (false, vins, balances)
    else newBalancesLoop deleted rest vins (balances.insert a (balance - minus))

def createNewBalances (c : CondensingTX) : Bool × CondensingTX :=
  match newBalancesLoop c.deleteAddresses c.plusMinusInfo.entries c.vins c.balances with
  | (ok, vins, balances) => (ok, { c with vins := vins, balances := balances })

/-! ## createVins / createVout -/

/-- The condition under which `createVins` spends the vin `v` of `a`. -/
def spendsVin (c : CondensingTX) (a : Address) (v : Vin) : Bool :=
  (v.value > 0 && v.alive != 0) ||
    (v.value > 0 && (c.vins.findD a default).alive == 0 && !c.checkDeleteAddress a)

/-- The vins `createVins` spends, in iteration order. -/
def spentVins (c : CondensingTX) : List Vin :=
  (c.vins.entries.filter (fun e => c.spendsVin e.1 e.2)).map Prod.snd

def createVins (c : CondensingTX) : List CTxIn :=
  c.vins.entries.filterMap fun e =>
    if c.spendsVin e.1 e.2 then some ⟨⟨h256Touint e.2.hash, e.2.nVout⟩, spendScript⟩ else none

/-- The loop of `createVout`: outputs so far, `nVouts`, and whether it stopped
    on `count > MAX_CONTRACT_VOUTS`. -/
def voutLoop (toCAmount : U256 → CAmount) (contract : Address → Bool) :
    List (Address × U256) → Nat → List CTxOut → OrdMap Address Nat →
      List CTxOut × OrdMap Address Nat × Bool
  | [], _, outs, nVouts => (outs, nVouts, false)
  | (a, b) :: rest, count, outs, nVouts =>
    let outs' := if b > 0 then outs ++ [⟨toCAmount b, condensingScript (contract a) a⟩] else outs
    let nVouts' := if b > 0 then nVouts.insert a count else nVouts
    let count' := if b > 0 then count + 1 else count
    if count' > MAX_CONTRACT_VOUTS then (outs', nVouts', true)
    else voutLoop toCAmount contract rest count' outs' nVouts'

def createVout (toCAmount : U256 → CAmount) (c : CondensingTX) : List CTxOut × CondensingTX :=
  match voutLoop toCAmount c.state.accountAlive c.balances.entries 0 [] c.nVouts with
  | (outs, nVouts, overflow) =>
    (outs, { c with nVouts := nVouts, voutOverflow := overflow || c.voutOverflow })

/-! ## createCondensingTX / createVin -/

/-- `createCondensingTX()`, with the object's state after the call. -/
def createCondensingTX (toCAmount : U256 → CAmount) (c : CondensingTX) :
    CTransaction × CondensingTX :=
  let c := c.selectionVin.calculatePlusAndMinus
  match c.createNewBalances with
  | (false, c) => (CTransaction.empty, c)
  | (true, c) =>
    let ins := c.createVins
    match c.createVout toCAmount with
    | (outs, c) => (if ins.isEmpty || outs.isEmpty then CTransaction.empty else ⟨ins, outs⟩, c)

def reachedVoutLimit (c : CondensingTX) : Bool := c.voutOverflow

/-- One iteration of `createVin` over `balances`. -/
def createVinStep (c : CondensingTX) (txHash : Hash256) (vins : OrdMap Address Vin)
    (e : Address × U256) : OrdMap Address Vin :=
  if e.1 = c.transaction.sender then vins
  else if e.2 > 0 then vins.insert e.1 ⟨uintToh256 txHash, c.nVouts.findD e.1 0, e.2, 1⟩
  else vins.insert e.1 ⟨uintToh256 txHash, 0, 0, 0⟩

/-- `createVin(tx)`, with `txHash` the caller's `tx.GetHash()`. -/
def createVin (c : CondensingTX) (txHash : Hash256) : OrdMap Address Vin :=
  c.balances.entries.foldl (c.createVinStep txHash) .empty

end CondensingTX

end Revo
