/-
  Revo.Validation.DisconnectBlockProofs

  Disconnecting a block undoes connecting it.  On the map a view stands for
  (`viewOf`), connecting a block is a list of writes (`blockWrites`): for
  each transaction its inputs spent, unless it is a coinbase, then its
  spendable outputs added.  The `UpdateCoins` calls of `ConnectBlock` apply
  these writes to the view and record, for every transaction after the
  first, the undo log of its spends (`connectBlockCoins_spec`).
  `DisconnectBlock` clears each transaction's outputs and replays that undo
  log backwards, so by `UndoLog.applyWrites_undoLog_reverse` it takes the
  view back over one transaction (`disconnectTx_spec`) and then over the
  whole block (`disconnectLoop_spec`).

  What the writes must find (`WriteOk`): a spend an unspent coin whose
  height is not 0 and whose script is spendable, an added coin no coin.  An
  undo coin of height 0 sends `ApplyTxInUndo` to the metadata of another
  output of the same transaction (`disconnectBlock_height_zero`).
-/

import Mathlib.Data.List.GetD
import Revo.Coins.CoinsViewProofs
import Revo.Validation.DisconnectBlock
import Revo.Lib.UndoLog

namespace Revo

open UndoLog

/-! ## Connecting a block on the map -/

/-- The coins of the spendable outputs of a transaction with hash `txid`,
    from output `i` on. -/
def outputWrites (txid : Hash256) (nHeight : Nat) (fCoinbase fCoinstake : Bool) :
    Nat → List CTxOut → List (COutPoint × Option Coin)
  | _, [] => []
  | i, out :: outs =>
    if out.scriptPubKey.isUnspendable then outputWrites txid nHeight fCoinbase fCoinstake (i + 1) outs
    else (⟨txid, i⟩, some (Coin.ofOut out nHeight fCoinbase fCoinstake)) ::
      outputWrites txid nHeight fCoinbase fCoinstake (i + 1) outs

/-- The spends of a transaction's inputs; a coinbase spends nothing. -/
def inputWrites (tx : CTransaction) : List (COutPoint × Option Coin) :=
  if tx.isCoinBase then [] else tx.vin.map fun txin => (txin.prevout, none)

/-- What `UpdateCoins` does to the map. -/
def txWrites (getHash : CTransaction → Hash256) (nHeight : Nat) (tx : CTransaction) :
    List (COutPoint × Option Coin) :=
  inputWrites tx ++ outputWrites (getHash tx) nHeight tx.isCoinBase tx.isCoinStake 0 tx.vout

/-- What connecting the transactions `vtx` in order does to the map. -/
def blockWrites (getHash : CTransaction → Hash256) (nHeight : Nat) (vtx : List CTransaction) :
    List (COutPoint × Option Coin) :=
  vtx.flatMap (txWrites getHash nHeight)

/-- What a write of a block finds at its outpoint when the block connects:
    a spend an unspent coin whose height is not 0 and whose script is
    spendable, an added coin no coin. -/
def WriteOk (_ : COutPoint) : Option Coin → Option Coin → Prop
  | some c, none => c.isSpent = false ∧ c.nHeight ≠ 0 ∧ c.out.scriptPubKey.isUnspendable = false
  | none, none => False
  | none, some _ => True
  | some _, some _ => False

instance WriteOk.instDecidable (k : COutPoint) : ∀ old new, Decidable (WriteOk k old new)
  | some c, none =>
    inferInstanceAs (Decidable (c.isSpent = false ∧ c.nHeight ≠ 0 ∧ c.out.scriptPubKey.isUnspendable = false))
  | none, none => isFalse id
  | none, some _ => isTrue trivial
  | some _, some _ => isFalse id

theorem writeOk_spend {k : COutPoint} {old : Option Coin} (h : WriteOk k old none) :
    ∃ c, old = some c ∧ c.isSpent = false ∧ c.nHeight ≠ 0 ∧ c.out.scriptPubKey.isUnspendable = false := by
  cases old with
  | none => exact absurd h id
  | some c => exact ⟨c, rfl, h⟩

theorem writeOk_add {k : COutPoint} {old : Option Coin} {c : Coin} (h : WriteOk k old (some c)) :
    old = none := by
  cases old with
  | none => rfl
  | some _ => exact absurd h id

/-- An undo step, which writes back what a spend found: the coin is gone
    from the view and is the unspent coin the spend took. -/
theorem writeOk_restore {k : COutPoint} {cur : Option Coin} {c : Coin} (h : WriteOk k (some c) cur) :
    cur = none ∧ c.isSpent = false ∧ c.nHeight ≠ 0 ∧ c.out.scriptPubKey.isUnspendable = false := by
  cases cur with
  | none => exact ⟨rfl, h⟩
  | some _ => exact absurd h id

@[simp] theorem Coin.ofOut_out (out : CTxOut) (nHeight : Nat) (fCoinBase fCoinStake : Bool) :
    (Coin.ofOut out nHeight fCoinBase fCoinStake).out = out := rfl

theorem Coin.ofOut_isSpent {out : CTxOut} (h : out.nValue ≠ -1) (nHeight : Nat) (fCoinBase fCoinStake : Bool) :
    (Coin.ofOut out nHeight fCoinBase fCoinStake).isSpent = false := by
  simp [Coin.ofOut, Coin.isSpent, CTxOut.isNull, h]

/-! ## The writes of outputs -/

section Outputs

variable {txid : Hash256} {nHeight : Nat} {fCoinbase fCoinstake : Bool}

theorem le_of_mem_outputWrites {i : Nat} {outs : List CTxOut} {k : COutPoint} {v : Option Coin}
    (h : (k, v) ∈ outputWrites txid nHeight fCoinbase fCoinstake i outs) : i ≤ k.n := by
  induction outs generalizing i with
  | nil => cases h
  | cons out outs ih =>
    rw [outputWrites] at h
    split at h
    · exact Nat.le_of_succ_le (ih h)
    · rcases List.mem_cons.mp h with he | he
      · cases he
        exact Nat.le_refl _
      · exact Nat.le_of_succ_le (ih he)

theorem outputWrites_nodup (i : Nat) (outs : List CTxOut) :
    ((outputWrites txid nHeight fCoinbase fCoinstake i outs).map Prod.fst).Nodup := by
  induction outs generalizing i with
  | nil => exact List.nodup_nil
  | cons out outs ih =>
    rw [outputWrites]
    split
    · exact ih (i + 1)
    · rw [List.map_cons, List.nodup_cons]
      refine ⟨fun hk => ?_, ih (i + 1)⟩
      -- the later outputs have larger indices
      obtain ⟨⟨k, v⟩, hkv, hki⟩ := List.mem_map.mp hk
      have hle : i + 1 ≤ k.n := le_of_mem_outputWrites hkv
      have hkn : k.n = i := congrArg COutPoint.n hki
      omega

theorem isSome_of_mem_outputWrites {i : Nat} {outs : List CTxOut} {k : COutPoint} {v : Option Coin}
    (h : (k, v) ∈ outputWrites txid nHeight fCoinbase fCoinstake i outs) : ∃ c, v = some c := by
  induction outs generalizing i with
  | nil => cases h
  | cons out outs ih =>
    rw [outputWrites] at h
    split at h
    · exact ih h
    · rcases List.mem_cons.mp h with he | he
      · cases he
        exact ⟨_, rfl⟩
      · exact ih he

end Outputs

/-! ## Blocks and prefixes -/

section Blocks

variable (getHash : CTransaction → Hash256) (nHeight : Nat)

@[simp] theorem blockWrites_nil : blockWrites getHash nHeight [] = [] := rfl

@[simp] theorem blockWrites_cons (tx : CTransaction) (vtx : List CTransaction) :
    blockWrites getHash nHeight (tx :: vtx) = txWrites getHash nHeight tx ++ blockWrites getHash nHeight vtx :=
  List.flatMap_cons

theorem blockWrites_take_succ (vtx : List CTransaction) {j : Nat} (hj : j < vtx.length) :
    blockWrites getHash nHeight (vtx.take (j + 1)) =
      blockWrites getHash nHeight (vtx.take j) ++ txWrites getHash nHeight vtx[j] := by
  unfold blockWrites
  rw [List.take_add_one, List.getElem?_eq_getElem hj, Option.toList_some, List.flatMap_append,
    List.flatMap_singleton]

/-- What the `j`-th transaction finds, from what the block finds. -/
theorem replays_txWrites {P : COutPoint → Option Coin → Option Coin → Prop} {ref : CoinsMap}
    {vtx : List CTransaction} (h : Replays P ref (blockWrites getHash nHeight vtx)) {j : Nat}
    (hj : j < vtx.length) :
    Replays P (applyWrites ref (blockWrites getHash nHeight (vtx.take j))) (txWrites getHash nHeight vtx[j]) := by
  have hsplit : blockWrites getHash nHeight vtx = blockWrites getHash nHeight (vtx.take j) ++
      (txWrites getHash nHeight vtx[j] ++ blockWrites getHash nHeight (vtx.drop (j + 1))) := by
    rw [← blockWrites_cons getHash nHeight, ← List.drop_eq_getElem_cons hj]
    unfold blockWrites
    rw [← List.flatMap_append, List.take_append_drop]
  rw [hsplit, replays_append, replays_append] at h
  exact h.2.1

end Blocks

/-! ## Undo records -/

/-- `u` records the spends of the transaction `tx` other than a coinbase,
    connected on `ref`: the coins its inputs found, in input order. -/
def TxUndoOf (ref : CoinsMap) (tx : CTransaction) (u : CTxUndo) : Prop :=
  u.vprevout.length = tx.vin.length ∧
    undoLog ref (inputWrites tx) = (tx.vin.map fun txin => txin.prevout).zip (u.vprevout.map some)

/-- `us` records the spends of the transactions `vtx` connected in order on
    `ref`. -/
def BlockUndoOf (getHash : CTransaction → Hash256) (nHeight : Nat) :
    CoinsMap → List CTransaction → List CTxUndo → Prop
  | _, [], [] => True
  | ref, tx :: vtx, u :: us =>
    TxUndoOf ref tx u ∧ BlockUndoOf getHash nHeight (applyWrites ref (txWrites getHash nHeight tx)) vtx us
  | _, _, _ => False

theorem BlockUndoOf.length {getHash : CTransaction → Hash256} {nHeight : Nat} :
    ∀ {ref : CoinsMap} {vtx : List CTransaction} {us : List CTxUndo},
      BlockUndoOf getHash nHeight ref vtx us → us.length = vtx.length
  | _, [], [], _ => rfl
  | _, _ :: _, _ :: _, h => by rw [List.length_cons, List.length_cons, h.2.length]
  | _, [], _ :: _, h => absurd h id
  | _, _ :: _, [], h => absurd h id

/-- The record of the `j`-th transaction is read against the map the
    transactions before it leave. -/
theorem BlockUndoOf.getD {getHash : CTransaction → Hash256} {nHeight : Nat} :
    ∀ {ref : CoinsMap} {vtx : List CTransaction} {us : List CTxUndo},
      BlockUndoOf getHash nHeight ref vtx us → ∀ j (hj : j < vtx.length),
        TxUndoOf (applyWrites ref (blockWrites getHash nHeight (vtx.take j))) vtx[j] (us.getD j ⟨[]⟩)
  | _, [], _, _, _, hj => absurd hj (Nat.not_lt_zero _)
  | _, _ :: _, [], h, _, _ => absurd h id
  | _, _ :: _, _ :: _, h, 0, _ => h.1
  | _, tx :: _, _ :: _, h, j + 1, hj => by
    rw [List.take_succ_cons, blockWrites_cons, applyWrites_append]
    exact h.2.getD j (Nat.lt_of_succ_lt_succ hj)

/-! ## Connecting on the caches -/

/-- `AddCoins` without the overwrite check writes the block's coins of the
    outputs, when each lands where the view has no coin. -/
theorem addCoinsLoop_spec {db : CCoinsViewDB} (txid : Hash256) (nHeight : Nat) (fCoinbase fCoinstake : Bool)
    (i : Nat) (outs : List CTxOut) (l : CCoinsViewCache) (ps : List CCoinsViewCache)
    (hinv : LayersInv db (l :: ps)) (hval : ∀ out ∈ outs, out.nValue ≠ -1)
    (hok : Replays WriteOk (viewOf db (l :: ps)) (outputWrites txid nHeight fCoinbase fCoinstake i outs)) :
    ∃ l', addCoinsLoop db txid nHeight fCoinbase fCoinstake false i outs l ps = .ok (l', ps) ∧
      LayersInv db (l' :: ps) ∧
      viewOf db (l' :: ps) =
        applyWrites (viewOf db (l :: ps)) (outputWrites txid nHeight fCoinbase fCoinstake i outs) := by
  induction outs generalizing i l with
  | nil => exact ⟨l, rfl, hinv, rfl⟩
  | cons out outs ih =>
    have hcoin := Coin.ofOut_isSpent (hval out List.mem_cons_self) nHeight fCoinbase fCoinstake
    have hval' : ∀ o ∈ outs, o.nValue ≠ -1 := fun o ho => hval o (List.mem_cons_of_mem _ ho)
    -- without the check only a coinbase may overwrite
    have hloop : addCoinsLoop db txid nHeight fCoinbase fCoinstake false i (out :: outs) l ps =
        (l.addCoin ⟨txid, i⟩ (Coin.ofOut out nHeight fCoinbase fCoinstake) fCoinbase).bind fun l =>
          addCoinsLoop db txid nHeight fCoinbase fCoinstake false (i + 1) outs l ps := rfl
    rw [hloop]
    by_cases hunsp : out.scriptPubKey.isUnspendable = true
    · rw [outputWrites, if_pos hunsp] at hok ⊢
      rw [addCoin_unspendable l _ _ _ hcoin hunsp]
      exact ih (i + 1) l hinv hval' hok
    · rw [outputWrites, if_neg hunsp] at hok ⊢
      obtain ⟨hfree, hrest⟩ := hok
      obtain ⟨l₁, hadd, hl₁, hview₁⟩ :=
        addCoin_spec hinv.1 ⟨txid, i⟩ _ fCoinbase hcoin (fun _ => writeOk_add hfree)
      rw [Coin.ofOut_out, if_neg hunsp] at hview₁
      rw [← hview₁] at hrest
      obtain ⟨l', hrun, hinv', hview'⟩ := ih (i + 1) l₁ ⟨hl₁, hinv.2⟩ hval' hrest
      refine ⟨l', ?_, hinv', ?_⟩
      · rw [hadd]
        exact hrun
      · rw [hview', hview₁]
        rfl

section Connect

variable {db : CCoinsViewDB} (hdb : DBInv db)
include hdb

/-- The input loop of `UpdateCoins` spends the inputs on the view and
    records the undo log of the spends. -/
theorem spendInputs_spec (vin : List CTxIn) (l : CCoinsViewCache) (ps : List CCoinsViewCache)
    (hinv : LayersInv db (l :: ps))
    (hok : Replays WriteOk (viewOf db (l :: ps)) (vin.map fun txin => (txin.prevout, none))) :
    ∃ cs l' ps', spendInputs db vin l ps = .ok (cs, l', ps') ∧ LayersInv db (l' :: ps') ∧
      viewOf db (l' :: ps') = applyWrites (viewOf db (l :: ps)) (vin.map fun txin => (txin.prevout, none)) ∧
      cs.length = vin.length ∧
      undoLog (viewOf db (l :: ps)) (vin.map fun txin => (txin.prevout, none)) =
        (vin.map fun txin => txin.prevout).zip (cs.map some) := by
  induction vin generalizing l ps with
  | nil => exact ⟨[], l, ps, rfl, hinv, rfl, rfl, rfl⟩
  | cons txin vin ih =>
    obtain ⟨hspend, hrest⟩ := hok
    -- the input finds a coin of the view, which the spend moves out
    obtain ⟨c, hc, -⟩ := writeOk_spend hspend
    rcases hsp : spendCoin db l ps txin.prevout with ⟨ok, moved, l₁, ps₁⟩
    obtain ⟨hinv₁, hview₁, -, hmoved⟩ := spendCoin_spec hdb l ps hinv txin.prevout hsp
    obtain ⟨rfl, rfl⟩ := hmoved c hc
    rw [← hview₁] at hrest
    obtain ⟨cs, l', ps', hrun, hinv', hview', hlen, hlog⟩ := ih l₁ ps₁ hinv₁ hrest
    refine ⟨c :: cs, l', ps', ?_, hinv', ?_, ?_, ?_⟩
    · rw [spendInputs, hsp]
      dsimp only
      rw [if_pos rfl, hrun]
      rfl
    · rw [hview', hview₁]
      rfl
    · rw [List.length_cons, hlen, List.length_cons]
    · rw [List.map_cons, undoLog, hc, ← hview₁, hlog]
      rfl

/-- `UpdateCoins` does the transaction's writes to the view and, for a
    transaction other than a coinbase, records the undo log of its spends. -/
theorem updateCoins_spec (getHash : CTransaction → Hash256) (tx : CTransaction) (l : CCoinsViewCache)
    (ps : List CCoinsViewCache) (nHeight : Nat) (hinv : LayersInv db (l :: ps))
    (hval : ∀ out ∈ tx.vout, out.nValue ≠ -1)
    (hok : Replays WriteOk (viewOf db (l :: ps)) (txWrites getHash nHeight tx)) :
    ∃ u l' ps', updateCoins db getHash tx l ps nHeight = .ok (u, l', ps') ∧ LayersInv db (l' :: ps') ∧
      viewOf db (l' :: ps') = applyWrites (viewOf db (l :: ps)) (txWrites getHash nHeight tx) ∧
      (tx.isCoinBase = false → TxUndoOf (viewOf db (l :: ps)) tx u) := by
  rw [txWrites, replays_append] at hok
  obtain ⟨hin, hout⟩ := hok
  rw [txWrites, applyWrites_append]
  by_cases hcb : tx.isCoinBase = true
  · -- a coinbase spends nothing
    rw [inputWrites, if_pos hcb, applyWrites_nil] at hout ⊢
    obtain ⟨l', hadd, hinv', hview'⟩ :=
      addCoinsLoop_spec (getHash tx) nHeight _ _ 0 tx.vout l ps hinv hval hout
    refine ⟨⟨[]⟩, l', ps, ?_, hinv', hview', fun h => by rw [hcb] at h; cases h⟩
    unfold updateCoins
    rw [if_pos hcb]
    show (addCoins db l ps tx (getHash tx) nHeight false).map _ = _
    unfold addCoins
    rw [hadd]
    rfl
  · rw [inputWrites, if_neg hcb] at hin hout ⊢
    obtain ⟨cs, l₁, ps₁, hspend, hinv₁, hview₁, hlen, hlog⟩ := spendInputs_spec hdb tx.vin l ps hinv hin
    rw [← hview₁] at hout
    obtain ⟨l', hadd, hinv', hview'⟩ :=
      addCoinsLoop_spec (getHash tx) nHeight _ _ 0 tx.vout l₁ ps₁ hinv₁ hval hout
    refine ⟨⟨cs⟩, l', ps₁, ?_, hinv', by rw [hview', hview₁], fun _ => ⟨hlen, ?_⟩⟩
    · unfold updateCoins
      rw [if_neg hcb, hspend]
      show (addCoins db l₁ ps₁ tx (getHash tx) nHeight false).map _ = _
      unfold addCoins
      rw [hadd]
      rfl
    · rw [inputWrites, if_neg hcb]
      exact hlog

/-- The `UpdateCoins` calls of `ConnectBlock` after the first transaction
    do the block's writes to the view and record every transaction's spends. -/
theorem connectBlockCoins_spec (getHash : CTransaction → Hash256) (nHeight i : Nat) (vtx : List CTransaction)
    (l : CCoinsViewCache) (ps : List CCoinsViewCache) (hinv : LayersInv db (l :: ps))
    (hcb : ∀ tx ∈ vtx, tx.isCoinBase = false) (hval : ∀ tx ∈ vtx, ∀ out ∈ tx.vout, out.nValue ≠ -1)
    (hok : Replays WriteOk (viewOf db (l :: ps)) (blockWrites getHash nHeight vtx)) :
    ∃ us l' ps', connectBlockCoins db getHash nHeight (i + 1) vtx l ps = .ok (us, l', ps') ∧
      LayersInv db (l' :: ps') ∧
      viewOf db (l' :: ps') = applyWrites (viewOf db (l :: ps)) (blockWrites getHash nHeight vtx) ∧
      BlockUndoOf getHash nHeight (viewOf db (l :: ps)) vtx us := by
  induction vtx generalizing i l ps with
  | nil => exact ⟨[], l, ps, rfl, hinv, rfl, trivial⟩
  | cons tx vtx ih =>
    rw [blockWrites_cons, replays_append] at hok
    obtain ⟨htx, hrest⟩ := hok
    obtain ⟨u, l₁, ps₁, hupd, hinv₁, hview₁, hundo⟩ :=
      updateCoins_spec hdb getHash tx l ps nHeight hinv (hval tx List.mem_cons_self) htx
    rw [← hview₁] at hrest
    obtain ⟨us, l', ps', hrun, hinv', hview', hblock⟩ := ih (i + 1) l₁ ps₁ hinv₁
      (fun t ht => hcb t (List.mem_cons_of_mem _ ht)) (fun t ht => hval t (List.mem_cons_of_mem _ ht)) hrest
    refine ⟨u :: us, l', ps', ?_, hinv', ?_, hundo (hcb tx List.mem_cons_self), ?_⟩
    · rw [connectBlockCoins, hupd]
      show (connectBlockCoins db getHash nHeight (i + 1 + 1) vtx l₁ ps₁).map _ = _
      rw [hrun]
      rfl
    · rw [hview', hview₁, blockWrites_cons, applyWrites_append]
    · rw [← hview₁]
      exact hblock

end Connect

/-! ## Disconnecting on the caches -/

section Disconnect

variable {db : CCoinsViewDB} (hdb : DBInv db)
include hdb

/-- `ApplyTxInUndo` of an unspent coin with a height and a spendable
    script, where the view has no coin, writes it back cleanly. -/
theorem applyTxInUndo_spec (undo : Coin) (l : CCoinsViewCache) (ps : List CCoinsViewCache)
    (hinv : LayersInv db (l :: ps)) (out : COutPoint) (hfree : viewOf db (l :: ps) out = none)
    (hundo : undo.isSpent = false) (hheight : undo.nHeight ≠ 0)
    (hsp : undo.out.scriptPubKey.isUnspendable = false) :
    ∃ l' ps', applyTxInUndo db undo l ps out = .ok (.DISCONNECT_OK, l', ps') ∧ LayersInv db (l' :: ps') ∧
      viewOf db (l' :: ps') = Function.update (viewOf db (l :: ps)) out (some undo) := by
  obtain ⟨hhave, hf⟩ := haveCoin_spec hdb l ps hinv out
  rcases hh : haveCoin db l ps out with ⟨haveOut, l₁, ps₁⟩
  rw [hh] at hhave hf
  dsimp only at hhave hf
  -- `HaveCoin` is false, so the restore is no overwrite
  rw [hfree, Option.isSome_none] at hhave
  have hfree₁ : viewOf db (l₁ :: ps₁) out = none := by
    rw [hf.view]
    exact hfree
  obtain ⟨l₂, hadd, hl₂, hview₂⟩ := addCoin_spec hf.inv.1 out undo false hundo (fun _ => hfree₁)
  rw [if_neg (by rw [hsp]; decide)] at hview₂
  refine ⟨l₂, ps₁, ?_, ⟨hl₂, hf.inv.2⟩, by rw [hview₂, hf.view]⟩
  unfold applyTxInUndo
  rw [hh]
  dsimp only
  rw [if_neg hheight]
  dsimp only
  rw [hhave]
  show (l₁.addCoin out undo false).map _ = _
  rw [hadd]
  rfl

/-- The output loop of `DisconnectBlock` spends the block's coins of the
    outputs and keeps `fClean` when the view holds exactly those coins. -/
theorem spendOutputs_spec (txid : Hash256) (nHeight : Nat) (hh : nHeight < 2 ^ 30)
    (fCoinbase fCoinstake : Bool) (o : Nat) (outs : List CTxOut) (fClean : Bool) (l : CCoinsViewCache)
    (ps : List CCoinsViewCache) (hinv : LayersInv db (l :: ps))
    (hview : ∀ k c, (k, some c) ∈ outputWrites txid nHeight fCoinbase fCoinstake o outs →
      viewOf db (l :: ps) k = some c) :
    ∃ l' ps', spendOutputs db txid nHeight fCoinbase fCoinstake o outs fClean l ps = (fClean, l', ps') ∧
      LayersInv db (l' :: ps') ∧
      viewOf db (l' :: ps') = applyWrites (viewOf db (l :: ps))
        ((outputWrites txid nHeight fCoinbase fCoinstake o outs).map fun w => (w.1, none)) := by
  induction outs generalizing o l ps with
  | nil => exact ⟨l, ps, rfl, hinv, rfl⟩
  | cons out outs ih =>
    by_cases hunsp : out.scriptPubKey.isUnspendable = true
    · rw [outputWrites, if_pos hunsp] at hview ⊢
      obtain ⟨l', ps', hrun, hinv', hview'⟩ := ih (o + 1) l ps hinv hview
      refine ⟨l', ps', ?_, hinv', hview'⟩
      rw [spendOutputs, if_neg (by rw [hunsp]; decide)]
      exact hrun
    · rw [outputWrites, if_neg hunsp] at hview ⊢
      have hc := hview _ _ List.mem_cons_self
      rcases hsp : spendCoin db l ps ⟨txid, o⟩ with ⟨ok, moved, l₁, ps₁⟩
      obtain ⟨hinv₁, hview₁, -, hmoved⟩ := spendCoin_spec hdb l ps hinv _ hsp
      obtain ⟨rfl, rfl⟩ := hmoved _ hc
      -- the later outputs have other outpoints
      have hrest : ∀ k c, (k, some c) ∈ outputWrites txid nHeight fCoinbase fCoinstake (o + 1) outs →
          viewOf db (l₁ :: ps₁) k = some c := by
        intro k c hkc
        have hne : k ≠ ⟨txid, o⟩ := fun h => by
          have := le_of_mem_outputWrites hkc
          rw [h] at this
          exact Nat.not_succ_le_self o this
        rw [hview₁, Function.update_of_ne hne]
        exact hview k c (List.mem_cons_of_mem _ hkc)
      obtain ⟨l', ps', hrun, hinv', hview'⟩ := ih (o + 1) l₁ ps₁ hinv₁ hrest
      -- the coin found is the one the block created
      have hintact : (true && out == (Coin.ofOut out nHeight fCoinbase fCoinstake).out &&
          nHeight == (Coin.ofOut out nHeight fCoinbase fCoinstake).nHeight.val &&
          fCoinbase == (Coin.ofOut out nHeight fCoinbase fCoinstake).fCoinBase &&
          fCoinstake == (Coin.ofOut out nHeight fCoinbase fCoinstake).fCoinStake) = true := by
        have hheight : (Coin.ofOut out nHeight fCoinbase fCoinstake).nHeight.val = nHeight :=
          Nat.mod_eq_of_lt hh
        rw [hheight]
        simp [Coin.ofOut]
      refine ⟨l', ps', ?_, hinv', ?_⟩
      · rw [spendOutputs, if_pos (by rw [Bool.eq_false_iff.mpr hunsp]; rfl), hsp]
        dsimp only
        rw [Option.getD_some, hintact, Bool.and_true]
        exact hrun
      · rw [hview', hview₁]
        rfl

/-- The input loop of `DisconnectBlock` writes every undo coin back
    cleanly when each step finds what a spend left: no coin, and an undo
    coin that is unspent, has a height and a spendable script. -/
theorem restoreInputs_spec (ws : List (COutPoint × Coin)) (fClean : Bool) (l : CCoinsViewCache)
    (ps : List CCoinsViewCache) (hinv : LayersInv db (l :: ps))
    (hok : Replays (fun k cur new => WriteOk k new cur) (viewOf db (l :: ps))
      (ws.map fun w => (w.1, some w.2))) :
    ∃ l' ps', restoreInputs db ws fClean l ps = .ok (.ofClean fClean, l', ps') ∧
      LayersInv db (l' :: ps') ∧
      viewOf db (l' :: ps') = applyWrites (viewOf db (l :: ps)) (ws.map fun w => (w.1, some w.2)) := by
  induction ws generalizing l ps with
  | nil => exact ⟨l, ps, rfl, hinv, rfl⟩
  | cons w ws ih =>
    obtain ⟨out, undo⟩ := w
    obtain ⟨hstep, hrest⟩ := hok
    obtain ⟨hfree, hundo, hheight, hsp⟩ := writeOk_restore hstep
    obtain ⟨l₁, ps₁, happly, hinv₁, hview₁⟩ := applyTxInUndo_spec hdb undo l ps hinv out hfree hundo hheight hsp
    rw [← hview₁] at hrest
    obtain ⟨l', ps', hrun, hinv', hview'⟩ := ih l₁ ps₁ hinv₁ hrest
    refine ⟨l', ps', ?_, hinv', by rw [hview', hview₁]; rfl⟩
    rw [restoreInputs, happly]
    dsimp only [Except.bind]
    rw [if_neg (show DisconnectResult.DISCONNECT_OK ≠ .DISCONNECT_FAILED by decide),
      show (DisconnectResult.DISCONNECT_OK != .DISCONNECT_UNCLEAN) = true from rfl, Bool.and_true]
    exact hrun

/-- `DisconnectBlock` takes the view back over one transaction.  The
    transaction's writes on `ref` leave its outputs over the map after its
    spends; clearing the outputs gives that map back, and replaying the
    undo log of the spends backwards gives `ref`. -/
theorem disconnectTx_spec (getHash : CTransaction → Hash256) (nHeight : Nat) (hh : nHeight < 2 ^ 30)
    (vtxundo : List CTxUndo) (i : Nat) (tx : CTransaction) (ref : CoinsMap) (l : CCoinsViewCache)
    (ps : List CCoinsViewCache) (hinv : LayersInv db (l :: ps))
    (hview : viewOf db (l :: ps) = applyWrites ref (txWrites getHash nHeight tx))
    (hok : Replays WriteOk ref (txWrites getHash nHeight tx))
    (hfirst : i = 0 → tx.isCoinBase = true)
    (hundo : 0 < i → TxUndoOf ref tx (vtxundo.getD (i - 1) ⟨[]⟩)) :
    ∃ l' ps', disconnectTx db getHash nHeight vtxundo i tx true l ps = .ok (.DISCONNECT_OK, l', ps') ∧
      LayersInv db (l' :: ps') ∧ viewOf db (l' :: ps') = ref := by
  rw [txWrites, replays_append] at hok
  rw [txWrites, applyWrites_append] at hview
  obtain ⟨hin, hout⟩ := hok
  have hnd : ((outputWrites (getHash tx) nHeight tx.isCoinBase tx.isCoinStake 0 tx.vout).map Prod.fst).Nodup :=
    outputWrites_nodup 0 tx.vout
  -- the spends leave no coin where an output lands
  have hfresh : ∀ k v, (k, v) ∈ outputWrites (getHash tx) nHeight tx.isCoinBase tx.isCoinStake 0 tx.vout →
      applyWrites ref (inputWrites tx) k = none := by
    intro k v hkv
    obtain ⟨c, rfl⟩ := isSome_of_mem_outputWrites hkv
    exact writeOk_add ((replays_iff_of_nodup _ hnd).mp hout k (some c) hkv)
  obtain ⟨l₁, ps₁, hspend, hinv₁, hview₁⟩ := spendOutputs_spec hdb (getHash tx) nHeight hh tx.isCoinBase
    tx.isCoinStake 0 tx.vout true l ps hinv (fun k c hkc => by rw [hview]; exact applyWrites_of_mem _ hnd hkc)
  have hspent : viewOf db (l₁ :: ps₁) = applyWrites ref (inputWrites tx) := by
    rw [hview₁, hview]
    exact applyWrites_reset _ hnd none hfresh
  unfold disconnectTx
  rw [hspend]
  dsimp only
  rcases Nat.eq_zero_or_pos i with rfl | hi
  · -- the coinbase spends nothing and has no record
    rw [if_neg (Nat.lt_irrefl 0)]
    refine ⟨l₁, ps₁, rfl, hinv₁, ?_⟩
    rw [hspent, inputWrites, if_pos (hfirst rfl), applyWrites_nil]
  · obtain ⟨hlen, hlog⟩ := hundo hi
    -- the record, last input first, is the undo log of the spends reversed
    have hws : (((tx.vin.map fun txin => txin.prevout).zip (vtxundo.getD (i - 1) ⟨[]⟩).vprevout).reverse.map
        fun w => (w.1, some w.2)) = (undoLog ref (inputWrites tx)).reverse := by
      rw [hlog, List.map_reverse, List.zip_map_right]
      rfl
    obtain ⟨l₂, ps₂, hrestore, hinv₂, hview₂⟩ := restoreInputs_spec hdb _ true l₁ ps₁ hinv₁
      (by rw [hspent, hws]; exact replays_undoLog_reverse ref _ hin)
    refine ⟨l₂, ps₂, ?_, hinv₂, ?_⟩
    · rw [if_pos hi, if_neg (not_not.mpr hlen)]
      exact hrestore
    · rw [hview₂, hspent, hws, applyWrites_undoLog_reverse]

/-- `DisconnectBlock`'s loop takes the view back over the first `c`
    transactions.  The induction is on `c`: the view after the first `c + 1`
    is taken back over the `c`-th by `disconnectTx_spec`. -/
theorem disconnectLoop_spec (getHash : CTransaction → Hash256) (nHeight : Nat) (hh : nHeight < 2 ^ 30)
    (vtx : List CTransaction) (vtxundo : List CTxUndo) (ref : CoinsMap)
    (hok : Replays WriteOk ref (blockWrites getHash nHeight vtx))
    (hshape : ∀ j (hj : j < vtx.length), vtx[j].isCoinBase = true ↔ j = 0)
    (hundo : ∀ j (hj : j < vtx.length), 0 < j →
      TxUndoOf (applyWrites ref (blockWrites getHash nHeight (vtx.take j))) vtx[j] (vtxundo.getD (j - 1) ⟨[]⟩)) :
    ∀ c, c ≤ vtx.length → ∀ l ps, LayersInv db (l :: ps) →
      viewOf db (l :: ps) = applyWrites ref (blockWrites getHash nHeight (vtx.take c)) →
      ∃ l' ps', disconnectLoop db getHash nHeight vtx vtxundo c true l ps = .ok (.DISCONNECT_OK, l', ps') ∧
        LayersInv db (l' :: ps') ∧ viewOf db (l' :: ps') = ref := by
  intro c
  induction c with
  | zero =>
    intro _ l ps hinv hview
    exact ⟨l, ps, rfl, hinv, by rw [hview, List.take_zero, blockWrites_nil, applyWrites_nil]⟩
  | succ c ih =>
    intro hc l ps hinv hview
    have hcl : c < vtx.length := hc
    rw [blockWrites_take_succ getHash nHeight vtx hcl, applyWrites_append] at hview
    obtain ⟨l₁, ps₁, htx, hinv₁, hview₁⟩ := disconnectTx_spec hdb getHash nHeight hh vtxundo c vtx[c] _ l ps
      hinv hview (replays_txWrites getHash nHeight hok hcl) (hshape c hcl).mpr (hundo c hcl)
    obtain ⟨l', ps', hrun, hinv', hview'⟩ := ih (Nat.le_of_lt hcl) l₁ ps₁ hinv₁ hview₁
    refine ⟨l', ps', ?_, hinv', hview'⟩
    rw [disconnectLoop, List.getD_eq_getElem _ _ hcl, htx]
    dsimp only [Except.bind]
    rw [if_neg (show DisconnectResult.DISCONNECT_OK ≠ .DISCONNECT_FAILED by decide)]
    exact hrun

end Disconnect

/-! ## Disconnecting undoes connecting -/

/-- Disconnecting a block undoes connecting it.  For a block whose first
    transaction is its only coinbase, at a height below `2 ^ 30`, with no
    output of value `-1`, and whose writes each find what they need on the
    view (a spend an unspent coin whose height is not 0 and whose script is
    spendable, an added coin no coin): the `UpdateCoins` calls of
    `ConnectBlock` do the block's writes to the view, and `DisconnectBlock`
    with their undo records returns `DISCONNECT_OK`, keeps the entry
    invariant, gives back the view before the block, every coin with its
    height and flags, and moves the best block to the parent. -/
theorem disconnectBlock_undoes_connect (getHash : CTransaction → Hash256) {db : CCoinsViewDB}
    (hdb : DBInv db) (l : CCoinsViewCache) (ps : List CCoinsViewCache) (hinv : LayersInv db (l :: ps))
    (vtx : List CTransaction) (nHeight : Nat) (hashPrevBlock : Hash256) (hh : nHeight < 2 ^ 30)
    (hcb : ∃ cb rest, vtx = cb :: rest ∧ cb.isCoinBase = true ∧ ∀ tx ∈ rest, tx.isCoinBase = false)
    (hval : ∀ tx ∈ vtx, ∀ out ∈ tx.vout, out.nValue ≠ -1)
    (hok : Replays WriteOk (viewOf db (l :: ps)) (blockWrites getHash nHeight vtx)) :
    ∃ us l₁ ps₁ l₂ ps₂,
      connectBlockCoins db getHash nHeight 0 vtx l ps = .ok (us, l₁, ps₁) ∧
      viewOf db (l₁ :: ps₁) = applyWrites (viewOf db (l :: ps)) (blockWrites getHash nHeight vtx) ∧
      disconnectBlock db getHash vtx nHeight hashPrevBlock ⟨us⟩ l₁ ps₁ = .ok (.DISCONNECT_OK, l₂, ps₂) ∧
      LayersInv db (l₂ :: ps₂) ∧ viewOf db (l₂ :: ps₂) = viewOf db (l :: ps) ∧
      l₂.hashBlock = hashPrevBlock := by
  obtain ⟨cb, rest, rfl, hcb0, hrest⟩ := hcb
  have hsplit := hok
  rw [blockWrites_cons, replays_append] at hsplit
  obtain ⟨hokcb, hokrest⟩ := hsplit
  -- connecting: the coinbase, whose record is dropped, then the others
  obtain ⟨u₀, l₀, ps₀, hupd, hinv₀, hview₀, -⟩ :=
    updateCoins_spec hdb getHash cb l ps nHeight hinv (hval cb List.mem_cons_self) hokcb
  rw [← hview₀] at hokrest
  obtain ⟨us, l₁, ps₁, hrun, hinv₁, hview₁, hundo⟩ := connectBlockCoins_spec hdb getHash nHeight 0 rest
    l₀ ps₀ hinv₀ hrest (fun t ht => hval t (List.mem_cons_of_mem _ ht)) hokrest
  have hconn : connectBlockCoins db getHash nHeight 0 (cb :: rest) l ps = .ok (us, l₁, ps₁) := by
    rw [connectBlockCoins, hupd]
    show (connectBlockCoins db getHash nHeight (0 + 1) rest l₀ ps₀).map _ = _
    rw [hrun]
    rfl
  have hconnected : viewOf db (l₁ :: ps₁) =
      applyWrites (viewOf db (l :: ps)) (blockWrites getHash nHeight (cb :: rest)) := by
    rw [hview₁, hview₀, blockWrites_cons, applyWrites_append]
  -- disconnecting: the coinbase comes first and only there
  have hshape : ∀ j (hj : j < (cb :: rest).length), (cb :: rest)[j].isCoinBase = true ↔ j = 0 := by
    intro j hj
    cases j with
    | zero => exact ⟨fun _ => rfl, fun _ => hcb0⟩
    | succ j =>
      rw [List.getElem_cons_succ, hrest _ (List.getElem_mem _)]
      exact ⟨fun h => absurd h Bool.false_ne_true, fun h => absurd h (Nat.succ_ne_zero j)⟩
  have hrecords : ∀ j (hj : j < (cb :: rest).length), 0 < j →
      TxUndoOf (applyWrites (viewOf db (l :: ps)) (blockWrites getHash nHeight ((cb :: rest).take j)))
        (cb :: rest)[j] (us.getD (j - 1) ⟨[]⟩) := by
    intro j hj hj0
    obtain ⟨j, rfl⟩ : ∃ j', j = j' + 1 := ⟨j - 1, by omega⟩
    rw [List.take_succ_cons, blockWrites_cons, applyWrites_append, ← hview₀, List.getElem_cons_succ,
      Nat.add_sub_cancel]
    exact hundo.getD j (Nat.lt_of_succ_lt_succ hj)
  obtain ⟨l', ps', hloop, hinv', hview'⟩ := disconnectLoop_spec hdb getHash nHeight hh (cb :: rest) us
    (viewOf db (l :: ps)) hok hshape hrecords (cb :: rest).length (Nat.le_refl _) l₁ ps₁ hinv₁
    (by rw [List.take_length]; exact hconnected)
  refine ⟨us, l₁, ps₁, l'.setBestBlock hashPrevBlock, ps', hconn, hconnected, ?_, hinv', hview', rfl⟩
  unfold disconnectBlock
  dsimp only
  rw [if_neg (not_not.mpr (by rw [hundo.length, List.length_cons])), hloop]
  rfl

/-! ## A block spending a stored coin -/

def fundingTxid : Hash256 := 3

/-- The stored output the block spends. -/
def storedOut : COutPoint := ⟨fundingTxid, 0⟩

/-- A coinbase paying 50, and a transaction spending `storedOut`. -/
def coinbaseTx : CTransaction := ⟨[⟨⟨0, NULL_INDEX⟩, []⟩], [⟨50, []⟩]⟩
def spendTx : CTransaction := ⟨[⟨storedOut, []⟩], [⟨5, []⟩]⟩
def spendBlock : List CTransaction := [coinbaseTx, spendTx]

def blockTxid (tx : CTransaction) : Hash256 := if tx.isCoinBase then 10 else 11

/-- A database holding `c` at `storedOut` and `c'` at the next output of
    the same transaction. -/
def fundingDB (c c' : Option Coin) : CCoinsViewDB :=
  ⟨fun k => if k = storedOut then c else if k = ⟨fundingTxid, 1⟩ then c' else none, 0⟩

def fundedCoin : Coin := ⟨⟨5, []⟩, false, false, 1⟩

theorem fundingDB_inv (c c' : Option Coin) (hc : ∀ x, c = some x → x.isSpent = false)
    (hc' : ∀ x, c' = some x → x.isSpent = false) : DBInv (fundingDB c c') := by
  intro k x hx
  unfold fundingDB at hx
  dsimp only at hx
  split at hx
  · exact hc x hx
  · split at hx
    · exact hc' x hx
    · cases hx

theorem disconnectBlock_undoes_connect_spend :
    (DBInv (fundingDB (some fundedCoin) none) ∧
      LayersInv (fundingDB (some fundedCoin) none) [CCoinsViewCache.init] ∧ 7 < 2 ^ 30 ∧
      (∃ cb rest, spendBlock = cb :: rest ∧ cb.isCoinBase = true ∧ ∀ tx ∈ rest, tx.isCoinBase = false) ∧
      (∀ tx ∈ spendBlock, ∀ out ∈ tx.vout, out.nValue ≠ -1) ∧
      Replays WriteOk (viewOf (fundingDB (some fundedCoin) none) [CCoinsViewCache.init])
        (blockWrites blockTxid 7 spendBlock)) ∧
    ∃ us l₁ ps₁ l₂ ps₂,
      connectBlockCoins (fundingDB (some fundedCoin) none) blockTxid 7 0 spendBlock .init [] =
        .ok (us, l₁, ps₁) ∧
      viewOf (fundingDB (some fundedCoin) none) (l₁ :: ps₁) =
        applyWrites (viewOf (fundingDB (some fundedCoin) none) [CCoinsViewCache.init])
          (blockWrites blockTxid 7 spendBlock) ∧
      disconnectBlock (fundingDB (some fundedCoin) none) blockTxid spendBlock 7 0 ⟨us⟩ l₁ ps₁ =
        .ok (.DISCONNECT_OK, l₂, ps₂) ∧
      LayersInv (fundingDB (some fundedCoin) none) (l₂ :: ps₂) ∧
      viewOf (fundingDB (some fundedCoin) none) (l₂ :: ps₂) =
        viewOf (fundingDB (some fundedCoin) none) [CCoinsViewCache.init] ∧
      l₂.hashBlock = 0 := by
  have hdb : DBInv (fundingDB (some fundedCoin) none) :=
    fundingDB_inv _ _ (fun x hx => by cases hx; rfl) (fun x hx => by cases hx)
  have hinv : LayersInv (fundingDB (some fundedCoin) none) [CCoinsViewCache.init] :=
    ⟨LayerInv.empty _ _ _ rfl, trivial⟩
  have hh : 7 < 2 ^ 30 := by decide
  have hcb : ∃ cb rest, spendBlock = cb :: rest ∧ cb.isCoinBase = true ∧ ∀ tx ∈ rest, tx.isCoinBase = false :=
    ⟨coinbaseTx, [spendTx], rfl, by decide, by decide⟩
  have hval : ∀ tx ∈ spendBlock, ∀ out ∈ tx.vout, out.nValue ≠ -1 := by decide
  have hok : Replays WriteOk (viewOf (fundingDB (some fundedCoin) none) [CCoinsViewCache.init])
      (blockWrites blockTxid 7 spendBlock) := by decide
  exact ⟨⟨hdb, hinv, hh, hcb, hval, hok⟩,
    disconnectBlock_undoes_connect blockTxid hdb .init [] hinv spendBlock 7 0 hh hcb hval hok⟩

/-! ## A coin of height 0 -/

/-- A coin of height 0 at `storedOut`, and an unspent output of the same
    transaction at height 5, marked a coinbase's. -/
def zeroHeightCoin : Coin := ⟨⟨5, []⟩, false, false, 0⟩
def siblingCoin : Coin := ⟨⟨6, []⟩, true, false, 5⟩

/-- Connect `spendBlock` at height 7 on an empty cache over `db` and
    disconnect it again: the result, and the coin the view then shows at
    `storedOut`. -/
def spendBlockRoundTrip (db : CCoinsViewDB) : Option (DisconnectResult × Option Coin) :=
  match connectBlockCoins db blockTxid 7 0 spendBlock .init [] with
  | .ok (us, l₁, ps₁) =>
    match disconnectBlock db blockTxid spendBlock 7 0 ⟨us⟩ l₁ ps₁ with
    | .ok (r, l₂, ps₂) => some (r, viewOf db (l₂ :: ps₂) storedOut)
    | .error _ => none
  | .error _ => none

/-- The block spends a coin of the view, and the view has no coin under the
    hash of either of its transactions; disconnecting it still returns
    `DISCONNECT_OK`, but the coin at `storedOut` comes back at height 5 and
    marked a coinbase's: `ApplyTxInUndo` read the undo coin's height 0 as
    missing metadata and took that of the other output. -/
theorem disconnectBlock_height_zero :
    viewOf (fundingDB (some zeroHeightCoin) (some siblingCoin)) [.init] storedOut = some zeroHeightCoin ∧
    (∀ n, viewOf (fundingDB (some zeroHeightCoin) (some siblingCoin)) [.init] ⟨blockTxid coinbaseTx, n⟩ = none ∧
      viewOf (fundingDB (some zeroHeightCoin) (some siblingCoin)) [.init] ⟨blockTxid spendTx, n⟩ = none) ∧
    spendBlockRoundTrip (fundingDB (some zeroHeightCoin) (some siblingCoin)) =
      some (.DISCONNECT_OK, some ⟨⟨5, []⟩, true, false, 5⟩) :=
  ⟨rfl, fun _ => ⟨rfl, rfl⟩, by decide⟩

end Revo
