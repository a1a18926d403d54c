/-
  Revo.Validation.GasRefunds

  Gas refunds never exceed the fees that pay for them.  The parser bounds
  each converted output's gas limit, gas price and their product by
  `INT64_MAX`; `ConnectBlock` bounds the stipend `sum(gas * gasPrice)` of a
  contract transaction by `INT64_MAX` and by its fee; a run uses at most its
  gas.  Under these bounds `processingResults` succeeds, each refund is the
  exact `(gas - gasUsed) * gasPrice`, and the refunds of a transaction are at
  most its stipend, hence at most its fee.  Over a block, `gasRefunds` then
  stays below `nFees` after every transaction, and the final refund check of
  `ConnectBlock` never rejects a block that passed the loop.
-/

import Revo.Validation.ConnectBlock

namespace Revo

/-- The gas stipend of the converted outputs, `sum(gas * gasPrice)`, exactly. -/
def gasStipend (outs : List (RevoTransaction × EthTransactionParams)) : Nat :=
  (outs.map fun e => e.1.gas.toNat * e.1.gasPrice.toNat).sum

/-! ## The refunds of one contract transaction -/

theorem gasRefundOutput_value_le {afterQIP7 : Bool} {e : RevoTransaction × ResultExecute}
    {o : CTxOut} (h : gasRefundOutput afterQIP7 e = some o) :
    o.nValue ≤ ((e.1.gas.toNat * e.1.gasPrice.toNat : Nat) : Int) := by
  unfold gasRefundOutput at h
  split at h
  · cases h
    exact Int.ofNat_le.mpr (Nat.mul_le_mul_right _ (Nat.sub_le _ _))
  · cases h

/-- What the runs are owed is at most what all their gas costs. -/
theorem sum_gasRefundOutput_le (afterQIP7 : Bool) (l : List (RevoTransaction × ResultExecute)) :
    ((l.filterMap (gasRefundOutput afterQIP7)).map CTxOut.nValue).sum ≤
      (((l.map fun e => e.1.gas.toNat * e.1.gasPrice.toNat).sum : Nat) : Int) := by
  induction l with
  | nil => exact le_refl 0
  | cons e l ih =>
    rw [List.filterMap_cons, List.map_cons, List.sum_cons, Nat.cast_add]
    cases h : gasRefundOutput afterQIP7 e with
    | none =>
      -- no refund for `e`: its cost only adds to the bound
      exact ih.trans (Int.le_add_of_nonneg_left (Int.natCast_nonneg _))
    | some o =>
      rw [List.map_cons, List.sum_cons]
      exact Int.add_le_add (gasRefundOutput_value_le h) ih

theorem addStipend_ok {nTxFee : CAmount} {sumGas sumGas' : U256} {qtx : RevoTransaction}
    (h : addStipend nTxFee sumGas qtx = .ok sumGas') :
    sumGas' = sumGas + qtx.gas * qtx.gasPrice ∧ sumGas'.toNat ≤ INT64_MAX_U ∧
      sumGas'.toNat ≤ (BitVec.ofInt 256 nTxFee).toNat := by
  unfold addStipend at h
  by_cases hmax : sumGas + qtx.gas * qtx.gasPrice > BitVec.ofInt 256 INT64_MAX
  · rw [if_pos hmax] at h
    cases h
  rw [if_neg hmax] at h
  by_cases hfee : sumGas + qtx.gas * qtx.gasPrice > BitVec.ofInt 256 nTxFee
  · rw [if_pos hfee] at h
    cases h
  rw [if_neg hfee] at h
  cases h
  have hint : (BitVec.ofInt 256 INT64_MAX).toNat = INT64_MAX_U := by decide
  rw [gt_iff_lt, BitVec.lt_def, Nat.not_lt, hint] at hmax
  rw [gt_iff_lt, BitVec.lt_def, Nat.not_lt] at hfee
  exact ⟨rfl, hmax, hfee⟩

theorem checkContractOutput_sumGas {nTxFee : CAmount} {blockGasLimit minGasPrice : Nat}
    {st st' : StipendState} {e : RevoTransaction × EthTransactionParams}
    (h : checkContractOutput nTxFee blockGasLimit minGasPrice st e = .ok st') :
    addStipend nTxFee st.sumGas e.1 = .ok st'.sumGas := by
  obtain ⟨sumGas, hstip, h⟩ := Fold.except_bind_eq_ok h
  obtain ⟨_, _, h⟩ := Fold.except_bind_eq_ok h
  obtain ⟨_, _, h⟩ := Fold.except_map_eq_ok h
  rw [← h]
  exact hstip

/-- A `dev::u256` made from a non-negative `CAmount` is at most that amount. -/
theorem toNat_ofInt_le {v : CAmount} (hv : 0 ≤ v) : ((BitVec.ofInt 256 v).toNat : Int) ≤ v := by
  obtain ⟨n, rfl⟩ := Int.eq_ofNat_of_zero_le hv
  rw [BitVec.ofInt_natCast, BitVec.toNat_ofNat]
  exact Int.ofNat_le.mpr (Nat.mod_le _ _)

/-- The stipend check of `ConnectBlock`: the stipend fits in an `int64_t` and
    is covered by the fee.  The `dev::u256` sum never wraps, since every
    product and every partial sum stays below `INT64_MAX`. -/
theorem checkContractTxs_stipend {nTxFee : CAmount} {blockGasLimit minGasPrice : Nat}
    {outs : List (RevoTransaction × EthTransactionParams)} {st : StipendState}
    (hprod : ∀ e ∈ outs, e.1.gas.toNat * e.1.gasPrice.toNat ≤ INT64_MAX_U) (hfee : 0 ≤ nTxFee)
    (h : checkContractTxs nTxFee blockGasLimit minGasPrice outs = .ok st) :
    gasStipend outs ≤ INT64_MAX_U ∧ (gasStipend outs : Int) ≤ nTxFee := by
  obtain ⟨st₀, hfold, -⟩ := Fold.except_bind_eq_ok h
  have hmax : INT64_MAX_U = 2 ^ 63 - 1 := rfl
  -- the running `sumGas` is the exact stipend of the outputs checked so far
  obtain ⟨hsum, hle, hcov⟩ := Fold.foldlM_except_rel
    (fun pre (s : StipendState) => s.sumGas.toNat = gasStipend pre ∧
      s.sumGas.toNat ≤ INT64_MAX_U ∧ (s.sumGas.toNat : Int) ≤ nTxFee)
    outs
    (fun pre e s s' he ⟨hsum, hle, _⟩ hstep => by
      obtain ⟨heq, hle', hcov'⟩ := addStipend_ok (checkContractOutput_sumGas hstep)
      have he' := hprod e he
      have hmul : (e.1.gas * e.1.gasPrice).toNat = e.1.gas.toNat * e.1.gasPrice.toNat :=
        BitVec.toNat_mul_of_lt (by omega)
      have hadd : s'.sumGas.toNat = s.sumGas.toNat + e.1.gas.toNat * e.1.gasPrice.toNat := by
        rw [heq, BitVec.toNat_add_of_lt (by rw [hmul]; omega), hmul]
      refine ⟨?_, hle', (Int.ofNat_le.mpr hcov').trans (toNat_ofInt_le hfee)⟩
      rw [hadd, hsum, gasStipend, gasStipend, List.map_append, List.sum_append]
      rfl)
    [] ⟨0, 0, false⟩ ⟨rfl, Nat.zero_le _, hfee⟩ hfold
  rw [List.nil_append] at hsum
  rw [← hsum]
  exact ⟨hle, hcov⟩

/-- The refunds of one contract transaction whose outputs the converter
    accepted, which passed `ConnectBlock`'s checks, and whose runs used at
    most their gas: `processingResults` succeeds, every refund output is the
    exact refund its run is owed, `refundSender` is their total, and the total
    is at most the stipend, which is at most `INT64_MAX` and the fee. -/
theorem contractTx_refunds (toCAmount : U256 → CAmount) (afterQIP7 : Bool)
    {outs : List (RevoTransaction × EthTransactionParams)} {results : List ResultExecute}
    {nTxFee : CAmount} {blockGasLimit minGasPrice : Nat} {st : StipendState}
    (hconv : ∀ e ∈ outs, Converted e)
    (hused : List.Forall₂ (fun e res => res.gasUsed.toNat ≤ e.1.gas.toNat) outs results)
    (hfee : 0 ≤ nTxFee) (hcheck : checkContractTxs nTxFee blockGasLimit minGasPrice outs = .ok st) :
    ∃ r, processingResults toCAmount afterQIP7 (outs.map Prod.fst) results = some r ∧
      r.refundOutputs = ((outs.map Prod.fst).zip results).filterMap (gasRefundOutput afterQIP7) ∧
      r.refundSender = (r.refundOutputs.map CTxOut.nValue).sum ∧
      (r.refundOutputs.map CTxOut.nValue).sum ≤ (gasStipend outs : Int) ∧
      (gasStipend outs : Int) ≤ min INT64_MAX nTxFee := by
  have hlen : (outs.map Prod.fst).length ≤ results.length := by
    rw [List.length_map, hused.length_eq]
  -- every run is within the bounds of `processingResults_of_bounds`
  have hb : List.Forall₂ RefundBounds (outs.map Prod.fst) results := by
    rw [List.forall₂_map_left_iff]
    refine List.forall₂_iff_zip.mpr ⟨hused.length_eq, fun {e res} hmem => ?_⟩
    obtain ⟨hg, hp, hm⟩ := (hconv e (List.of_mem_zip hmem).1).gas_bounds
    exact ⟨hg, hp, hm, (List.forall₂_iff_zip.mp hused).2 hmem⟩
  obtain ⟨r, hr, hout, hsnd⟩ := processingResults_of_bounds toCAmount afterQIP7 hb
  obtain ⟨hstipMax, hstipFee⟩ :=
    checkContractTxs_stipend (fun e he => ((hconv e he).gas_bounds).2.2) hfee hcheck
  -- the bound of `sum_gasRefundOutput_le` over the pairs is the stipend
  have hcost : (((outs.map Prod.fst).zip results).map
      fun e => e.1.gas.toNat * e.1.gasPrice.toNat).sum = gasStipend outs := by
    have hfst : (((outs.map Prod.fst).zip results).map
        fun e => e.1.gas.toNat * e.1.gasPrice.toNat) =
        (((outs.map Prod.fst).zip results).map Prod.fst).map
          fun q => q.gas.toNat * q.gasPrice.toNat := by
      rw [List.map_map]
      rfl
    rw [hfst, List.map_fst_zip hlen, List.map_map]
    rfl
  refine ⟨r, hr, hout, hsnd, ?_, ?_⟩
  · rw [hout, ← hcost]
    exact sum_gasRefundOutput_le afterQIP7 _
  · have hint : (INT64_MAX_U : Int) = INT64_MAX := by decide
    exact le_min (hint ▸ Int.ofNat_le.mpr hstipMax) hstipFee

/-! ## The loop over the block -/

theorem sumCoins_ok {coins : List CAmount} {nValueIn : CAmount}
    (h : sumCoins coins = .ok nValueIn) : nValueIn = coins.sum := by
  -- the accumulator is the sum of the coins tallied so far
  have := Fold.foldlM_except_rel (fun pre (acc : CAmount) => acc = pre.sum) coins
    (fun pre v acc acc' _ hacc hstep => by
      split at hstep
      · cases hstep
        rw [hacc, List.sum_append, List.sum_singleton]
      · cases hstep)
    [] 0 rfl h
  rwa [List.nil_append] at this

/-- The fee `CheckTxInputs` reports is never negative; outside a coinstake it
    is what the inputs bring in beyond the outputs. -/
theorem checkTxInputs_ok {isCoinStake : Bool} {coins : List CAmount} {valueOut txfee : CAmount}
    (h : checkTxInputs isCoinStake coins valueOut = .ok txfee) :
    0 ≤ txfee ∧ (isCoinStake = false → txfee = coins.sum - valueOut) := by
  obtain ⟨nValueIn, hin, h⟩ := Fold.except_bind_eq_ok h
  rw [sumCoins_ok hin] at h
  by_cases hcs : isCoinStake = true
  · rw [if_pos hcs] at h
    cases h
    exact ⟨le_refl 0, fun hf => absurd hcs (by rw [hf]; decide)⟩
  rw [if_neg hcs] at h
  by_cases hbelow : coins.sum < valueOut
  · rw [if_pos hbelow] at h
    cases h
  rw [if_neg hbelow] at h
  split at h
  · cases h
  · cases h
    exact ⟨Int.sub_nonneg.mpr (not_lt.mp hbelow), fun _ => rfl⟩

theorem tallyFee_ok {nFees n : CAmount} {tx : BlockTx} (h : tallyFee nFees tx = .ok n) :
    nFees ≤ n ∧ (tx.isCoinBase = false → tx.isCoinStake = false →
      n = nFees + (tx.valueIn - tx.valueOut) ∧ 0 ≤ tx.valueIn - tx.valueOut) := by
  unfold tallyFee at h
  by_cases hcb : tx.isCoinBase = true
  · rw [if_pos hcb] at h
    cases h
    exact ⟨le_refl _, fun hf => absurd hcb (by rw [hf]; decide)⟩
  rw [if_neg hcb] at h
  obtain ⟨txfee, hfee, h⟩ := Fold.except_bind_eq_ok h
  split at h
  · cases h
  cases h
  obtain ⟨hnn, heq⟩ := checkTxInputs_ok hfee
  refine ⟨Int.le_add_of_nonneg_right hnn, fun _ hcs => ?_⟩
  -- outside the coinbase `GetValueIn` is the sum the fee was computed from
  have hin : tx.valueIn = tx.coins.sum := by rw [BlockTx.valueIn, if_neg hcb]
  rw [hin, ← heq hcs]
  exact ⟨rfl, hnn⟩

theorem addResults_ok {toCAmount : U256 → CAmount} {afterQIP7 : Bool} {blockGasLimit : Nat}
    {st st' : BlockFees} {outs : List (RevoTransaction × EthTransactionParams)}
    {results : List ResultExecute}
    (h : addResults toCAmount afterQIP7 blockGasLimit st outs results = .ok st') :
    ∃ bcer, processingResults toCAmount afterQIP7 (outs.map Prod.fst) results = some bcer ∧
      st'.nFees = st.nFees ∧
      st'.gasRefunds = st.gasRefunds + (bcer.refundOutputs.map CTxOut.nValue).sum := by
  unfold addResults at h
  split at h
  · cases h
  · rename_i bcer hproc
    split at h
    · cases h
    · cases h
      exact ⟨bcer, hproc, rfl, rfl⟩

theorem connectContract_ok {toCAmount : U256 → CAmount} {afterQIP7 : Bool}
    {blockGasLimit minGasPrice : Nat} {st st' : BlockFees} {tx : BlockTx}
    (h : connectContract toCAmount afterQIP7 blockGasLimit minGasPrice st tx = .ok st') :
    ∃ outs, tx.extracted = some outs ∧
      (∃ s, checkContractTxs (tx.valueIn - tx.valueOut) blockGasLimit minGasPrice outs = .ok s) ∧
      addResults toCAmount afterQIP7 blockGasLimit st outs tx.results = .ok st' := by
  unfold connectContract at h
  split at h
  · cases h
  · rename_i outs hext
    split at h
    · cases h
    obtain ⟨s, hcheck, h⟩ := Fold.except_bind_eq_ok h
    split at h
    · cases h
    · exact ⟨outs, hext, ⟨s, hcheck⟩, h⟩

/-- What `ConnectBlock` relies on for a contract transaction: it is neither
    the coinbase nor the coinstake (`CheckBlock` rejects contract opcodes in
    both), and every extracted output was converted from its script and ran
    within its gas. -/
def ContractTxOk (tx : BlockTx) : Prop :=
  tx.hasCreateOrCall = true → tx.hasOpSpend = false →
    tx.isCoinBase = false ∧ tx.isCoinStake = false ∧
      ∀ outs, tx.extracted = some outs → (∀ e ∈ outs, Converted e) ∧
        List.Forall₂ (fun e res => res.gasUsed.toNat ≤ e.1.gas.toNat) outs tx.results

/-- One transaction keeps the block's refunds below its fees. -/
theorem connectTx_refunds_le {toCAmount : U256 → CAmount} {afterQIP7 : Bool}
    {blockGasLimit minGasPrice : Nat} {st st' : BlockFees} {tx : BlockTx} (htx : ContractTxOk tx)
    (hst : st.gasRefunds ≤ st.nFees)
    (h : connectTx toCAmount afterQIP7 blockGasLimit minGasPrice st tx = .ok st') :
    st'.gasRefunds ≤ st'.nFees := by
  obtain ⟨nFees, hfee, h⟩ := Fold.except_bind_eq_ok h
  obtain ⟨hgrow, hexact⟩ := tallyFee_ok hfee
  by_cases hc : (tx.hasCreateOrCall && !tx.hasOpSpend) = true
  case neg =>
    rw [if_neg hc] at h
    cases h
    exact hst.trans hgrow
  case pos =>
    rw [if_pos hc] at h
    have hcall : tx.hasCreateOrCall = true ∧ tx.hasOpSpend = false := by simpa using hc
    obtain ⟨hcb, hcs, houts⟩ := htx hcall.1 hcall.2
    obtain ⟨outs, hext, ⟨s, hcheck⟩, hres⟩ := connectContract_ok h
    obtain ⟨bcer, hproc, hnf, hgr⟩ := addResults_ok hres
    obtain ⟨hconv, hused⟩ := houts outs hext
    obtain ⟨hn, hfeeNonneg⟩ := hexact hcb hcs
    -- the refunds of this transaction are at most its fee
    obtain ⟨r, hr, -, -, hsum, hstip⟩ :=
      contractTx_refunds toCAmount afterQIP7 hconv hused hfeeNonneg hcheck
    rw [hproc, Option.some.injEq] at hr
    subst hr
    have hcover : (bcer.refundOutputs.map CTxOut.nValue).sum ≤ tx.valueIn - tx.valueOut :=
      hsum.trans (hstip.trans (min_le_right _ _))
    rw [hgr, hnf]
    show st.gasRefunds + _ ≤ nFees
    rw [hn]
    exact Int.add_le_add hst hcover

/-- Over a block the accumulated `gasRefunds` stays at most `nFees`, so the
    final refund check passes whenever the loop does. -/
theorem connectBlock_refunds_le (toCAmount : U256 → CAmount) (afterQIP7 : Bool)
    (blockGasLimit minGasPrice : Nat) {block : List BlockTx} (hblock : ∀ tx ∈ block, ContractTxOk tx)
    {st : BlockFees}
    (h : block.foldlM (connectTx toCAmount afterQIP7 blockGasLimit minGasPrice) .init = .ok st) :
    st.gasRefunds ≤ st.nFees ∧
      connectBlockFees toCAmount afterQIP7 blockGasLimit minGasPrice block = .ok st := by
  have hle : st.gasRefunds ≤ st.nFees := Fold.foldlM_except_rel (fun _ s => s.gasRefunds ≤ s.nFees)
    block (fun _ tx _ _ htx hs hstep => connectTx_refunds_le (hblock tx htx) hs hstep)
    [] .init (le_refl 0) h
  refine ⟨hle, ?_⟩
  unfold connectBlockFees
  rw [h]
  exact if_neg (not_lt.mpr hle)

theorem gasRefunds_le_fees (toCAmount : U256 → CAmount) (afterQIP7 : Bool) :
    (∀ (outs : List (RevoTransaction × EthTransactionParams)) (results : List ResultExecute)
        (nTxFee : CAmount) (blockGasLimit minGasPrice : Nat) (st : StipendState),
      (∀ e ∈ outs, Converted e) →
      List.Forall₂ (fun e res => res.gasUsed.toNat ≤ e.1.gas.toNat) outs results →
      0 ≤ nTxFee →
      checkContractTxs nTxFee blockGasLimit minGasPrice outs = .ok st →
      ∃ r, processingResults toCAmount afterQIP7 (outs.map Prod.fst) results = some r ∧
        r.refundOutputs = ((outs.map Prod.fst).zip results).filterMap (gasRefundOutput afterQIP7) ∧
        r.refundSender = (r.refundOutputs.map CTxOut.nValue).sum ∧
        (r.refundOutputs.map CTxOut.nValue).sum ≤ (gasStipend outs : Int) ∧
        (gasStipend outs : Int) ≤ min INT64_MAX nTxFee) ∧
    (∀ (blockGasLimit minGasPrice : Nat) (block : List BlockTx) (st : BlockFees),
      (∀ tx ∈ block, ContractTxOk tx) →
      block.foldlM (connectTx toCAmount afterQIP7 blockGasLimit minGasPrice) .init = .ok st →
      st.gasRefunds ≤ st.nFees ∧
        connectBlockFees toCAmount afterQIP7 blockGasLimit minGasPrice block = .ok st) :=
  ⟨fun _ _ _ _ _ _ hconv hused hfee hcheck =>
      contractTx_refunds toCAmount afterQIP7 hconv hused hfee hcheck,
    fun blockGasLimit minGasPrice _ _ hblock h =>
      connectBlock_refunds_le toCAmount afterQIP7 blockGasLimit minGasPrice hblock h⟩

/-- `CScript() << CScriptNum(4) << CScriptNum(10000) << CScriptNum(1) << code << OP_CREATE`
    with code `[1]`: the stack it leaves, top first, and what the converter makes of it. -/
def createStack : List Valtype := [[1], [1], [0x10, 0x27], [4]]

def createParams : EthTransactionParams := ⟨VersionVM.evmDefault, 10000, 1, [1], 0⟩

def createOuts : List (RevoTransaction × EthTransactionParams) :=
  [(createEthTX createParams 0 0 0 0 0, createParams)]

/-- A clean run that used 6000 of its 10000 gas. -/
def createResults : List ResultExecute := [⟨.None, 6000, CTransaction.empty⟩]

/-- A coinbase, then the contract transaction paying a fee of 10000. -/
def createBlock : List BlockTx :=
  [⟨true, false, [], 5000000000, false, false, none, []⟩,
    ⟨false, false, [30000], 20000, true, false, some createOuts, createResults⟩]

theorem gasRefunds_le_fees_create :
    (∃ r, processingResults (fun _ => 0) false (createOuts.map Prod.fst) createResults = some r ∧
      r.refundOutputs = [⟨4000, payToPubkeyHash 0⟩]) ∧
    ((4000 : CAmount) ≤ 10000 ∧
      connectBlockFees (fun _ => 0) false 40000000 1 createBlock = .ok ⟨10000, 4000, 6000⟩) := by
  have hconv : ∀ e ∈ createOuts, Converted e := by
    intro e he
    rw [createOuts, List.mem_singleton] at he
    subst he
    exact ⟨⟨OP_CREATE, false, createStack, [], by decide⟩, ⟨0, 0, 0, 0, 0, rfl⟩⟩
  obtain ⟨r, hr, hout, -⟩ := (gasRefunds_le_fees (fun _ => 0) false).1 createOuts createResults
    10000 40000000 1 ⟨10000, 10000, true⟩ hconv (by decide) (by decide) rfl
  refine ⟨⟨r, hr, by rw [hout]; rfl⟩, ?_⟩
  have hblock : ∀ tx ∈ createBlock, ContractTxOk tx := by
    intro tx htx
    rw [createBlock, List.mem_cons, List.mem_singleton] at htx
    rcases htx with rfl | rfl
    · intro hcall
      cases hcall
    · intro _ _
      refine ⟨rfl, rfl, fun outs hext => ?_⟩
      cases hext
      exact ⟨hconv, by decide⟩
  exact (gasRefunds_le_fees (fun _ => 0) false).2 40000000 1 createBlock ⟨10000, 4000, 6000⟩
    hblock rfl

end Revo
