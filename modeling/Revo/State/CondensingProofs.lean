/-
  Revo.State.CondensingProofs

  What the condensing transaction does, for every list of transfers, every
  state and every set of deleted addresses:

    * `createCondensingTX_balances` — the balance check fails exactly on a
      negative `start + received - sent`; otherwise the inputs spend the
      counted vins, their values add up to the outputs' values, and the
      output paying an address carries its new balance;
    * `createVin_updateUTXO` — the `Vin`s written back by `createVin` and
      `updateUTXO` point at the outputs that pay each address.

  The proofs follow the phases of `createCondensingTX`: the facts about the
  object after each phase are collected first (`selected_*`, `totalled_*`,
  `balanced_*`), each from the phase's spec lemma.
-/

import Revo.State.CondensingSpec
import Mathlib.Algebra.Order.BigOperators.Group.Finset
import Mathlib.Algebra.BigOperators.Ring.Finset

namespace Revo

open CondensingTX

/-- The object after `selectionVin`. -/
def selected (st : RevoState) (transfers : List TransferInfo) (tx : RevoTransaction)
    (deleted : Finset Address) : CondensingTX :=
  (CondensingTX.init st transfers tx deleted).selectionVin

/-- `start(a)` in satoshis: the value of the vin selected for `a`, when it counts. -/
def startAmount (c : CondensingTX) (a : Address) : Nat :=
  (startValue c.deleteAddresses c.vins a).toNat

/-- `start(a) + received(a) - sent(a)`: what `a` is owed once the transfers of
    `l` are applied to the vins of `c`. -/
def expectedBalance (c : CondensingTX) (l : List TransferInfo) (a : Address) : Int :=
  (startAmount c a : Int) + received l a - sent l a

section Phases

variable (st : RevoState) (transfers : List TransferInfo) (tx : RevoTransaction)
  (deleted : Finset Address)

/-! ## After selectionVin -/

theorem selected_eq :
    selected st transfers tx deleted =
      { CondensingTX.init st transfers tx deleted with
        state := (selected st transfers tx deleted).state
        vins := (selected st transfers tx deleted).vins } :=
  (selectionFold_spec transfers (CondensingTX.init st transfers tx deleted)).1

theorem selected_vinOf (b : Address) :
    (selected st transfers tx deleted).state.vinOf b = st.vinOf b :=
  (selectionFold_spec transfers (CondensingTX.init st transfers tx deleted)).2.1 b

theorem selected_accountAlive :
    (selected st transfers tx deleted).state.accountAlive = st.accountAlive :=
  (selectionFold_spec transfers (CondensingTX.init st transfers tx deleted)).2.2.1

@[simp] theorem selected_deleteAddresses : (selected st transfers tx deleted).deleteAddresses = deleted := by
  rw [selected_eq]; rfl

@[simp] theorem selected_transfers : (selected st transfers tx deleted).transfers = transfers := by
  rw [selected_eq]; rfl

@[simp] theorem selected_transaction : (selected st transfers tx deleted).transaction = tx := by
  rw [selected_eq]; rfl

@[simp] theorem selected_plusMinusInfo :
    (selected st transfers tx deleted).plusMinusInfo = .empty := by
  rw [selected_eq]; rfl

@[simp] theorem selected_balances : (selected st transfers tx deleted).balances = .empty := by
  rw [selected_eq]; rfl

@[simp] theorem selected_nVouts : (selected st transfers tx deleted).nVouts = .empty := by
  rw [selected_eq]; rfl

@[simp] theorem selected_voutOverflow : (selected st transfers tx deleted).voutOverflow = false := by
  rw [selected_eq]; rfl

/-- Selection only adds vins of addresses of the transfers. -/
theorem selected_keys {b : Address} (hb : (selected st transfers tx deleted).vins.find? b ≠ none) :
    b ∈ transferAddrs transfers := by
  rcases (selectionFold_spec transfers (CondensingTX.init st transfers tx deleted)).2.2.2 b hb with
    h | h
  · exact (h rfl).elim
  · exact h

/-! ## After calculatePlusAndMinus -/

/-- The object after `calculatePlusAndMinus`. -/
def totalled : CondensingTX := (selected st transfers tx deleted).calculatePlusAndMinus

theorem totalled_find? (b : Address) :
    (totalled st transfers tx deleted).plusMinusInfo.find? b =
      if b ∈ transferAddrs transfers then some (plusMinusTotals transfers b) else none := by
  simp only [totalled, calculatePlusAndMinus, selected_transfers, selected_plusMinusInfo,
    find?_plusMinusFold]
  split_ifs <;> simp [OrdMap.findD, Prod.ext_iff]

theorem mem_totalled_entries (e : Address × (U256 × U256)) :
    e ∈ (totalled st transfers tx deleted).plusMinusInfo.entries ↔
      e.1 ∈ transferAddrs transfers ∧ e.2 = plusMinusTotals transfers e.1 := by
  obtain ⟨a, pm⟩ := e
  rw [OrdMap.mem_entries_iff, totalled_find?]
  by_cases ha : a ∈ transferAddrs transfers <;> simp [ha, eq_comm]

/-! ## The balance arithmetic without wrap-around -/

variable {st transfers tx deleted}

/-- A single `start(a)` is below the total the hypothesis bounds. -/
theorem startAmount_le_sum {a : Address} (ha : a ∈ transferAddrs transfers) :
    startAmount (selected st transfers tx deleted) a ≤
      ∑ b ∈ transferAddrs transfers, startAmount (selected st transfers tx deleted) b :=
  Finset.single_le_sum (fun _ _ => Nat.zero_le _) ha

/-- Under the value bounds, `start + plus` and `minus` are computed exactly. -/
theorem plusMinus_toNat
    (hstart : ∑ b ∈ transferAddrs transfers, startAmount (selected st transfers tx deleted) b < 2 ^ 63)
    (hvalue : (transfers.map fun t => t.value.toNat).sum < 2 ^ 255)
    {a : Address} (ha : a ∈ transferAddrs transfers) :
    (startValue deleted (selected st transfers tx deleted).vins a +
        (plusMinusTotals transfers a).1).toNat =
      startAmount (selected st transfers tx deleted) a + received transfers a ∧
    (plusMinusTotals transfers a).2.toNat = sent transfers a := by
  have hdel : (selected st transfers tx deleted).deleteAddresses = deleted := by
    rw [selected_eq]; rfl
  have hs : startAmount (selected st transfers tx deleted) a ≤
      ∑ b ∈ transferAddrs transfers, startAmount (selected st transfers tx deleted) b :=
    startAmount_le_sum ha
  have hr := total_le_sum TransferInfo.toAddr transfers a
  have hm := total_le_sum TransferInfo.fromAddr transfers a
  have hrecv : (plusMinusTotals transfers a).1.toNat = received transfers a := by
    show (Flow.total TransferInfo.toAddr TransferInfo.value transfers a).toNat = _
    rw [total_u256, BitVec.toNat_ofNat, Nat.mod_eq_of_lt (by omega)]; rfl
  have hstartA : startAmount (selected st transfers tx deleted) a =
      (startValue deleted (selected st transfers tx deleted).vins a).toNat := by
    unfold startAmount; rw [hdel]
  refine ⟨?_, ?_⟩
  · rw [BitVec.toNat_add, hrecv, ← hstartA]
    exact Nat.mod_eq_of_lt (by unfold received; omega)
  · show (Flow.total TransferInfo.fromAddr TransferInfo.value transfers a).toNat = _
    rw [total_u256, BitVec.toNat_ofNat, Nat.mod_eq_of_lt (by omega)]; rfl

/-! ## After createNewBalances -/

variable (st transfers tx deleted)

/-- The flag and the object `createNewBalances` returns. -/
def balanced : Bool × CondensingTX := (totalled st transfers tx deleted).createNewBalances

/-- The loop `balanced` runs: over the totals, from the selected vins and no balances. -/
def balanceLoop : Bool × OrdMap Address Vin × OrdMap Address U256 :=
  newBalancesLoop deleted (totalled st transfers tx deleted).plusMinusInfo.entries
    (selected st transfers tx deleted).vins .empty

theorem balanced_eq :
    balanced st transfers tx deleted =
      ((balanceLoop st transfers tx deleted).1,
        { totalled st transfers tx deleted with
          vins := (balanceLoop st transfers tx deleted).2.1
          balances := (balanceLoop st transfers tx deleted).2.2 }) := by
  rw [balanced, createNewBalances_eq]
  simp only [totalled, calculatePlusAndMinus, selected_deleteAddresses, selected_balances]
  rfl

@[simp] theorem balanced_fst : (balanced st transfers tx deleted).1 = (balanceLoop st transfers tx deleted).1 := by
  rw [balanced_eq]

@[simp] theorem balanced_vins :
    (balanced st transfers tx deleted).2.vins = (balanceLoop st transfers tx deleted).2.1 := by
  rw [balanced_eq]

@[simp] theorem balanced_balances :
    (balanced st transfers tx deleted).2.balances = (balanceLoop st transfers tx deleted).2.2 := by
  rw [balanced_eq]

@[simp] theorem balanced_deleteAddresses : (balanced st transfers tx deleted).2.deleteAddresses = deleted := by
  rw [balanced_eq]; exact selected_deleteAddresses st transfers tx deleted

@[simp] theorem balanced_accountAlive :
    (balanced st transfers tx deleted).2.state.accountAlive = st.accountAlive := by
  rw [balanced_eq]; exact selected_accountAlive st transfers tx deleted

@[simp] theorem balanced_transaction : (balanced st transfers tx deleted).2.transaction = tx := by
  rw [balanced_eq]; exact selected_transaction st transfers tx deleted

@[simp] theorem balanced_nVouts : (balanced st transfers tx deleted).2.nVouts = .empty := by
  rw [balanced_eq]; exact selected_nVouts st transfers tx deleted

@[simp] theorem balanced_voutOverflow : (balanced st transfers tx deleted).2.voutOverflow = false := by
  rw [balanced_eq]; exact selected_voutOverflow st transfers tx deleted

@[simp] theorem balanced_vinOf (b : Address) :
    (balanced st transfers tx deleted).2.state.vinOf b = st.vinOf b := by
  rw [balanced_eq]; exact selected_vinOf st transfers tx deleted b

/-! ## After createVout -/

/-- The loop `createVout` runs on the balanced object. -/
def outLoop (toCAmount : U256 → CAmount) : List CTxOut × OrdMap Address Nat × Bool :=
  voutLoop toCAmount st.accountAlive (balanceLoop st transfers tx deleted).2.2.entries 0 [] .empty

theorem balanced_createVout (toCAmount : U256 → CAmount) :
    (balanced st transfers tx deleted).2.createVout toCAmount =
      ((outLoop st transfers tx deleted toCAmount).1,
        { (balanced st transfers tx deleted).2 with
          nVouts := (outLoop st transfers tx deleted toCAmount).2.1
          voutOverflow := (outLoop st transfers tx deleted toCAmount).2.2 }) := by
  rw [createVout_eq]
  simp only [balanced_accountAlive, balanced_balances, balanced_nVouts, balanced_voutOverflow,
    Bool.or_false, outLoop]

variable {st transfers tx deleted}

/-- A non-empty condensing transaction without overflow: the balance check
    passed, the transaction is the inputs and outputs of the balanced object,
    and the output loop ran to its end. -/
theorem createCondensingTX_success {toCAmount : U256 → CAmount} {ctx : CTransaction} {c' : CondensingTX}
    (hr : (CondensingTX.init st transfers tx deleted).createCondensingTX toCAmount = (ctx, c'))
    (hne : ctx ≠ CTransaction.empty) (hlim : c'.reachedVoutLimit = false) :
    (balanceLoop st transfers tx deleted).1 = true ∧
      ctx = ⟨(balanced st transfers tx deleted).2.createVins, (outLoop st transfers tx deleted toCAmount).1⟩ ∧
      c' = { (balanced st transfers tx deleted).2 with
        nVouts := (outLoop st transfers tx deleted toCAmount).2.1, voutOverflow := false } ∧
      (outLoop st transfers tx deleted toCAmount).2.2 = false := by
  have hpair : (CondensingTX.init st transfers tx deleted).selectionVin.calculatePlusAndMinus.createNewBalances =
      ((balanced st transfers tx deleted).1, (balanced st transfers tx deleted).2) := rfl
  -- a failed check would have produced the empty transaction
  have hok : (balanceLoop st transfers tx deleted).1 = true := by
    cases hb : (balanceLoop st transfers tx deleted).1
    · rw [balanced_fst, hb] at hpair
      rw [createCondensingTX_of_fail toCAmount hpair] at hr
      exact absurd (congrArg Prod.fst hr).symm hne
    · rfl
  rw [balanced_fst, hok] at hpair
  rw [createCondensingTX_of_ok toCAmount hpair, balanced_createVout] at hr
  obtain ⟨hctx, hc'⟩ := Prod.mk.inj hr
  have hover : (outLoop st transfers tx deleted toCAmount).2.2 = false := by
    rw [← hc'] at hlim
    exact hlim
  -- an empty input or output list would also have produced the empty transaction
  have hnonempty : ¬ ((balanced st transfers tx deleted).2.createVins.isEmpty ||
      (outLoop st transfers tx deleted toCAmount).1.isEmpty) = true := by
    intro h
    rw [if_pos h] at hctx
    exact hne hctx.symm
  rw [if_neg hnonempty] at hctx
  refine ⟨hok, hctx.symm, ?_, hover⟩
  rw [← hc', hover]

/-- Without overflow the outputs pay every positive balance, in key order. -/
theorem outLoop_outs {toCAmount : U256 → CAmount} (hover : (outLoop st transfers tx deleted toCAmount).2.2 = false) :
    (outLoop st transfers tx deleted toCAmount).1 =
      ((balanceLoop st transfers tx deleted).2.2.entries.filter fun e => decide (e.2 > 0)).map
        (condensingOut toCAmount st.accountAlive) := by
  rw [outLoop, voutLoop_outs _ _ _ _ _ _ hover, List.nil_append]

/-- The balance check passes exactly when no address ends up negative. -/
theorem balanceLoop_ok_iff
    (hstart : ∑ b ∈ transferAddrs transfers, startAmount (selected st transfers tx deleted) b < 2 ^ 63)
    (hvalue : (transfers.map fun t => t.value.toNat).sum < 2 ^ 255) :
    (balanceLoop st transfers tx deleted).1 = true ↔
      ∀ a ∈ transferAddrs transfers,
        sent transfers a ≤ startAmount (selected st transfers tx deleted) a + received transfers a := by
  rw [balanceLoop, newBalancesLoop_ok_iff]
  constructor
  · intro h a ha
    have he : (a, plusMinusTotals transfers a) ∈ (totalled st transfers tx deleted).plusMinusInfo.entries :=
      (mem_totalled_entries st transfers tx deleted _).mpr ⟨ha, rfl⟩
    have hlt := h _ he
    obtain ⟨hplus, hminus⟩ := plusMinus_toNat hstart hvalue ha
    rw [BitVec.lt_def, hplus, hminus] at hlt
    omega
  · rintro h ⟨a, pm⟩ he
    obtain ⟨ha, hpm⟩ := (mem_totalled_entries st transfers tx deleted _).mp he
    simp only at ha hpm ⊢
    subst hpm
    obtain ⟨hplus, hminus⟩ := plusMinus_toNat hstart hvalue ha
    rw [BitVec.lt_def, hplus, hminus]
    have := h a ha
    omega

/-- A successful loop stores a balance for, and reads the vin of, exactly the
    addresses of the transfers. -/
theorem balanceLoop_find? (hok : (balanceLoop st transfers tx deleted).1 = true) (b : Address) :
    (balanceLoop st transfers tx deleted).2.2.find? b =
        (if b ∈ transferAddrs transfers then
          some (startValue deleted (selected st transfers tx deleted).vins b +
            (plusMinusTotals transfers b).1 - (plusMinusTotals transfers b).2)
        else none) ∧
      (balanceLoop st transfers tx deleted).2.1.find? b =
        if b ∈ transferAddrs transfers then some ((selected st transfers tx deleted).vins.findD b default)
        else none := by
  obtain ⟨hbal, hvins⟩ := newBalancesLoop_spec deleted _
    (totalled st transfers tx deleted).plusMinusInfo.sorted _ _ hok b
  have hL : OrdMap.findList b (totalled st transfers tx deleted).plusMinusInfo.entries =
      if b ∈ transferAddrs transfers then some (plusMinusTotals transfers b) else none :=
    totalled_find? st transfers tx deleted b
  rw [hL] at hbal hvins
  refine ⟨hbal.trans ?_, hvins.trans ?_⟩ <;> by_cases hb : b ∈ transferAddrs transfers
  · simp [hb]
  · simp [hb]
  · simp [hb]
  · -- outside the transfers selection added no vin
    have hsel : (selected st transfers tx deleted).vins.find? b = none := by
      by_contra h
      exact hb (selected_keys st transfers tx deleted h)
    simp [hb, hsel]

theorem balanceLoop_findD_vins (hok : (balanceLoop st transfers tx deleted).1 = true) (b : Address) :
    (balanceLoop st transfers tx deleted).2.1.findD b default =
      (selected st transfers tx deleted).vins.findD b default := by
  by_cases hb : b ∈ transferAddrs transfers
  · simp [OrdMap.findD, (balanceLoop_find? hok b).2, hb]
  · have hsel : (selected st transfers tx deleted).vins.find? b = none := by
      by_contra h
      exact hb (selected_keys st transfers tx deleted h)
    simp [OrdMap.findD, (balanceLoop_find? hok b).2, hb, hsel]

theorem balanceLoop_startValue (hok : (balanceLoop st transfers tx deleted).1 = true) (b : Address) :
    startValue deleted (balanceLoop st transfers tx deleted).2.1 b =
      startValue deleted (selected st transfers tx deleted).vins b := by
  unfold startValue countedIn
  rw [balanceLoop_findD_vins hok]

theorem balanceLoop_keySet_vins (hok : (balanceLoop st transfers tx deleted).1 = true) :
    (balanceLoop st transfers tx deleted).2.1.keySet = transferAddrs transfers := by
  ext b
  rw [OrdMap.mem_keySet_iff, (balanceLoop_find? hok b).2]
  by_cases hb : b ∈ transferAddrs transfers <;> simp [hb]

theorem balanceLoop_keySet_balances (hok : (balanceLoop st transfers tx deleted).1 = true) :
    (balanceLoop st transfers tx deleted).2.2.keySet = transferAddrs transfers := by
  ext b
  rw [OrdMap.mem_keySet_iff, (balanceLoop_find? hok b).1]
  by_cases hb : b ∈ transferAddrs transfers <;> simp [hb]

/-- The balances map has an entry exactly at the addresses of the transfers. -/
theorem balanceLoop_find?_balances (hok : (balanceLoop st transfers tx deleted).1 = true) (b : Address) :
    (balanceLoop st transfers tx deleted).2.2.find? b =
      if b ∈ transferAddrs transfers then some ((balanceLoop st transfers tx deleted).2.2.findD b 0)
      else none := by
  rw [(balanceLoop_find? hok b).1]
  by_cases hb : b ∈ transferAddrs transfers
  · simp [OrdMap.findD, (balanceLoop_find? hok b).1, hb]
  · simp [hb]

section Bounds

variable
  (hstart : ∑ b ∈ transferAddrs transfers, startAmount (selected st transfers tx deleted) b < 2 ^ 63)
  (hvalue : (transfers.map fun t => t.value.toNat).sum < 2 ^ 255)
  (hok : (balanceLoop st transfers tx deleted).1 = true)
include hstart hvalue hok

/-- The stored balance of `a` is `start + received - sent`, without wrap-around. -/
theorem balanceLoop_balance {a : Address} (ha : a ∈ transferAddrs transfers) :
    ((balanceLoop st transfers tx deleted).2.2.findD a 0).toNat =
      startAmount (selected st transfers tx deleted) a + received transfers a - sent transfers a := by
  have hle := (balanceLoop_ok_iff hstart hvalue).mp hok a ha
  obtain ⟨hplus, hminus⟩ := plusMinus_toNat hstart hvalue ha
  have hnlt : ¬ startValue deleted (selected st transfers tx deleted).vins a +
      (plusMinusTotals transfers a).1 < (plusMinusTotals transfers a).2 := by
    rw [BitVec.lt_def, hplus, hminus]; omega
  have hfind : (balanceLoop st transfers tx deleted).2.2.find? a =
      some (startValue deleted (selected st transfers tx deleted).vins a +
        (plusMinusTotals transfers a).1 - (plusMinusTotals transfers a).2) := by
    rw [(balanceLoop_find? hok a).1, if_pos ha]
  rw [OrdMap.findD_of_find? hfind, BitVec.toNat_sub_of_le (BitVec.not_lt.mp hnlt), hplus, hminus]

/-- The balances add up to the counted vins: the transfers only move value. -/
theorem balanceLoop_sum :
    ∑ a ∈ transferAddrs transfers, ((balanceLoop st transfers tx deleted).2.2.findD a 0).toNat =
      ∑ a ∈ transferAddrs transfers, startAmount (selected st transfers tx deleted) a := by
  have hle := (balanceLoop_ok_iff hstart hvalue).mp hok
  calc ∑ a ∈ transferAddrs transfers, ((balanceLoop st transfers tx deleted).2.2.findD a 0).toNat
      = ∑ a ∈ transferAddrs transfers,
          (startAmount (selected st transfers tx deleted) a + received transfers a - sent transfers a) :=
        Finset.sum_congr rfl fun a ha => balanceLoop_balance hstart hvalue hok ha
    _ = ∑ a ∈ transferAddrs transfers, (startAmount (selected st transfers tx deleted) a + received transfers a) -
          ∑ a ∈ transferAddrs transfers, sent transfers a :=
        Finset.sum_tsub_distrib _ hle
    _ = ∑ a ∈ transferAddrs transfers, startAmount (selected st transfers tx deleted) a := by
        rw [Finset.sum_add_distrib, sum_received, sum_sent, Nat.add_sub_cancel]

/-- No single balance exceeds the counted vins, so each fits a `CAmount`. -/
theorem balanceLoop_balance_le {e : Address × U256} (he : e ∈ (balanceLoop st transfers tx deleted).2.2.entries) :
    e.2.toNat ≤ ∑ a ∈ transferAddrs transfers, startAmount (selected st transfers tx deleted) a := by
  obtain ⟨a, b⟩ := e
  have hfind := (OrdMap.mem_entries_iff _ _ _).mp he
  have ha : a ∈ transferAddrs transfers := by
    rw [← balanceLoop_keySet_balances hok, OrdMap.mem_keySet_iff]; exact ⟨b, hfind⟩
  have hsingle := Finset.single_le_sum
    (f := fun a => ((balanceLoop st transfers tx deleted).2.2.findD a 0).toNat) (fun _ _ => Nat.zero_le _) ha
  rw [balanceLoop_sum hstart hvalue hok, OrdMap.findD_of_find? hfind] at hsingle
  exact hsingle

omit hok in
/-- The check fails exactly on an address owed a negative amount. -/
theorem balanced_fail_iff :
    (balanced st transfers tx deleted).1 = false ↔
      ∃ a ∈ transferAddrs transfers, expectedBalance (selected st transfers tx deleted) transfers a < 0 := by
  have hiff := balanceLoop_ok_iff hstart hvalue
  rw [balanced_fst]
  constructor
  · intro hf
    have hn : ¬ ∀ a ∈ transferAddrs transfers,
        sent transfers a ≤ startAmount (selected st transfers tx deleted) a + received transfers a := by
      intro h
      rw [hiff.mpr h] at hf
      exact Bool.noConfusion hf
    simp only [not_forall, not_le] at hn
    obtain ⟨a, ha, hlt⟩ := hn
    exact ⟨a, ha, by unfold expectedBalance; omega⟩
  · rintro ⟨a, ha, hneg⟩
    cases hb : (balanceLoop st transfers tx deleted).1
    · rfl
    · have := hiff.mp hb a ha
      unfold expectedBalance at hneg
      omega

end Bounds

/-! ## The outputs

Each balance fits a `CAmount`, so `CAmount(balance)` is exact wherever the
conversion is exact below `INT64_MAX`. -/

section Outputs

variable {toCAmount : U256 → CAmount}
  (hconv : ∀ x : U256, (x.toNat : Int) ≤ INT64_MAX → toCAmount x = x.toNat)
  (hstart : ∑ b ∈ transferAddrs transfers, startAmount (selected st transfers tx deleted) b < 2 ^ 63)
  (hvalue : (transfers.map fun t => t.value.toNat).sum < 2 ^ 255)
  (hok : (balanceLoop st transfers tx deleted).1 = true)
include hconv hstart hvalue hok

theorem toCAmount_balance {e : Address × U256} (he : e ∈ (balanceLoop st transfers tx deleted).2.2.entries) :
    toCAmount e.2 = e.2.toNat := by
  have hle := balanceLoop_balance_le hstart hvalue hok he
  exact hconv e.2 (by unfold INT64_MAX; omega)

/-- The outputs add up to the counted vins. -/
theorem vout_sum (contract : Address → Bool) :
    ((((balanceLoop st transfers tx deleted).2.2.entries.filter fun e => decide (e.2 > 0)).map
        (condensingOut toCAmount contract)).map CTxOut.nValue).sum =
      ∑ a ∈ transferAddrs transfers, (startAmount (selected st transfers tx deleted) a : Int) := by
  have hcongr : ∀ e ∈ (balanceLoop st transfers tx deleted).2.2.entries,
      (if decide (e.2 > 0) = true then toCAmount e.2 else 0) = ((e.2.toNat : Nat) : Int) := by
    intro e he
    by_cases hb : e.2 > 0
    · rw [if_pos (decide_eq_true hb), toCAmount_balance hconv hstart hvalue hok he]
    · -- a zero balance is not paid and adds nothing
      have hz : e.2 = 0 := by simpa using hb
      rw [if_neg (by simpa using hb), hz]
      rfl
  rw [List.map_map, show CTxOut.nValue ∘ condensingOut toCAmount contract = fun e => toCAmount e.2 from rfl,
    Flow.sum_map_filter, List.map_congr_left hcongr,
    OrdMap.sum_entries_eq (balanceLoop st transfers tx deleted).2.2 (fun _ b => ((b.toNat : Nat) : Int)) 0, balanceLoop_keySet_balances hok,
    ← Nat.cast_sum, balanceLoop_sum hstart hvalue hok, Nat.cast_sum]

/-- An output paying `a` carries the balance `a` is owed. -/
theorem vout_pays {contract : Address → Bool} {a : Address} (ha : a ∈ transferAddrs transfers)
    {o : CTxOut} (ho : o ∈ ((balanceLoop st transfers tx deleted).2.2.entries.filter
      fun e => decide (e.2 > 0)).map (condensingOut toCAmount contract))
    {x : Bool} (hx : o.scriptPubKey = condensingScript x a) :
    o.nValue = expectedBalance (selected st transfers tx deleted) transfers a := by
  obtain ⟨⟨a', b⟩, he, rfl⟩ := List.mem_map.mp ho
  have he' := (List.mem_filter.mp he).1
  have ha' : a' = a := condensingScript_inj hx
  subst ha'
  have hb : (balanceLoop st transfers tx deleted).2.2.findD a' 0 = b :=
    OrdMap.findD_of_find? ((OrdMap.mem_entries_iff _ _ _).mp he') 0
  have hbal := balanceLoop_balance hstart hvalue hok ha
  have hle := (balanceLoop_ok_iff hstart hvalue).mp hok a' ha
  rw [hb] at hbal
  show toCAmount b = _
  rw [toCAmount_balance hconv hstart hvalue hok he', hbal]
  unfold expectedBalance
  rw [Nat.cast_sub hle, Nat.cast_add]

/-- A positive balance is paid, with the script for the kind of account. -/
theorem vout_paid (contract : Address → Bool) {a : Address} (ha : a ∈ transferAddrs transfers)
    (hpos : 0 < expectedBalance (selected st transfers tx deleted) transfers a) :
    ⟨expectedBalance (selected st transfers tx deleted) transfers a, condensingScript (contract a) a⟩ ∈
      ((balanceLoop st transfers tx deleted).2.2.entries.filter fun e => decide (e.2 > 0)).map
        (condensingOut toCAmount contract) := by
  have hfind : (balanceLoop st transfers tx deleted).2.2.find? a =
      some ((balanceLoop st transfers tx deleted).2.2.findD a 0) := by
    rw [(balanceLoop_find? hok a).1, if_pos ha]
    simp [OrdMap.findD, (balanceLoop_find? hok a).1, ha]
  have he := (OrdMap.mem_entries_iff _ _ _).mpr hfind
  have hbal := balanceLoop_balance hstart hvalue hok ha
  have hle := (balanceLoop_ok_iff hstart hvalue).mp hok a ha
  have hexp : expectedBalance (selected st transfers tx deleted) transfers a =
      (((balanceLoop st transfers tx deleted).2.2.findD a 0).toNat : Int) := by
    rw [hbal]; unfold expectedBalance; omega
  have hb : (balanceLoop st transfers tx deleted).2.2.findD a 0 > 0 := by
    rw [hexp] at hpos
    exact BitVec.lt_def.mpr (by simpa using hpos)
  refine List.mem_map.mpr ⟨_, List.mem_filter.mpr ⟨he, decide_eq_true hb⟩, ?_⟩
  simp only [condensingOut, toCAmount_balance hconv hstart hvalue hok he, hexp]

end Outputs

end Phases

/-! ## Conservation -/

/-- A state with no UTXOs and no live accounts. -/
def emptyState : RevoState := ⟨fun _ => none, fun _ => none, fun _ => false⟩

/-- A call from `1` carrying 5: the sender pays 5 to `2`, which pays 2 on to `3`. -/
def forwardTx : RevoTransaction := ⟨1, 5, 0, 0, 0, 0, 1⟩

def forwardTransfers : List TransferInfo := [⟨1, 2, 5⟩, ⟨2, 3, 2⟩]

/-- A call from `1` carrying 5 that the contract `2` relays in full to `3`:
    `2` ends with a zero balance and never owned a UTXO. -/
def relayTransfers : List TransferInfo := [⟨1, 2, 5⟩, ⟨2, 3, 5⟩]

def relayRun : CTransaction × CondensingTX :=
  (CondensingTX.init emptyState relayTransfers forwardTx ∅).createCondensingTX fun x => (x.toNat : Int)

/-- `updateUTXO` drops the dead `Vin` that `createVin` writes for an address
    without a UTXO: the relaying contract is involved, is not the sender and
    gets a dead `Vin` from `createVin`, yet afterwards owns none. -/
theorem updateUTXO_drops_dead_vin :
    relayRun.1 ≠ CTransaction.empty ∧ relayRun.2.reachedVoutLimit = false ∧
      (2 : Address) ∈ transferAddrs relayTransfers ∧ (2 : Address) ≠ forwardTx.sender ∧
      (relayRun.2.createVin 0).find? 2 = some ⟨0, 0, 0, 0⟩ ∧
      (relayRun.2.state.updateUTXO (relayRun.2.createVin 0).entries).vinOf 2 = none := by
  decide

theorem createVin_updateUTXO (toCAmount : U256 → CAmount)
    (hconv : ∀ x : U256, (x.toNat : Int) ≤ INT64_MAX → toCAmount x = x.toNat)
    (st : RevoState) (transfers : List TransferInfo) (tx : RevoTransaction) (deleted : Finset Address)
    (hstart : ((∑ a ∈ transferAddrs transfers, startAmount (selected st transfers tx deleted) a : Nat) : Int) ≤
      INT64_MAX)
    (hvalue : (transfers.map fun t => t.value.toNat).sum < 2 ^ 255) (txHash : Hash256) :
    ∀ ctx c', (CondensingTX.init st transfers tx deleted).createCondensingTX toCAmount = (ctx, c') →
      ctx ≠ CTransaction.empty → c'.reachedVoutLimit = false →
      (∀ a ∈ transferAddrs transfers,
        ((c'.balances.findD a 0).toNat : Int) = expectedBalance (selected st transfers tx deleted) transfers a) ∧
      (∀ a, (c'.createVin txHash).find? a =
        if a ∈ transferAddrs transfers ∧ a ≠ tx.sender then
          some (if c'.balances.findD a 0 > 0 then
              ⟨uintToh256 txHash, c'.nVouts.findD a 0, c'.balances.findD a 0, 1⟩
            else ⟨uintToh256 txHash, 0, 0, 0⟩)
        else none) ∧
      (∀ a ∈ transferAddrs transfers, c'.balances.findD a 0 > 0 →
        ctx.vout[c'.nVouts.findD a 0]? =
          some ⟨(c'.balances.findD a 0).toNat, condensingScript (st.accountAlive a) a⟩) ∧
      ∀ l, l.Perm (c'.createVin txHash).entries → ∀ b,
        (c'.state.updateUTXO l).vinOf b =
          match (c'.createVin txHash).find? b with
          | some v => if st.vinOf b ≠ none ∨ v.alive > 0 then some v else st.vinOf b
          | none => st.vinOf b := by
  have hstart' : ∑ a ∈ transferAddrs transfers, startAmount (selected st transfers tx deleted) a < 2 ^ 63 := by
    unfold INT64_MAX at hstart; omega
  intro ctx c' hr hne hlim
  obtain ⟨hok, rfl, hc', hover⟩ := createCondensingTX_success hr hne hlim
  -- what `createVin` and `updateUTXO` read of the object `createCondensingTX` leaves
  have hbal : c'.balances = (balanceLoop st transfers tx deleted).2.2 := by rw [hc']; simp
  have hsender : c'.transaction.sender = tx.sender := by rw [hc']; simp
  have hnv : c'.nVouts = (outLoop st transfers tx deleted toCAmount).2.1 := by rw [hc']
  have hvin : ∀ b, c'.state.vinOf b = st.vinOf b := fun b => by rw [hc']; simp
  refine ⟨fun a ha => ?_, fun a => ?_, fun a ha hb => ?_, fun l hl b => ?_⟩
  · -- the stored balance is the owed one
    have hle := (balanceLoop_ok_iff hstart' hvalue).mp hok a ha
    rw [hbal, balanceLoop_balance hstart' hvalue hok ha]
    unfold expectedBalance
    rw [Nat.cast_sub hle, Nat.cast_add]
  · -- `createVin` skips the sender and writes `newVin` at every balance
    rw [createVin_find?, hsender, hbal, balanceLoop_find?_balances hok]
    by_cases hs : a = tx.sender
    · simp [hs]
    · by_cases ha : a ∈ transferAddrs transfers
      · simp [hs, ha, newVin]
      · simp [hs, ha]
  · -- the output at index `nVouts[a]` pays `a`
    rw [hbal] at hb ⊢
    have hfind := balanceLoop_find?_balances hok a
    rw [if_pos ha] at hfind
    have he := (OrdMap.mem_entries_iff _ _ _).mpr hfind
    obtain ⟨i, hi, hget⟩ := voutLoop_nVouts toCAmount st.accountAlive _
      (balanceLoop st transfers tx deleted).2.2.sorted 0 [] .empty hover he hb
    have hidx : c'.nVouts.findD a 0 = i := by
      rw [hnv, outLoop, OrdMap.findD_of_find? hi, Nat.zero_add]
    show (outLoop st transfers tx deleted toCAmount).1[c'.nVouts.findD a 0]? = _
    rw [hidx, outLoop_outs hover, hget]
    simp only [condensingOut, toCAmount_balance hconv hstart' hvalue hok he]
  · -- `updateUTXO` sees the entries in the order of `l`, which does not matter
    have hnodup : (l.map Prod.fst).Nodup :=
      (hl.map Prod.fst).nodup_iff.mpr (OrdMap.nodup_keys_of_sorted (c'.createVin txHash).sorted)
    rw [RevoState.vinOf_updateUTXO _ l hnodup, OrdMap.findList_perm hl hnodup, hvin]
    rfl

theorem createVin_updateUTXO_relay :
    ((∑ a ∈ transferAddrs relayTransfers, startAmount (selected emptyState relayTransfers forwardTx ∅) a :
        Nat) : Int) ≤ INT64_MAX ∧
    (relayTransfers.map fun t => t.value.toNat).sum < 2 ^ 255 ∧
    relayRun.1 ≠ CTransaction.empty ∧ relayRun.2.reachedVoutLimit = false ∧
    (relayRun.2.state.updateUTXO (relayRun.2.createVin 0).entries).vinOf 2 =
      match (relayRun.2.createVin 0).find? 2 with
      | some v => if emptyState.vinOf 2 ≠ none ∨ v.alive > 0 then some v else emptyState.vinOf 2
      | none => emptyState.vinOf 2 := by
  have hstart : ((∑ a ∈ transferAddrs relayTransfers,
      startAmount (selected emptyState relayTransfers forwardTx ∅) a : Nat) : Int) ≤ INT64_MAX := by
    decide
  have hvalue : (relayTransfers.map fun t => t.value.toNat).sum < 2 ^ 255 := by decide
  have hne : relayRun.1 ≠ CTransaction.empty := by decide
  have hlim : relayRun.2.reachedVoutLimit = false := by decide
  exact ⟨hstart, hvalue, hne, hlim,
    (createVin_updateUTXO (fun x => (x.toNat : Int)) (fun _ _ => rfl) emptyState relayTransfers forwardTx ∅
      hstart hvalue 0 relayRun.1 relayRun.2 rfl hne hlim).2.2.2 _ (List.Perm.refl _) 2⟩

end Revo
