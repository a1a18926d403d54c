/-
  Revo.State.CondensingSpec

  One specification lemma per phase of `createCondensingTX`, each proved
  once by induction over the loop it models:

    * `selectionVin_spec` — selection only caches vins in the state and adds
      vins for addresses of the transfers;
    * `plusMinus_find?` — `plusMinusInfo[a]` holds the (wrapping) totals of
      what `a` receives and sends;
    * `newBalancesLoop_ok_iff` / `newBalancesLoop_spec` — the balance loop
      fails exactly on a negative balance, and otherwise stores
      `start + plus - minus` for every key;
    * `spentVins_value_sum` — the inputs spend the counted vins;
    * `voutLoop_spec` — without overflow, one output per positive balance,
      at the index `nVouts` records.

  The claims in `Revo.State.CondensingProofs` are assembled from these.
-/

import Revo.State.Condensing
import Revo.Lib.Flow
import Mathlib.Data.BitVec

namespace Revo

open CondensingTX

/-! ## Addresses, totals and counted vins -/

/-- Every address a transfer of `l` moves value from or to. -/
def transferAddrs (l : List TransferInfo) : Finset Address :=
  (l.flatMap fun t => [t.fromAddr, t.toAddr]).toFinset

@[simp] theorem transferAddrs_nil : transferAddrs [] = ∅ := rfl

theorem mem_transferAddrs_cons (t : TransferInfo) (l : List TransferInfo) (a : Address) :
    a ∈ transferAddrs (t :: l) ↔ a = t.fromAddr ∨ a = t.toAddr ∨ a ∈ transferAddrs l := by
  simp [transferAddrs]

theorem fromAddr_mem_transferAddrs {t : TransferInfo} {l : List TransferInfo} (h : t ∈ l) :
    t.fromAddr ∈ transferAddrs l := by
  simp only [transferAddrs, List.mem_toFinset, List.mem_flatMap]
  exact ⟨t, h, by simp⟩

theorem toAddr_mem_transferAddrs {t : TransferInfo} {l : List TransferInfo} (h : t ∈ l) :
    t.toAddr ∈ transferAddrs l := by
  simp only [transferAddrs, List.mem_toFinset, List.mem_flatMap]
  exact ⟨t, h, by simp⟩

/-- What `a` receives in `l`, in satoshis. -/
def received (l : List TransferInfo) (a : Address) : Nat :=
  Flow.total TransferInfo.toAddr (fun t => t.value.toNat) l a

/-- What `a` sends in `l`, in satoshis. -/
def sent (l : List TransferInfo) (a : Address) : Nat :=
  Flow.total TransferInfo.fromAddr (fun t => t.value.toNat) l a

/-- A vin counts towards the balance of `a` when it is alive, or dead but
    `a` is not a deleted address. -/
def countedIn (deleted : Finset Address) (vins : OrdMap Address Vin) (a : Address) : Bool :=
  (vins.findD a default).alive != 0 || !decide (a ∈ deleted)

/-- `start(a)`: the value of the vin of `a` when it counts, else `0`. -/
def startValue (deleted : Finset Address) (vins : OrdMap Address Vin) (a : Address) : U256 :=
  if countedIn deleted vins a then (vins.findD a default).value else 0

/-- A wrapping `u256` total is the natural-number total reduced mod `2^256`. -/
theorem total_u256 (key : TransferInfo → Address) (l : List TransferInfo) (a : Address) :
    Flow.total key TransferInfo.value l a =
      BitVec.ofNat 256 (Flow.total key (fun t => t.value.toNat) l a) := by
  induction l with
  | nil => rfl
  | cons t rest ih =>
    rw [Flow.total_cons, Flow.total_cons, ih]
    split_ifs
    · rw [BitVec.ofNat_add, BitVec.ofNat_toNat, BitVec.setWidth_eq]
    · simp

/-- Everything received adds up to the total value moved. -/
theorem sum_received (l : List TransferInfo) :
    ∑ a ∈ transferAddrs l, received l a = (l.map fun t => t.value.toNat).sum :=
  Flow.sum_total_eq _ _ l _ fun _ ht => toAddr_mem_transferAddrs ht

/-- Everything sent adds up to the total value moved. -/
theorem sum_sent (l : List TransferInfo) :
    ∑ a ∈ transferAddrs l, sent l a = (l.map fun t => t.value.toNat).sum :=
  Flow.sum_total_eq _ _ l _ fun _ ht => fromAddr_mem_transferAddrs ht

theorem total_le_sum (key : TransferInfo → Address) (l : List TransferInfo) (a : Address) :
    Flow.total key (fun t => t.value.toNat) l a ≤ (l.map fun t => t.value.toNat).sum := by
  induction l with
  | nil => simp
  | cons t rest ih =>
    rw [Flow.total_cons, List.map_cons, List.sum_cons]
    split_ifs <;> omega

/-! ## selectionVin -/

/-- What one selection half-step can do: cache vins in the state and add a
    vin for the address it looks at. -/
structure SelectStep (c c' : CondensingTX) (a : Address) : Prop where
  eq : c' = { c with state := c'.state, vins := c'.vins }
  vinOf : ∀ b, c'.state.vinOf b = c.state.vinOf b
  accountAlive : c'.state.accountAlive = c.state.accountAlive
  keys : ∀ b, c'.vins.find? b ≠ none → c.vins.find? b ≠ none ∨ b = a

theorem SelectStep.refl (c : CondensingTX) (a : Address) : SelectStep c c a :=
  ⟨rfl, fun _ => rfl, rfl, fun _ h => Or.inl h⟩

theorem selectFrom_step (c : CondensingTX) (ti : TransferInfo) :
    SelectStep c (selectFrom c ti) ti.fromAddr := by
  unfold selectFrom
  split
  · exact SelectStep.refl c _
  · rcases hv : c.state.vin ti.fromAddr with ⟨r, st⟩
    have hobs := RevoState.vinOf_vin_snd c.state ti.fromAddr
    have halive := RevoState.accountAlive_vin_snd c.state ti.fromAddr
    rw [hv] at hobs halive
    refine ⟨rfl, hobs, halive, fun b hb => ?_⟩
    by_cases hba : b = ti.fromAddr
    · exact Or.inr hba
    · left
      cases r <;> simp only at hb <;> split_ifs at hb <;>
        simpa [OrdMap.find?_insert_of_ne _ _ hba] using hb

theorem selectTo_step (c : CondensingTX) (ti : TransferInfo) :
    SelectStep c (selectTo c ti) ti.toAddr := by
  unfold selectTo
  split
  · exact SelectStep.refl c _
  · rcases hv : c.state.vin ti.toAddr with ⟨r, st⟩
    have hobs := RevoState.vinOf_vin_snd c.state ti.toAddr
    have halive := RevoState.accountAlive_vin_snd c.state ti.toAddr
    rw [hv] at hobs halive
    cases r with
    | none => exact ⟨rfl, hobs, halive, fun b hb => Or.inl hb⟩
    | some v =>
      refine ⟨rfl, hobs, halive, fun b hb => ?_⟩
      by_cases hba : b = ti.toAddr
      · exact Or.inr hba
      · exact Or.inl (by simpa [OrdMap.find?_insert_of_ne _ _ hba] using hb)

/-- The selection loop, from any object: only the state's cache and `vins`
    change, and every new vin belongs to an address of the transfers. -/
theorem selectionFold_spec (l : List TransferInfo) (c : CondensingTX) :
    let c' := l.foldl (fun c ti => selectTo (selectFrom c ti) ti) c
    c' = { c with state := c'.state, vins := c'.vins } ∧
      (∀ b, c'.state.vinOf b = c.state.vinOf b) ∧
      c'.state.accountAlive = c.state.accountAlive ∧
      ∀ b, c'.vins.find? b ≠ none → c.vins.find? b ≠ none ∨ b ∈ transferAddrs l := by
  induction l generalizing c with
  | nil => exact ⟨rfl, fun _ => rfl, rfl, fun _ h => Or.inl h⟩
  | cons t rest ih =>
    have h1 := selectFrom_step c t
    have h2 := selectTo_step (selectFrom c t) t
    obtain ⟨heq, hobs, halive, hkeys⟩ := ih (selectTo (selectFrom c t) t)
    simp only [List.foldl_cons]
    refine ⟨?_, fun b => ?_, ?_, fun b hb => ?_⟩
    · rw [heq, h2.eq, h1.eq]
    · rw [hobs, h2.vinOf, h1.vinOf]
    · rw [halive, h2.accountAlive, h1.accountAlive]
    · rcases hkeys b hb with hb' | hb'
      · rcases h2.keys b hb' with hb'' | rfl
        · rcases h1.keys b hb'' with h | rfl
          · exact Or.inl h
          · exact Or.inr ((mem_transferAddrs_cons _ _ _).mpr (Or.inl rfl))
        · exact Or.inr ((mem_transferAddrs_cons _ _ _).mpr (Or.inr (Or.inl rfl)))
      · exact Or.inr ((mem_transferAddrs_cons _ _ _).mpr (Or.inr (Or.inr hb')))

/-! ## calculatePlusAndMinus -/

/-- What `plusMinusInfo` accumulates for `b` over `l`: (received, sent), wrapping. -/
def plusMinusTotals (l : List TransferInfo) (b : Address) : U256 × U256 :=
  (Flow.total TransferInfo.toAddr TransferInfo.value l b,
    Flow.total TransferInfo.fromAddr TransferInfo.value l b)

/-- What one transfer adds to `plusMinusInfo[b]`. -/
def plusMinusDelta (t : TransferInfo) (b : Address) : U256 × U256 :=
  ((if t.toAddr = b then t.value else 0), (if t.fromAddr = b then t.value else 0))

theorem plusMinusTotals_cons (t : TransferInfo) (l : List TransferInfo) (b : Address) :
    plusMinusTotals (t :: l) b = plusMinusDelta t b + plusMinusTotals l b := by
  simp [plusMinusTotals, plusMinusDelta, Flow.total_cons]

theorem plusMinusDelta_of_not_mem {t : TransferInfo} {b : Address}
    (h : ¬ (b = t.fromAddr ∨ b = t.toAddr)) : plusMinusDelta t b = 0 := by
  have hto : ¬ t.toAddr = b := fun e => h (Or.inr e.symm)
  have hfr : ¬ t.fromAddr = b := fun e => h (Or.inl e.symm)
  simp [plusMinusDelta, hto, hfr]

theorem find?_addMinus (pm : OrdMap Address (U256 × U256)) (a b : Address) (v : U256) :
    (addMinus pm a v).find? b =
      if b = a then some (pm.findD a (0, 0) + (0, v)) else pm.find? b := by
  unfold addMinus
  by_cases hc : pm.contains a = true
  · simp only [hc, Bool.not_true, Bool.false_eq_true, if_false, OrdMap.find?_insert]
    split_ifs <;> simp [Prod.ext_iff]
  · have hnone : pm.find? a = none := by simpa [OrdMap.contains] using hc
    simp [hc, OrdMap.findD, hnone]

theorem find?_addPlus (pm : OrdMap Address (U256 × U256)) (a b : Address) (v : U256) :
    (addPlus pm a v).find? b =
      if b = a then some (pm.findD a (0, 0) + (v, 0)) else pm.find? b := by
  unfold addPlus
  by_cases hc : pm.contains a = true
  · simp only [hc, Bool.not_true, Bool.false_eq_true, if_false, OrdMap.find?_insert]
    split_ifs <;> simp [Prod.ext_iff]
  · have hnone : pm.find? a = none := by simpa [OrdMap.contains] using hc
    simp [hc, OrdMap.findD, hnone]

/-- One transfer adds its value to the receiver's plus and the sender's minus
    (both, for a self-transfer). -/
theorem find?_plusMinusStep (pm : OrdMap Address (U256 × U256)) (t : TransferInfo) (b : Address) :
    (plusMinusStep pm t).find? b =
      if b = t.fromAddr ∨ b = t.toAddr then some (pm.findD b (0, 0) + plusMinusDelta t b)
      else pm.find? b := by
  unfold plusMinusStep plusMinusDelta
  rw [find?_addPlus]
  simp only [OrdMap.findD, find?_addMinus]
  by_cases hto : b = t.toAddr <;> by_cases hfr : b = t.fromAddr
  · subst hto; simp [hfr, add_assoc]
  · subst hto; simp [hfr, Ne.symm hfr]
  · subst hfr; simp [hto, Ne.symm hto]
  · simp [hto, hfr]

theorem findD_plusMinusStep (pm : OrdMap Address (U256 × U256)) (t : TransferInfo) (b : Address) :
    (plusMinusStep pm t).findD b (0, 0) = pm.findD b (0, 0) + plusMinusDelta t b := by
  by_cases h : b = t.fromAddr ∨ b = t.toAddr
  · simp [OrdMap.findD, find?_plusMinusStep, h]
  · simp [OrdMap.findD, find?_plusMinusStep, h, plusMinusDelta_of_not_mem h]

/-- `plusMinusInfo` after the loop, from any starting map. -/
theorem find?_plusMinusFold (l : List TransferInfo) (pm : OrdMap Address (U256 × U256))
    (b : Address) :
    (l.foldl plusMinusStep pm).find? b =
      if b ∈ transferAddrs l then some (pm.findD b (0, 0) + plusMinusTotals l b)
      else pm.find? b := by
  induction l generalizing pm with
  | nil => simp
  | cons t rest ih =>
    have hmem := mem_transferAddrs_cons t rest b
    rw [List.foldl_cons, ih, findD_plusMinusStep, plusMinusTotals_cons, find?_plusMinusStep]
    by_cases hrest : b ∈ transferAddrs rest
    · rw [if_pos hrest, if_pos (hmem.mpr (Or.inr (Or.inr hrest))), add_assoc]
    · by_cases h1 : b = t.fromAddr ∨ b = t.toAddr
      · have hin : b ∈ transferAddrs (t :: rest) := hmem.mpr (by tauto)
        have hzero : plusMinusTotals rest b = 0 := by
          simp only [plusMinusTotals, Prod.ext_iff, Prod.fst_zero, Prod.snd_zero]
          constructor <;> apply Flow.total_eq_zero <;> intro u hu hk
          · exact hrest (hk ▸ toAddr_mem_transferAddrs hu)
          · exact hrest (hk ▸ fromAddr_mem_transferAddrs hu)
        rw [if_neg hrest, if_pos h1, if_pos hin, hzero, add_zero]
      · have hnin : b ∉ transferAddrs (t :: rest) := fun h => by
          rcases hmem.mp h with h | h | h
          · exact h1 (Or.inl h)
          · exact h1 (Or.inr h)
          · exact hrest h
        rw [if_neg hrest, if_neg h1, if_neg hnin]

/-! ## createNewBalances -/

theorem startValue_touch (deleted : Finset Address) (vins : OrdMap Address Vin) (a b : Address) :
    startValue deleted (vins.touch a default) b = startValue deleted vins b := by
  simp [startValue, countedIn, OrdMap.findD_touch]

/-- One iteration of the balance loop, with the short-circuit condition
    folded into `startValue`. -/
theorem newBalancesLoop_cons (deleted : Finset Address) (a : Address) (plus minus : U256)
    (rest : List (Address × (U256 × U256))) (vins : OrdMap Address Vin)
    (balances : OrdMap Address U256) :
    newBalancesLoop deleted ((a, (plus, minus)) :: rest) vins balances =
      if startValue deleted vins a + plus < minus then (false, vins.touch a default, balances)
      else newBalancesLoop deleted rest (vins.touch a default)
        (balances.insert a (startValue deleted vins a + plus - minus)) := by
  have hfind : (vins.touch a default).findD a default = vins.findD a default :=
    OrdMap.findD_touch vins a a default
  by_cases hc : vins.contains a = true
  · -- an existing entry: `operator[]` inserts nothing
    have htouch := OrdMap.touch_of_contains hc (default : Vin)
    simp only [newBalancesLoop, hc, Bool.true_and, htouch, startValue, countedIn]
    by_cases hal : (vins.findD a default).alive = 0 <;> simp [hal]
  · -- a missing entry reads as `Vin{}`, which is dead
    have hnone : vins.find? a = none := by simpa [OrdMap.contains] using hc
    have hdef : vins.findD a default = default := OrdMap.findD_of_find?_none hnone default
    simp only [newBalancesLoop, hc, Bool.false_and, Bool.false_eq_true, if_false, hfind,
      startValue, countedIn, hdef]
    simp [default]

theorem newBalancesLoop_ok_iff (deleted : Finset Address) (L : List (Address × (U256 × U256)))
    (vins : OrdMap Address Vin) (balances : OrdMap Address U256) :
    (newBalancesLoop deleted L vins balances).1 = true ↔
      ∀ e ∈ L, ¬ startValue deleted vins e.1 + e.2.1 < e.2.2 := by
  induction L generalizing vins balances with
  | nil => simp [newBalancesLoop]
  | cons e rest ih =>
    obtain ⟨a, plus, minus⟩ := e
    rw [newBalancesLoop_cons]
    split_ifs with h
    · simp only [false_iff, not_forall]
      exact ⟨(a, (plus, minus)), List.mem_cons_self, by simpa using h⟩
    · rw [ih]
      simp only [startValue_touch, List.forall_mem_cons]
      exact ⟨fun h' => ⟨h, h'⟩, fun h' => h'.2⟩

/-- A successful balance loop stores `start + plus - minus` under every key
    and reads (hence inserts) the vin of every key. -/
theorem newBalancesLoop_spec (deleted : Finset Address) (L : List (Address × (U256 × U256)))
    (hL : L.Pairwise (fun a b => a.1 < b.1)) (vins : OrdMap Address Vin)
    (balances : OrdMap Address U256) (hok : (newBalancesLoop deleted L vins balances).1 = true)
    (b : Address) :
    (newBalancesLoop deleted L vins balances).2.2.find? b =
        ((OrdMap.findList b L).map fun pm => startValue deleted vins b + pm.1 - pm.2).or
          (balances.find? b) ∧
      (newBalancesLoop deleted L vins balances).2.1.find? b =
        if (OrdMap.findList b L).isSome then some (vins.findD b default) else vins.find? b := by
  induction L generalizing vins balances with
  | nil => simp [newBalancesLoop, OrdMap.findList]
  | cons e rest ih =>
    obtain ⟨a, plus, minus⟩ := e
    have hrest := (List.pairwise_cons.mp hL).2
    have hnot : OrdMap.findList a rest = none := OrdMap.findList_tail_of_sorted hL
    rw [newBalancesLoop_cons] at hok ⊢
    by_cases h : startValue deleted vins a + plus < minus
    · rw [if_pos h] at hok
      exact absurd hok (by simp)
    · rw [if_neg h] at hok ⊢
      obtain ⟨hbal, hvins⟩ := ih hrest _ _ hok
      rw [hbal, hvins]
      simp only [startValue_touch, OrdMap.findD_touch, OrdMap.find?_touch]
      by_cases hb : b = a
      · subst hb
        simp [OrdMap.findList, hnot]
      · simp [OrdMap.findList, hb]

/-! ## createVins -/

/-- On its own entry, the spending condition is "positive and counted". -/
theorem spendsVin_of_mem {c : CondensingTX} {a : Address} {v : Vin} (h : (a, v) ∈ c.vins.entries) :
    c.spendsVin a v = (decide (v.value > 0) && countedIn c.deleteAddresses c.vins a) := by
  have hD : c.vins.findD a default = v :=
    OrdMap.findD_of_find? ((OrdMap.mem_entries_iff _ _ _).mp h) default
  unfold spendsVin countedIn checkDeleteAddress
  rw [hD]
  simp only [bne]
  cases decide (v.value > 0) <;> cases (v.alive == 0) <;> cases decide (a ∈ c.deleteAddresses) <;>
    rfl

theorem createVins_eq (c : CondensingTX) :
    c.createVins = c.spentVins.map fun v => ⟨⟨h256Touint v.hash, v.nVout⟩, spendScript⟩ := by
  unfold createVins spentVins
  induction c.vins.entries with
  | nil => rfl
  | cons e rest ih =>
    by_cases h : c.spendsVin e.1 e.2 <;> simp [h, ih]

/-- The inputs spend exactly `start(a)` for every key of `vins`. -/
theorem spentVins_value_sum (c : CondensingTX) :
    (c.spentVins.map fun v => v.value.toNat).sum =
      ∑ a ∈ c.vins.keySet, (startValue c.deleteAddresses c.vins a).toNat := by
  unfold spentVins
  rw [List.map_map, Flow.sum_map_filter]
  have hcongr : ∀ e ∈ c.vins.entries,
      (if c.spendsVin e.1 e.2 then ((fun v : Vin => v.value.toNat) ∘ Prod.snd) e else 0) =
        (startValue c.deleteAddresses c.vins e.1).toNat := by
    rintro ⟨a, v⟩ he
    have hD : c.vins.findD a default = v :=
      OrdMap.findD_of_find? ((OrdMap.mem_entries_iff _ _ _).mp he) default
    rw [spendsVin_of_mem he]
    simp only [startValue, hD, Function.comp]
    by_cases hc : countedIn c.deleteAddresses c.vins a = true
    · by_cases hv : v.value > 0
      · rw [if_pos (by rw [hc, decide_eq_true hv]; rfl), if_pos hc]
      · -- a counted vin of value `0` contributes `0` either way
        have hz : v.value = 0 := by simpa using hv
        simp [hz]
    · rw [if_neg (by simp [hc]), if_neg hc]
      rfl
  rw [List.map_congr_left hcongr]
  exact OrdMap.sum_entries_eq c.vins (fun a _ => (startValue c.deleteAddresses c.vins a).toNat) default

/-! ## createVout -/

/-- The output `createVout` makes for a positive balance. -/
def condensingOut (toCAmount : U256 → CAmount) (contract : Address → Bool) (e : Address × U256) :
    CTxOut :=
  ⟨toCAmount e.2, condensingScript (contract e.1) e.1⟩

theorem filter_pos_cons_of_pos {a : Address} {b : U256} (rest : List (Address × U256))
    (hb : b > 0) :
    ((a, b) :: rest).filter (fun e => decide (e.2 > 0)) =
      (a, b) :: rest.filter (fun e => decide (e.2 > 0)) := by
  rw [List.filter_cons, if_pos (decide_eq_true hb)]

theorem filter_pos_cons_of_not_pos {a : Address} {b : U256} (rest : List (Address × U256))
    (hb : ¬ b > 0) :
    ((a, b) :: rest).filter (fun e => decide (e.2 > 0)) = rest.filter (fun e => decide (e.2 > 0)) := by
  rw [List.filter_cons, if_neg (by simpa using hb)]

theorem voutLoop_cons (toCAmount : U256 → CAmount) (contract : Address → Bool) (a : Address)
    (b : U256) (rest : List (Address × U256)) (count : Nat) (outs : List CTxOut)
    (nVouts : OrdMap Address Nat) :
    voutLoop toCAmount contract ((a, b) :: rest) count outs nVouts =
      if b > 0 then
        (if count + 1 > MAX_CONTRACT_VOUTS then
          (outs ++ [condensingOut toCAmount contract (a, b)], nVouts.insert a count, true)
        else voutLoop toCAmount contract rest (count + 1)
          (outs ++ [condensingOut toCAmount contract (a, b)]) (nVouts.insert a count))
      else
        (if count > MAX_CONTRACT_VOUTS then (outs, nVouts, true)
        else voutLoop toCAmount contract rest count outs nVouts) := by
  by_cases hb : b > 0 <;> simp only [voutLoop, hb, if_true, if_false, condensingOut]

/-- Without overflow the loop emits one output per positive balance, in order. -/
theorem voutLoop_outs (toCAmount : U256 → CAmount) (contract : Address → Bool)
    (L : List (Address × U256)) (count : Nat) (outs : List CTxOut) (nVouts : OrdMap Address Nat)
    (h : (voutLoop toCAmount contract L count outs nVouts).2.2 = false) :
    (voutLoop toCAmount contract L count outs nVouts).1 =
      outs ++ (L.filter fun e => decide (e.2 > 0)).map (condensingOut toCAmount contract) := by
  induction L generalizing count outs nVouts with
  | nil => simp [voutLoop]
  | cons e rest ih =>
    obtain ⟨a, b⟩ := e
    rw [voutLoop_cons] at h ⊢
    by_cases hb : b > 0
    · simp only [hb, if_true] at h ⊢
      by_cases hc : count + 1 > MAX_CONTRACT_VOUTS
      · rw [if_pos hc] at h
        exact absurd h (by simp)
      · rw [if_neg hc] at h ⊢
        rw [ih _ _ _ h, filter_pos_cons_of_pos rest hb]
        simp
    · simp only [hb, if_false] at h ⊢
      by_cases hc : count > MAX_CONTRACT_VOUTS
      · rw [if_pos hc] at h
        exact absurd h (by simp)
      · rw [if_neg hc] at h ⊢
        rw [ih _ _ _ h, filter_pos_cons_of_not_pos rest hb]

/-- The loop leaves `nVouts` alone at keys it does not visit. -/
theorem voutLoop_find?_of_not_mem (toCAmount : U256 → CAmount) (contract : Address → Bool)
    (L : List (Address × U256)) (count : Nat) (outs : List CTxOut) (nVouts : OrdMap Address Nat)
    {a : Address} (ha : OrdMap.findList a L = none) :
    (voutLoop toCAmount contract L count outs nVouts).2.1.find? a = nVouts.find? a := by
  induction L generalizing count outs nVouts with
  | nil => simp [voutLoop]
  | cons e rest ih =>
    obtain ⟨a', b⟩ := e
    have hne : a ≠ a' := by
      intro h; subst h; simp [OrdMap.findList] at ha
    have hrest : OrdMap.findList a rest = none := by simpa [OrdMap.findList, hne] using ha
    rw [voutLoop_cons]
    split_ifs <;> simp [ih _ _ _ hrest, OrdMap.find?_insert_of_ne _ _ hne]

/-- Without overflow, `nVouts[a]` is the index of the output paying the
    positive balance of `a`. -/
theorem voutLoop_nVouts (toCAmount : U256 → CAmount) (contract : Address → Bool)
    (L : List (Address × U256)) (hL : L.Pairwise (fun a b => a.1 < b.1)) (count : Nat)
    (outs : List CTxOut) (nVouts : OrdMap Address Nat)
    (h : (voutLoop toCAmount contract L count outs nVouts).2.2 = false)
    {a : Address} {b : U256} (hab : (a, b) ∈ L) (hb : b > 0) :
    ∃ i, (voutLoop toCAmount contract L count outs nVouts).2.1.find? a = some (count + i) ∧
      ((L.filter fun e => decide (e.2 > 0)).map (condensingOut toCAmount contract))[i]? =
        some (condensingOut toCAmount contract (a, b)) := by
  induction L generalizing count outs nVouts with
  | nil => simp at hab
  | cons e rest ih =>
    obtain ⟨a', b'⟩ := e
    have hrest := (List.pairwise_cons.mp hL).2
    have hnot : OrdMap.findList a' rest = none := OrdMap.findList_tail_of_sorted hL
    rw [voutLoop_cons] at h ⊢
    rcases List.mem_cons.mp hab with heq | hmem
    · -- the head entry: its index is `count`
      obtain ⟨rfl, rfl⟩ := Prod.mk.inj heq
      simp only [hb, if_true] at h ⊢
      by_cases hc : count + 1 > MAX_CONTRACT_VOUTS
      · rw [if_pos hc] at h
        exact absurd h (by simp)
      · rw [if_neg hc] at h ⊢
        refine ⟨0, ?_, ?_⟩
        · rw [voutLoop_find?_of_not_mem _ _ _ _ _ _ hnot]
          simp
        · rw [filter_pos_cons_of_pos rest hb, List.map_cons, List.getElem?_cons_zero]
    · -- a later entry: the index shifts by one if the head is paid
      by_cases hb' : b' > 0
      · simp only [hb', if_true] at h ⊢
        by_cases hc : count + 1 > MAX_CONTRACT_VOUTS
        · rw [if_pos hc] at h
          exact absurd h (by simp)
        · rw [if_neg hc] at h ⊢
          obtain ⟨i, hi, hget⟩ := ih hrest _ _ _ h hmem
          refine ⟨i + 1, by rw [hi]; congr 1; omega, ?_⟩
          rw [filter_pos_cons_of_pos rest hb', List.map_cons, List.getElem?_cons_succ]
          exact hget
      · simp only [hb', if_false] at h ⊢
        by_cases hc : count > MAX_CONTRACT_VOUTS
        · rw [if_pos hc] at h
          exact absurd h (by simp)
        · rw [if_neg hc] at h ⊢
          obtain ⟨i, hi, hget⟩ := ih hrest _ _ _ h hmem
          refine ⟨i, hi, ?_⟩
          rw [filter_pos_cons_of_not_pos rest hb']
          exact hget

/-! ## createVin -/

/-- The `Vin` `createVin` writes for `a` with balance `b`: the output paying
    `a` when `b` is positive, a dead `Vin` otherwise. -/
def newVin (c : CondensingTX) (txHash : Hash256) (a : Address) (b : U256) : Vin :=
  if b > 0 then ⟨uintToh256 txHash, c.nVouts.findD a 0, b, 1⟩ else ⟨uintToh256 txHash, 0, 0, 0⟩

theorem createVinStep_eq (c : CondensingTX) (txHash : Hash256) (vins : OrdMap Address Vin)
    (e : Address × U256) :
    c.createVinStep txHash vins e =
      if e.1 = c.transaction.sender then vins else vins.insert e.1 (newVin c txHash e.1 e.2) := by
  unfold createVinStep newVin
  by_cases hs : e.1 = c.transaction.sender
  · rw [if_pos hs, if_pos hs]
  · rw [if_neg hs, if_neg hs]
    by_cases hb : e.2 > 0
    · rw [if_pos hb, if_pos hb]
    · rw [if_neg hb, if_neg hb]

/-- The loop of `createVin` over sorted balances, from any map. -/
theorem createVinFold_find? (c : CondensingTX) (txHash : Hash256) (L : List (Address × U256))
    (hL : L.Pairwise (fun a b => a.1 < b.1)) (m : OrdMap Address Vin) (a : Address) :
    (L.foldl (c.createVinStep txHash) m).find? a =
      if a = c.transaction.sender then m.find? a
      else ((OrdMap.findList a L).map (newVin c txHash a)).or (m.find? a) := by
  induction L generalizing m with
  | nil => by_cases ha : a = c.transaction.sender <;> simp [ha, OrdMap.findList]
  | cons e rest ih =>
    obtain ⟨k, b⟩ := e
    have hnot : OrdMap.findList k rest = none := OrdMap.findList_tail_of_sorted hL
    rw [List.foldl_cons, ih (List.pairwise_cons.mp hL).2, createVinStep_eq]
    by_cases ha : a = c.transaction.sender
    · -- the sender is skipped: a write at `k` is a write elsewhere
      by_cases hk : k = c.transaction.sender
      · simp [ha, hk]
      · subst ha
        simp [hk, Ne.symm hk]
    · by_cases hak : a = k
      · subst hak
        simp [ha, hnot, OrdMap.findList]
      · by_cases hk : k = c.transaction.sender <;> simp [ha, hk, hak, OrdMap.findList]

/-- `createVin` writes the new `Vin` of every address with a balance, except
    the sender. -/
theorem createVin_find? (c : CondensingTX) (txHash : Hash256) (a : Address) :
    (c.createVin txHash).find? a =
      if a = c.transaction.sender then none else (c.balances.find? a).map (newVin c txHash a) := by
  unfold createVin
  rw [createVinFold_find? c txHash _ c.balances.sorted, OrdMap.find?_empty]
  by_cases ha : a = c.transaction.sender
  · simp [ha]
  · simp [ha, OrdMap.find?]

/-! ## createCondensingTX -/

theorem createNewBalances_eq (c : CondensingTX) :
    c.createNewBalances =
      ((newBalancesLoop c.deleteAddresses c.plusMinusInfo.entries c.vins c.balances).1,
        { c with
          vins := (newBalancesLoop c.deleteAddresses c.plusMinusInfo.entries c.vins c.balances).2.1
          balances :=
            (newBalancesLoop c.deleteAddresses c.plusMinusInfo.entries c.vins c.balances).2.2 }) :=
  rfl

theorem createVout_eq (toCAmount : U256 → CAmount) (c : CondensingTX) :
    c.createVout toCAmount =
      ((voutLoop toCAmount c.state.accountAlive c.balances.entries 0 [] c.nVouts).1,
        { c with
          nVouts := (voutLoop toCAmount c.state.accountAlive c.balances.entries 0 [] c.nVouts).2.1
          voutOverflow :=
            (voutLoop toCAmount c.state.accountAlive c.balances.entries 0 [] c.nVouts).2.2 ||
              c.voutOverflow }) :=
  rfl

/-- Without overflow, `createVout` pays every positive balance, in key order. -/
theorem createVout_outs (toCAmount : U256 → CAmount) (c : CondensingTX)
    (h : (c.createVout toCAmount).2.voutOverflow = false) :
    (c.createVout toCAmount).1 =
      (c.balances.entries.filter fun e => decide (e.2 > 0)).map
        (condensingOut toCAmount c.state.accountAlive) := by
  rw [createVout_eq] at h ⊢
  simp only [Bool.or_eq_false_iff] at h
  rw [voutLoop_outs _ _ _ _ _ _ h.1, List.nil_append]

/-- `createVout` leaves the vins, hence the inputs, alone. -/
theorem spentVins_createVout (toCAmount : U256 → CAmount) (c : CondensingTX) :
    (c.createVout toCAmount).2.spentVins = c.spentVins := rfl

/-- A failed balance check yields the empty transaction. -/
theorem createCondensingTX_of_fail (toCAmount : U256 → CAmount) {c c' : CondensingTX}
    (h : c.selectionVin.calculatePlusAndMinus.createNewBalances = (false, c')) :
    c.createCondensingTX toCAmount = (CTransaction.empty, c') := by
  simp only [createCondensingTX, h]

theorem createCondensingTX_of_ok (toCAmount : U256 → CAmount) {c c' : CondensingTX}
    (h : c.selectionVin.calculatePlusAndMinus.createNewBalances = (true, c')) :
    c.createCondensingTX toCAmount =
      (if c'.createVins.isEmpty || (c'.createVout toCAmount).1.isEmpty then CTransaction.empty
        else ⟨c'.createVins, (c'.createVout toCAmount).1⟩, (c'.createVout toCAmount).2) := by
  simp only [createCondensingTX, h]

end Revo
