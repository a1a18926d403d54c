/-
  Revo.Validation.SupplyProofs

  `GetSupply` is the genesis reward plus the subsidies of every height up
  to its own, and none of its operations overflows.

    * `getSupplyLoop_eq`: on a table whose stages do not go down and whose
      whole stages fit an `int` (`StagesWF`), the loop from `previous_blocks`
      returns `previous_supply` plus the subsidies, read off the same table,
      of the heights after `previous_blocks` up to `nHeight`, while the
      table's total fits a `CAmount`.  By induction on the table: a stage
      that holds `nHeight` is one product, and one that ends below it splits
      the sum at its bound.
    * The source's two tables are the same list; for `nLastBigReward` in
      `[0, 100000]` it meets the conditions, and for `5000` the supply ends
      at `MAX_MONEY`.
    * A chain whose blocks create at most their subsidy keeps its
      `nMoneySupply` at or below `GetSupply` of every height, so the check
      of `ConnectBlock` passes.
-/

import Mathlib
import Revo.Validation.Supply

namespace Revo

open Checked

/-! ## Stage tables -/

/-- A table the loops run without overflow from `previous_blocks`: bounds
    that do not go down, rewards that are not negative, and the reward of
    each whole stage an `int`. -/
def StagesWF : Int → List (Int × Int) → Prop
  | _, [] => True
  | pb, (b, r) :: st => pb ≤ b ∧ 0 ≤ r ∧ (b - pb) * r < 2 ^ 31 ∧ StagesWF b st

/-- The reward of the whole table from `previous_blocks` on, in coins. -/
def stagesTotal : Int → List (Int × Int) → Int
  | _, [] => 0
  | pb, (b, r) :: st => (b - pb) * r + stagesTotal b st

theorem stagesTotal_nonneg : ∀ {pb : Int} {st : List (Int × Int)}, StagesWF pb st → 0 ≤ stagesTotal pb st
  | _, [], _ => Int.le_refl 0
  | _, (_, _) :: _, ⟨hb, hr, _, hwf⟩ =>
    Int.add_nonneg (Int.mul_nonneg (by omega) hr) (stagesTotal_nonneg hwf)

theorem getBlockSubsidyLoop_nonneg (i : Int) :
    ∀ {pb : Int} {st : List (Int × Int)}, StagesWF pb st → 0 ≤ getBlockSubsidyLoop i st
  | _, [], _ => Int.le_refl 0
  | _, (b, _) :: _, ⟨_, hr, _, hwf⟩ => by
    unfold getBlockSubsidyLoop
    split
    · exact Int.mul_nonneg hr (by decide)
    · exact getBlockSubsidyLoop_nonneg i hwf

/-- Past the bound of every stage there is no subsidy. -/
theorem getBlockSubsidyLoop_eq_zero {i : Int} :
    ∀ {st : List (Int × Int)}, (∀ s ∈ st, s.1 < i) → getBlockSubsidyLoop i st = 0
  | [], _ => rfl
  | (b, r) :: st, h => by
    have hb : b < i := h (b, r) List.mem_cons_self
    rw [getBlockSubsidyLoop, if_neg (Int.not_le.mpr hb)]
    exact getBlockSubsidyLoop_eq_zero fun s hs => h s (List.mem_cons_of_mem _ hs)

/-! ## One stage -/

/-- A stage's reward has a value when its blocks and their reward fit an
    `int`; the `CAmount` product of an `int` by `COIN` always fits. -/
theorem stageReward_eq {height pb r : Int} (h0 : pb ≤ height) (h1 : height - pb < 2 ^ 31)
    (hr : 0 ≤ r) (h2 : (height - pb) * r < 2 ^ 31) :
    stageReward height pb r = some ((height - pb) * r * COIN) := by
  have hm : 0 ≤ (height - pb) * r := Int.mul_nonneg (by omega) hr
  have hblocks : checked 32 (height - pb) = some (height - pb) :=
    checked_of_inRange (inRange_of_nonneg (by omega) h1)
  have hcoins : checked 32 ((height - pb) * r) = some ((height - pb) * r) :=
    checked_of_inRange (inRange_of_nonneg hm h2)
  have hamount : checked 64 ((height - pb) * r * COIN) = some ((height - pb) * r * COIN) :=
    checked_of_inRange (inRange_of_nonneg (by unfold COIN; omega) (by unfold COIN; omega))
  simp only [stageReward, Option.bind_eq_bind, hblocks, Option.bind_some, hcoins, hamount]

theorem sum_Ioc_const {a b : Int} (h : a ≤ b) (c : Int) : ∑ _i ∈ Finset.Ioc a b, c = (b - a) * c := by
  rw [Finset.sum_const, nsmul_eq_mul, Int.card_Ioc_of_le a b h]

/-- The heights of a stage up to `nHeight`, all within its bound, earn its
    reward each. -/
theorem sum_subsidy_stage {pb nHeight b r : Int} (st : List (Int × Int)) (h0 : pb ≤ nHeight)
    (hle : nHeight ≤ b) :
    ∑ i ∈ Finset.Ioc pb nHeight, getBlockSubsidyLoop i ((b, r) :: st) = (nHeight - pb) * r * COIN := by
  rw [Finset.sum_congr rfl fun i hi => ?_, sum_Ioc_const h0, Int.mul_assoc]
  rw [getBlockSubsidyLoop, if_pos (Int.le_trans (Finset.mem_Ioc.mp hi).2 hle)]

/-- Heights after a stage's bound skip it. -/
theorem sum_subsidy_past {b nHeight r : Int} (st : List (Int × Int)) :
    ∑ i ∈ Finset.Ioc b nHeight, getBlockSubsidyLoop i ((b, r) :: st) =
      ∑ i ∈ Finset.Ioc b nHeight, getBlockSubsidyLoop i st := by
  refine Finset.sum_congr rfl fun i hi => ?_
  rw [getBlockSubsidyLoop, if_neg (Int.not_le.mpr (Finset.mem_Ioc.mp hi).1)]

theorem sum_Ioc_split (f : Int → Int) {a b c : Int} (hab : a ≤ b) (hbc : b ≤ c) :
    ∑ i ∈ Finset.Ioc a c, f i = ∑ i ∈ Finset.Ioc a b, f i + ∑ i ∈ Finset.Ioc b c, f i := by
  rw [← Finset.Ioc_union_Ioc_eq_Ioc hab hbc, Finset.sum_union (Finset.Ioc_disjoint_Ioc_of_le le_rfl)]

/-! ## The loop -/

/-- The loop of `GetSupply` adds the subsidies of the heights it covers.
    Induction on the table, with `previous_supply` and `previous_blocks`
    moving to the next stage when `nHeight` is past the bound. -/
theorem getSupplyLoop_eq {nHeight : Int} (hh : nHeight < 2 ^ 31) :
    ∀ {st : List (Int × Int)} {S pb : Int}, StagesWF pb st → 0 ≤ pb → pb ≤ nHeight → 0 ≤ S →
      S + stagesTotal pb st * COIN < 2 ^ 63 →
      getSupplyLoop nHeight S pb st = some (S + ∑ i ∈ Finset.Ioc pb nHeight, getBlockSubsidyLoop i st)
  | [], S, pb, _, _, _, _, _ => by
    simp only [getSupplyLoop, getBlockSubsidyLoop, Int.zero_mul, Finset.sum_const_zero, Int.add_zero]
  | (b, r) :: st, S, pb, ⟨hb, hr, hbr, hwf⟩, h0, hpb, hS, htot => by
    have hrest := stagesTotal_nonneg hwf
    rw [stagesTotal] at htot
    unfold COIN at htot
    by_cases hle : nHeight ≤ b
    · -- `nHeight` is within this stage: one product
      have hmul : (nHeight - pb) * r ≤ (b - pb) * r := Int.mul_le_mul_of_nonneg_right (by omega) hr
      have hm : 0 ≤ (nHeight - pb) * r := Int.mul_nonneg (by omega) hr
      have hsum : checked 64 (S + (nHeight - pb) * r * COIN) = some (S + (nHeight - pb) * r * COIN) :=
        checked_of_inRange (inRange_of_nonneg (by unfold COIN; omega) (by unfold COIN; omega))
      rw [getSupplyLoop, if_pos hle, stageReward_eq hpb (by omega) hr (by omega), Option.bind_eq_bind,
        Option.bind_some, hsum, sum_subsidy_stage st hpb hle]
    · -- past this stage: it is added whole, and the sum splits at its bound
      have hlt : b < nHeight := Int.lt_of_not_ge hle
      have hm : 0 ≤ (b - pb) * r := Int.mul_nonneg (by omega) hr
      have hsum : checked 64 (S + (b - pb) * r * COIN) = some (S + (b - pb) * r * COIN) :=
        checked_of_inRange (inRange_of_nonneg (by unfold COIN; omega) (by unfold COIN; omega))
      have ih := getSupplyLoop_eq hh hwf (by omega) (Int.le_of_lt hlt)
        (by unfold COIN; omega : 0 ≤ S + (b - pb) * r * COIN) (by unfold COIN; omega)
      rw [getSupplyLoop, if_neg hle, stageReward_eq hb (by omega) hr hbr, Option.bind_eq_bind,
        Option.bind_some, hsum, Option.bind_some, ih,
        sum_Ioc_split _ hb (Int.le_of_lt hlt), sum_subsidy_stage st hb (Int.le_refl b), sum_subsidy_past,
        Int.add_assoc]

/-- Every value the loop returns is a `CAmount`: the result of a checked
    addition, or the supply it started from. -/
theorem inRange_of_getSupplyLoop {nHeight : Int} :
    ∀ {st : List (Int × Int)} {S pb v : Int}, InRange 64 S → getSupplyLoop nHeight S pb st = some v →
      InRange 64 v
  | [], _, _, _, hS, h => by
    rw [getSupplyLoop, Option.some_inj] at h
    rw [← h]
    exact hS
  | (_, _) :: _, _, _, _, hS, h => by
    rw [getSupplyLoop, Option.bind_eq_bind] at h
    split at h
    · obtain ⟨_, -, hv⟩ := Option.bind_eq_some_iff.mp h
      exact inRange_of_checked_eq_some hv
    · obtain ⟨_, -, hx⟩ := Option.bind_eq_some_iff.mp h
      obtain ⟨_, hS', hv⟩ := Option.bind_eq_some_iff.mp hx
      exact inRange_of_getSupplyLoop (inRange_of_checked_eq_some hS') hv

/-! ## The schedule of the source -/

section Schedule

variable {params : ConsensusParams}

/-- The two functions' tables, each copied from its own body, are one list. -/
theorem blockSubsidyStages_eq_supplyStages (params : ConsensusParams) :
    blockSubsidyStages params = supplyStages params := rfl

variable (h0 : 0 ≤ params.nLastBigReward) (h1 : params.nLastBigReward ≤ 100000)
include h0 h1

theorem supplyStages_wf : StagesWF 0 (supplyStages params) := by
  simp only [supplyStages, StagesWF, and_true]
  omega

theorem supplyStages_total : 50 * COIN + stagesTotal 0 (supplyStages params) * COIN < 2 ^ 63 := by
  -- stated at `CAmount`, which `omega` does not read as `Int`
  show (50 * 100000000 : Int) + stagesTotal 0 (supplyStages params) * 100000000 < 2 ^ 63
  simp only [supplyStages, stagesTotal]
  omega

/-- `GetSupply(nHeight)` is the genesis reward and the subsidy of every
    height from `1` to `nHeight`. -/
theorem getSupply_eq_sum {nHeight : Int} (hh0 : 0 ≤ nHeight) (hh : nHeight < 2 ^ 31) :
    getSupply nHeight params = some (50 * COIN + ∑ i ∈ Finset.Ioc 0 nHeight, getBlockSubsidy i params) := by
  unfold getSupply getBlockSubsidy
  rw [blockSubsidyStages_eq_supplyStages]
  exact getSupplyLoop_eq hh (supplyStages_wf h0 h1) (Int.le_refl 0) hh0 (by unfold COIN; omega)
    (supplyStages_total h0 h1)

theorem sum_subsidy_lt {nHeight : Int} (hh0 : 0 ≤ nHeight) (hh : nHeight < 2 ^ 31) :
    50 * COIN + ∑ i ∈ Finset.Ioc 0 nHeight, getBlockSubsidy i params < 2 ^ 63 := by
  have hgenesis : InRange 64 (50 * COIN) := inRange_of_nonneg (by unfold COIN; omega) (by unfold COIN; omega)
  exact (inRange_of_getSupplyLoop hgenesis (getSupply_eq_sum h0 h1 hh0 hh)).2

theorem getBlockSubsidy_nonneg (i : Int) : 0 ≤ getBlockSubsidy i params :=
  getBlockSubsidyLoop_nonneg i (supplyStages_wf h0 h1)

theorem sum_subsidy_mono {h h' : Int} (hle : h ≤ h') :
    ∑ i ∈ Finset.Ioc 0 h, getBlockSubsidy i params ≤ ∑ i ∈ Finset.Ioc 0 h', getBlockSubsidy i params :=
  Finset.sum_le_sum_of_subset_of_nonneg (Finset.Ioc_subset_Ioc_right hle) fun i _ _ =>
    getBlockSubsidy_nonneg h0 h1 i

/-- After height 33 million there is no subsidy. -/
theorem getBlockSubsidy_eq_zero {i : Int} (hi : 33000000 < i) : getBlockSubsidy i params = 0 := by
  apply getBlockSubsidyLoop_eq_zero
  simp only [blockSubsidyStages, List.mem_cons, List.not_mem_nil, or_false, forall_eq_or_imp, forall_eq]
  omega

theorem sum_subsidy_of_le {h : Int} (hh : 33000000 ≤ h) :
    ∑ i ∈ Finset.Ioc 0 h, getBlockSubsidy i params = ∑ i ∈ Finset.Ioc 0 33000000, getBlockSubsidy i params := by
  have hzero : ∑ i ∈ Finset.Ioc 33000000 h, getBlockSubsidy i params = 0 :=
    Finset.sum_eq_zero fun i hi => getBlockSubsidy_eq_zero h0 h1 (Finset.mem_Ioc.mp hi).1
  rw [sum_Ioc_split _ (by decide) hh, hzero, Int.add_zero]

end Schedule

/-! ## The money-supply check -/

/-- The heights after `a` up to `b` are those up to `b - 1`, and `b`. -/
theorem sum_Ioc_succ_top (f : Int → Int) {a b : Int} (h : a < b) :
    ∑ i ∈ Finset.Ioc a b, f i = ∑ i ∈ Finset.Ioc a (b - 1), f i + f b := by
  have htop : Finset.Ioc (b - 1) b = {b} := by
    ext x
    simp only [Finset.mem_Ioc, Finset.mem_singleton]
    omega
  rw [sum_Ioc_split f (by omega : a ≤ b - 1) (by omega : b - 1 ≤ b), htop, Finset.sum_singleton]

section MoneySupply

variable {params : ConsensusParams} (h0 : 0 ≤ params.nLastBigReward) (h1 : params.nLastBigReward ≤ 100000)
include h0 h1

/-- A supply that is not negative and at most the subsidies up to
    `nHeight` passes the check at `nHeight`: `GetSupply` adds the genesis
    reward to them, and its cast to `uint64_t` keeps it. -/
theorem checkMoneySupply_ok (mineBlocksOnDemand : Bool) {nHeight S : Int} (hh0 : 0 ≤ nHeight)
    (hh : nHeight < 2 ^ 31) (hS0 : 0 ≤ S) (hS : S ≤ ∑ i ∈ Finset.Ioc 0 nHeight, getBlockSubsidy i params) :
    checkMoneySupply mineBlocksOnDemand S.toNat nHeight params = some (.ok ()) := by
  have hlt := sum_subsidy_lt h0 h1 hh0 hh
  have hgenesis : (0 : Int) ≤ 50 * COIN := by decide
  have hsupply0 : 0 ≤ 50 * COIN + ∑ i ∈ Finset.Ioc 0 nHeight, getBlockSubsidy i params :=
    Int.add_nonneg hgenesis (Int.le_trans hS0 hS)
  have hle : S ≤ 50 * COIN + ∑ i ∈ Finset.Ioc 0 nHeight, getBlockSubsidy i params :=
    Int.le_trans hS (Int.le_add_of_nonneg_left hgenesis)
  unfold checkMoneySupply
  cases mineBlocksOnDemand with
  | true => rfl
  | false =>
    rw [if_neg Bool.false_ne_true, getSupply_eq_sum h0 h1 hh0 hh, Option.map_some,
      Int.emod_eq_of_lt hsupply0 (Int.lt_trans hlt (by decide)), if_neg (Nat.not_lt.mpr (Int.toNat_le_toNat hle))]

/-- Connecting a chain whose blocks each create at most their subsidy, and
    never spend more than there is, keeps the supply at or below the
    subsidies of the heights so far.  Induction on the blocks, from the
    supply `S` before height `nHeight`. -/
theorem connectMoneySupply_eq (mineBlocksOnDemand : Bool) :
    ∀ (blocks : List (CAmount × CAmount)) (S nHeight : Int), 1 ≤ nHeight →
      nHeight + blocks.length ≤ 2 ^ 31 → 0 ≤ S →
      S ≤ ∑ i ∈ Finset.Ioc 0 (nHeight - 1), getBlockSubsidy i params →
      (∀ k < blocks.length, (blocks.getD k (0, 0)).1 - (blocks.getD k (0, 0)).2 ≤
        getBlockSubsidy (nHeight + k) params) →
      (∀ k ≤ blocks.length, 0 ≤ S + ((blocks.take k).map fun b => b.1 - b.2).sum) →
      connectMoneySupply mineBlocksOnDemand params S.toNat nHeight blocks =
        some (.ok (S + (blocks.map fun b => b.1 - b.2).sum).toNat)
  | [], S, _, _, _, _, _, _, _ => by
    rw [connectMoneySupply, List.map_nil, List.sum_nil, Int.add_zero]
  | (nValueOut, nValueIn) :: blocks, S, nHeight, hn, hlen, hS0, hS, hsub, hpre => by
    rw [List.length_cons] at hlen
    -- what the hypotheses say of this block
    have hd : nValueOut - nValueIn ≤ getBlockSubsidy nHeight params := by
      simpa using hsub 0 (Nat.succ_pos _)
    have hS'0 : 0 ≤ S + (nValueOut - nValueIn) := by
      simpa using hpre 1 (Nat.succ_le_succ (Nat.zero_le _))
    have hS' : S + (nValueOut - nValueIn) ≤ ∑ i ∈ Finset.Ioc 0 nHeight, getBlockSubsidy i params := by
      rw [sum_Ioc_succ_top _ (by omega : (0 : Int) < nHeight)]
      exact Int.add_le_add hS hd
    have hlt : S + (nValueOut - nValueIn) < 2 ^ 64 :=
      Int.lt_of_le_of_lt hS' (Int.lt_of_le_of_lt (Int.le_add_of_nonneg_left (by decide))
        (Int.lt_trans (sum_subsidy_lt h0 h1 (by omega : (0 : Int) ≤ nHeight) (by omega)) (by decide)))
    -- the `uint64_t` supply is the supply itself
    have hnext : nextMoneySupply S.toNat nValueOut nValueIn = (S + (nValueOut - nValueIn)).toNat := by
      unfold nextMoneySupply
      rw [Int.toNat_of_nonneg hS0, Int.add_sub_assoc, Int.emod_eq_of_lt hS'0 hlt]
    rw [connectMoneySupply]
    rw [hnext, checkMoneySupply_ok h0 h1 mineBlocksOnDemand (by omega) (by omega) hS'0 hS', Option.bind_some]
    dsimp only
    -- the rest of the chain, from the next height
    have ih := connectMoneySupply_eq mineBlocksOnDemand blocks (S + (nValueOut - nValueIn)) (nHeight + 1)
      (by omega) (by omega) hS'0 (by rw [Int.add_sub_cancel]; exact hS')
      (fun k hk => by
        have := hsub (k + 1) (Nat.succ_lt_succ hk)
        rw [List.getD_cons_succ] at this
        rw [show nHeight + 1 + (k : Int) = nHeight + ((k + 1 : Nat) : Int) by push_cast; omega]
        exact this)
      (fun k hk => by
        have := hpre (k + 1) (Nat.succ_le_succ hk)
        rw [List.take_succ_cons, List.map_cons, List.sum_cons, ← Int.add_assoc] at this
        exact this)
    rw [ih, List.map_cons, List.sum_cons, Int.add_assoc]

end MoneySupply

/-! ## The schedule and the supply -/

theorem Icc_one_eq_Ioc_zero (h : Int) : Finset.Icc 1 h = Finset.Ioc 0 h := by
  ext i
  simp only [Finset.mem_Icc, Finset.mem_Ioc]
  omega

/-- With `nLastBigReward = 5000` the supply reaches `MAX_MONEY` at height
    33 million. -/
theorem getSupply_33000000 {params : ConsensusParams} (hL : params.nLastBigReward = 5000) :
    getSupply 33000000 params = some MAX_MONEY := by
  unfold getSupply supplyStages
  rw [hL]
  decide

theorem getSupply_agrees_subsidy :
    (∀ (params : ConsensusParams) (h : Int), 0 ≤ params.nLastBigReward →
      params.nLastBigReward ≤ 100000 → 0 ≤ h → h < 2 ^ 31 →
      getSupply h params = some (50 * COIN + ∑ i ∈ Finset.Icc 1 h, getBlockSubsidy i params)) ∧
    (∀ (params : ConsensusParams) (h h' : Int), 0 ≤ params.nLastBigReward →
      params.nLastBigReward ≤ 100000 → 0 ≤ h → h ≤ h' → h' < 2 ^ 31 →
      ∃ s s', getSupply h params = some s ∧ getSupply h' params = some s' ∧ s ≤ s') ∧
    (∀ (params : ConsensusParams) (h : Int), params.nLastBigReward = 5000 → 0 ≤ h → h < 2 ^ 31 →
      ∃ s, getSupply h params = some s ∧ s ≤ MAX_MONEY ∧ (33000000 ≤ h → s = MAX_MONEY)) ∧
    (∀ (params : ConsensusParams) (mineBlocksOnDemand : Bool) (blocks : List (CAmount × CAmount)),
      0 ≤ params.nLastBigReward → params.nLastBigReward ≤ 100000 → blocks.length < 2 ^ 31 →
      (∀ k < blocks.length, (blocks.getD k (0, 0)).1 - (blocks.getD k (0, 0)).2 ≤
        getBlockSubsidy (k + 1) params) →
      (∀ k ≤ blocks.length, 0 ≤ ((blocks.take k).map fun b => b.1 - b.2).sum) →
      connectMoneySupply mineBlocksOnDemand params 0 1 blocks =
        some (.ok ((blocks.map fun b : CAmount × CAmount => b.1 - b.2).sum.toNat))) := by
  refine ⟨fun params h h0 h1 hh0 hh => ?_, fun params h h' h0 h1 hh0 hle hh => ?_,
    fun params h hL hh0 hh => ?_, fun params mine blocks h0 h1 hlen hsub hpre => ?_⟩
  · rw [Icc_one_eq_Ioc_zero]
    exact getSupply_eq_sum h0 h1 hh0 hh
  · exact ⟨_, _, getSupply_eq_sum h0 h1 hh0 (by omega), getSupply_eq_sum h0 h1 (by omega) hh,
      Int.add_le_add_left (sum_subsidy_mono h0 h1 hle) _⟩
  · -- the supply at 33 million is `MAX_MONEY`; below it is less, and above it no more is added
    have h0 : 0 ≤ params.nLastBigReward := by rw [hL]; decide
    have h1 : params.nLastBigReward ≤ 100000 := by rw [hL]; decide
    have hmax : 50 * COIN + ∑ i ∈ Finset.Ioc 0 33000000, getBlockSubsidy i params = MAX_MONEY := by
      have h33 := @getSupply_eq_sum params h0 h1 33000000 (by decide) (by decide)
      rw [getSupply_33000000 hL] at h33
      exact (Option.some_inj.mp h33).symm
    refine ⟨_, getSupply_eq_sum h0 h1 hh0 hh, ?_, fun hge => ?_⟩
    · by_cases hle : h ≤ 33000000
      · rw [← hmax]
        exact Int.add_le_add_left (sum_subsidy_mono h0 h1 hle) _
      · rw [sum_subsidy_of_le h0 h1 (by omega), hmax]
    · rw [sum_subsidy_of_le h0 h1 hge, hmax]
  · have hrun := connectMoneySupply_eq h0 h1 mine blocks 0 1 (Int.le_refl 1) (by omega) (Int.le_refl 0)
      (by rw [Int.sub_self, Finset.Ioc_self, Finset.sum_empty])
      (fun k hk => by rw [Int.add_comm]; exact hsub k hk)
      (fun k hk => by rw [Int.zero_add]; exact hpre k hk)
    rw [Int.zero_add] at hrun
    exact hrun

theorem getSupply_agrees_subsidy_main :
    ((0 ≤ mainParams.nLastBigReward ∧ mainParams.nLastBigReward ≤ 100000 ∧ (0 : Int) ≤ 5001 ∧
        (5001 : Int) < 2 ^ 31) ∧
      getSupply 5001 mainParams =
        some (50 * COIN + ∑ i ∈ Finset.Icc 1 5001, getBlockSubsidy i mainParams)) ∧
    ((0 ≤ mainParams.nLastBigReward ∧ mainParams.nLastBigReward ≤ 100000 ∧ (0 : Int) ≤ 5000 ∧
        (5000 : Int) ≤ 33000000 ∧ (33000000 : Int) < 2 ^ 31) ∧
      ∃ s s', getSupply 5000 mainParams = some s ∧ getSupply 33000000 mainParams = some s' ∧ s ≤ s') ∧
    ((mainParams.nLastBigReward = 5000 ∧ (0 : Int) ≤ 33000000 ∧ (33000000 : Int) < 2 ^ 31) ∧
      ∃ s, getSupply 33000000 mainParams = some s ∧ s ≤ MAX_MONEY ∧
        ((33000000 : Int) ≤ 33000000 → s = MAX_MONEY)) ∧
    ((0 ≤ mainParams.nLastBigReward ∧ mainParams.nLastBigReward ≤ 100000 ∧
        [(21000 * COIN, 0), (21000 * COIN, 21000 * COIN)].length < 2 ^ 31 ∧
        (∀ k < [(21000 * COIN, 0), (21000 * COIN, 21000 * COIN)].length,
          ([(21000 * COIN, 0), (21000 * COIN, 21000 * COIN)].getD k (0, 0)).1 -
            ([(21000 * COIN, 0), (21000 * COIN, 21000 * COIN)].getD k (0, 0)).2 ≤
            getBlockSubsidy (k + 1) mainParams) ∧
        (∀ k ≤ [(21000 * COIN, 0), (21000 * COIN, 21000 * COIN)].length,
          0 ≤ (([(21000 * COIN, 0), (21000 * COIN, 21000 * COIN)].take k).map fun b => b.1 - b.2).sum)) ∧
      connectMoneySupply false mainParams 0 1 [(21000 * COIN, 0), (21000 * COIN, 21000 * COIN)] =
        some (.ok (([(21000 * COIN, 0), (21000 * COIN, 21000 * COIN)].map
          fun b : CAmount × CAmount => b.1 - b.2).sum.toNat))) :=
  ⟨⟨⟨by decide, by decide, by decide, by decide⟩,
      getSupply_agrees_subsidy.1 mainParams 5001 (by decide) (by decide) (by decide) (by decide)⟩,
    ⟨⟨by decide, by decide, by decide, by decide, by decide⟩,
      getSupply_agrees_subsidy.2.1 mainParams 5000 33000000 (by decide) (by decide) (by decide) (by decide)
        (by decide)⟩,
    ⟨⟨rfl, by decide, by decide⟩, getSupply_agrees_subsidy.2.2.1 mainParams 33000000 rfl (by decide) (by decide)⟩,
    ⟨⟨by decide, by decide, by decide, by decide, by decide⟩,
      getSupply_agrees_subsidy.2.2.2 mainParams false _ (by decide) (by decide) (by decide) (by decide)
        (by decide)⟩⟩

end Revo
