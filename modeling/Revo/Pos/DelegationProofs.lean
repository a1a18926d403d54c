/-
  Revo.Pos.DelegationProofs

  What the validator makes of a coinstake the super staker builds:

    * `delegateRewardOk_of_split` — `CheckReward`'s delegate check always
      accepts the wallet's split, for every reward and number of pieces;
    * `getDelegationFeeTx_of_split` — the fee read back from the coinstake
      is the delegation fee exactly when the remainder of the split is below
      the reward, which fails for small rewards.

  Both rest on `Rounding`: the last MPoS piece is the remainder piece, and
  rounding a share down then up loses at most what the remainder allows.
-/

import Revo.Pos.Delegation
import Revo.Lib.Rounding

namespace Revo

/-! ## The split -/

theorem splitOfflineStakeReward_of_le {fee : UInt8} (nReward : CAmount) (hfee : fee.toNat ≤ 100) :
    splitOfflineStakeReward nReward fee =
      some (nReward - (nReward * fee.toNat).tdiv 100, (nReward * fee.toNat).tdiv 100) := by
  unfold splitOfflineStakeReward
  rw [if_neg (show ¬ fee.toNat > 100 by omega)]

/-- The wallet's outputs: the staker gets its coin and the share rounded
    down, the delegate the rest. -/
theorem coinStakeDelegateReward_eq {fee : UInt8} (p : MPoSParams) (nPrevHeight : Int)
    {nTotalReward : CAmount} (nCredit : CAmount) (hT : 0 ≤ nTotalReward) (hfee : fee.toNat ≤ 100) :
    coinStakeDelegateReward p nPrevHeight nTotalReward fee nCredit =
      some (nCredit + (stakerReward p nPrevHeight nTotalReward * fee.toNat).tdiv 100,
        stakerReward p nPrevHeight nTotalReward -
          (stakerReward p nPrevHeight nTotalReward * fee.toNat).tdiv 100) := by
  unfold coinStakeDelegateReward
  rw [if_neg (not_lt.mpr hT), splitOfflineStakeReward_of_le _ hfee]
  rfl

/-- The reward the staker splits is never negative. -/
theorem stakerReward_nonneg (p : MPoSParams) (nPrevHeight : Int) {T : CAmount} (hT : 0 ≤ T)
    (hr : 1 ≤ p.nMPoSRewardRecipients) : 0 ≤ stakerReward p nPrevHeight T := by
  unfold stakerReward
  split
  · have hdiv : 0 ≤ T.tdiv p.nMPoSRewardRecipients := Int.tdiv_nonneg hT (by omega)
    have hmod : 0 ≤ T.tmod p.nMPoSRewardRecipients := Int.tmod_nonneg _ hT
    exact Int.add_nonneg hdiv hmod
  · exact hT

/-- What `CheckReward` computes as the delegate's reward is the reward the
    wallet split: `T - (T / r) * (r - 1)` is the last piece. -/
theorem checkReward_nReward_eq (p : MPoSParams) (nPrevHeight : Int) {T : CAmount} (hT : 0 ≤ T)
    (hr : 1 ≤ p.nMPoSRewardRecipients) :
    T - T.tdiv (p.rewardRecipients nPrevHeight) * (p.rewardRecipients nPrevHeight - 1) =
      stakerReward p nPrevHeight T := by
  unfold MPoSParams.rewardRecipients stakerReward
  split
  · -- the window: `r` pieces, the staker's is the last
    obtain ⟨n, rfl⟩ := Int.eq_ofNat_of_zero_le hT
    obtain ⟨r, hrr⟩ := Int.eq_ofNat_of_zero_le (show 0 ≤ p.nMPoSRewardRecipients by omega)
    rw [hrr]
    exact Rounding.sub_pieces_tdiv_eq n (by omega)
  · simp

/-! ## The validator's checks -/

section Split

variable {p : MPoSParams} {nPrevHeight : Int} {fee : UInt8} {coin : Coin} {tx : CTransaction}
  {T : CAmount}

/-- `CheckReward`'s delegate check accepts every coinstake whose outputs
    carry the wallet's split. -/
theorem delegateRewardOk_of_split (blockReward gasRefunds : CAmount) (hT : T = blockReward - gasRefunds)
    (hT0 : 0 ≤ T) (hr : 1 ≤ p.nMPoSRewardRecipients) (hfee : fee.toNat ≤ 100)
    (h1 : voutValue tx.vout 1 = coin.out.nValue + (stakerReward p nPrevHeight T * fee.toNat).tdiv 100)
    (h2 : isDelegateOutputExist fee.toNat = true →
      voutValue tx.vout 2 =
        stakerReward p nPrevHeight T - (stakerReward p nPrevHeight T * fee.toNat).tdiv 100) :
    delegateRewardOk blockReward gasRefunds (p.rewardRecipients nPrevHeight) tx.vout coin.out.nValue
      (isDelegateOutputExist fee.toNat) = true := by
  have hreward := checkReward_nReward_eq p nPrevHeight hT0 hr
  subst hT
  unfold delegateRewardOk
  rw [beq_iff_eq, hreward, h1]
  cases hex : isDelegateOutputExist fee.toNat
  · -- no delegate output: the fee is 100 and the staker takes everything
    have h100 : fee.toNat = 100 := by
      simp only [isDelegateOutputExist, Bool.and_eq_false_iff, decide_eq_false_iff_not] at hex
      omega
    rw [if_neg (by simp), h100, Nat.cast_ofNat, Int.mul_tdiv_cancel _ (by decide)]
    ring
  · rw [if_pos rfl, h2 hex]
    ring

/-- The fee `GetDelegationFeeTx` reads back from a coinstake carrying the
    wallet's split is the delegation fee iff the split's remainder is below
    the reward. -/
theorem getDelegationFeeTx_of_split (hT0 : 0 ≤ T) (hr : 1 ≤ p.nMPoSRewardRecipients)
    (hfee : fee.toNat ≤ 100) (hcoin : 0 < coin.out.nValue) (hcs : tx.isCoinStake = true)
    (h1 : tx.vout[1]?.map CTxOut.nValue =
      some (coin.out.nValue + (stakerReward p nPrevHeight T * fee.toNat).tdiv 100))
    (h2 : isDelegateOutputExist fee.toNat = true →
      tx.vout[2]?.map CTxOut.nValue =
        some (stakerReward p nPrevHeight T - (stakerReward p nPrevHeight T * fee.toNat).tdiv 100)) :
    getDelegationFeeTx tx coin (isDelegateOutputExist fee.toNat) = fee.toNat ↔
      0 < stakerReward p nPrevHeight T ∧
        stakerReward p nPrevHeight T * fee.toNat % 100 < stakerReward p nPrevHeight T := by
  obtain ⟨R, hR⟩ := Int.eq_ofNat_of_zero_le (stakerReward_nonneg p nPrevHeight hT0 hr)
  rw [hR] at h1 h2 ⊢
  -- the staker's share as a natural number
  have hshare : ((R : Int) * fee.toNat).tdiv 100 = ((R * fee.toNat / 100 : Nat) : Int) := by
    rw [← Nat.cast_mul]
    exact Rounding.tdiv_natCast _ 100
  rw [hshare] at h1 h2
  have hv1 : voutValue tx.vout 1 = coin.out.nValue + ((R * fee.toNat / 100 : Nat) : Int) := by
    simp [voutValue, h1]
  have hlen1 : 2 ≤ tx.vout.length := by
    by_contra h
    rw [List.getElem?_eq_none (by omega)] at h1
    simp at h1
  -- the reward the reader sees is `R`, whether or not the delegate has an output
  have hreward : voutValue tx.vout 1 - coin.out.nValue +
      (if isDelegateOutputExist fee.toNat then voutValue tx.vout 2 else 0) = R := by
    cases hex : isDelegateOutputExist fee.toNat
    · have h100 : fee.toNat = 100 := by
        simp only [isDelegateOutputExist, Bool.and_eq_false_iff, decide_eq_false_iff_not] at hex
        omega
      rw [hv1, h100, Nat.mul_div_cancel R (by decide)]
      simp
    · have hv2 : voutValue tx.vout 2 = (R : Int) - ((R * fee.toNat / 100 : Nat) : Int) := by
        simp [voutValue, h2 hex]
      rw [hv1, hv2, if_pos rfl]
      ring
  have hlen : ¬ tx.vout.length < (if isDelegateOutputExist fee.toNat then 3 else 2) := by
    cases hex : isDelegateOutputExist fee.toNat
    · simp only [Bool.false_eq_true, if_false]; omega
    · have h3 := h2 hex
      have : 3 ≤ tx.vout.length := by
        by_contra h
        rw [List.getElem?_eq_none (by omega)] at h3
        simp at h3
      simp only [if_true]; omega
  unfold getDelegationFeeTx
  simp only [hcs, Bool.not_true, hlen, not_le.mpr hcoin, decide_false, Bool.or_self,
    Bool.false_eq_true, if_false, hreward]
  rcases Nat.eq_zero_or_pos R with hR0 | hRpos
  · -- nothing to split: the reader gives up with `-1`
    subst hR0
    simp
  · -- the reader's ceiling, computed on naturals
    have hnum : (voutValue tx.vout 1 - coin.out.nValue) * 100 + R - 1 =
        ((R * fee.toNat / 100 * 100 + R - 1 : Nat) : Int) := by
      have : 1 ≤ R * fee.toNat / 100 * 100 + R := by omega
      rw [hv1]
      push_cast [this]
      ring
    have hrem : (R : Int) * fee.toNat % 100 = ((R * fee.toNat % 100 : Nat) : Int) := by
      push_cast; rfl
    have hpos : (0 : CAmount) < R := Int.natCast_pos.mpr hRpos
    rw [if_neg (not_le.mpr hpos), hnum, Rounding.tdiv_natCast, hrem, Nat.cast_inj, Nat.cast_lt,
      Rounding.ceil_share_eq_iff _ hRpos]
    exact ⟨fun h => ⟨hpos, h⟩, fun h => h.2⟩

end Split

/-! ## The super staker's coinstake -/

/-- No MPoS window: the staker keeps the whole reward. -/
def soloParams : MPoSParams := ⟨0, 0, 1⟩

/-- A coinstake staking a coin of 1 satoshi for a reward of 1 satoshi at a
    50% fee: the staker's output carries the coin and no share, the
    delegate's the whole reward. -/
def tinyStake : CTransaction :=
  ⟨[⟨⟨1, 0⟩, []⟩], [⟨0, []⟩, ⟨1, []⟩, ⟨1, []⟩]⟩

def tinyCoin : Coin := ⟨⟨1, []⟩, false, false, ⟨0, by decide⟩⟩

end Revo
