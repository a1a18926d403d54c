/-
  Revo.Validation.Supply

  The block reward schedule and the money supply it allows
  (`validation.cpp`).

    * `GetBlockSubsidy(nHeight)` is 21000 coins up to `nLastBigReward`, then
      21, 13, 8, 5, 3, 2 and 1 coins up to heights 1, 2, 4, 7, 12, 20 and 33
      million, and nothing after.
    * `GetSupply(nHeight)` is the supply up to `nHeight` in closed form: the
      genesis reward of 50 coins, and `previous_supply` and `previous_blocks`
      carried over every stage that ends below `nHeight`.
    * `ConnectBlock` keeps the chain's running `nMoneySupply` in `uint64_t`
      and rejects a block that takes it above `GetSupply` of its height.

  The source writes both functions as a chain of eight `if`s, one per stage.
  Each is modelled as a loop over its own table of stages, copied from its
  own body.  The `int` and `CAmount` operations of `GetSupply` are
  `Checked.checked`, so `getSupply` is `none` when one of them overflows.
-/

import Revo.Consensus.Params
import Revo.Lib.Checked
import Revo.Primitives.Transaction

namespace Revo

open Checked

/-! ## `GetBlockSubsidy` -/

/-- The stages of `GetBlockSubsidy`: the last height of each, and its
    reward in coins. -/
def blockSubsidyStages (params : ConsensusParams) : List (Int × Int) :=
  [(params.nLastBigReward, 21000), (1000000, 21), (2000000, 13), (4000000, 8), (7000000, 5),
    (12000000, 3), (20000000, 2), (33000000, 1)]

/-- The `if` chain of `GetBlockSubsidy` from a stage on. -/
def getBlockSubsidyLoop (nHeight : Int) : List (Int × Int) → CAmount
  | [] => 0 * COIN
  | (bound, reward) :: stages =>
    if nHeight ≤ bound then reward * COIN else getBlockSubsidyLoop nHeight stages

def getBlockSubsidy (nHeight : Int) (params : ConsensusParams) : CAmount :=
  getBlockSubsidyLoop nHeight (blockSubsidyStages params)

/-! ## `GetSupply` -/

/-- The stages of `GetSupply`: the height each runs to, and its reward in
    coins. -/
def supplyStages (params : ConsensusParams) : List (Int × Int) :=
  [(params.nLastBigReward, 21000), (1000000, 21), (2000000, 13), (4000000, 8), (7000000, 5),
    (12000000, 3), (20000000, 2), (33000000, 1)]

/-- `(height - previous_blocks) * reward * COIN`: an `int` subtraction and
    an `int` product, then a `CAmount` product. -/
def stageReward (height previous_blocks reward : Int) : Option CAmount := do
  let blocks ← checked 32 (height - previous_blocks)
  let coins ← checked 32 (blocks * reward)
  checked 64 (coins * COIN)

/-- The `if` chain of `GetSupply` from a stage on, with `previous_supply`
    and `previous_blocks` as they stand before it.  After the last stage the
    source adds it whole and returns `previous_supply`. -/
def getSupplyLoop (nHeight : Int) (previous_supply : CAmount) (previous_blocks : Int) :
    List (Int × Int) → Option CAmount
  | [] => some previous_supply
  | (bound, reward) :: stages =>
    if nHeight ≤ bound then do
      checked 64 (previous_supply + (← stageReward nHeight previous_blocks reward))
    else do
      let previous_supply ← checked 64 (previous_supply + (← stageReward bound previous_blocks reward))
      getSupplyLoop nHeight previous_supply bound stages

/-- `GetSupply(nHeight)`: the genesis reward, from height `0` on. -/
def getSupply (nHeight : Int) (params : ConsensusParams) : Option CAmount :=
  getSupplyLoop nHeight (50 * COIN) 0 (supplyStages params)

/-! ## The money-supply check of `ConnectBlock` -/

/-- `pindex->nMoneySupply = (pindex->pprev ? pindex->pprev->nMoneySupply : 0)
    + nValueOut - nValueIn`, in `uint64_t`. -/
def nextMoneySupply (prev : Nat) (nValueOut nValueIn : CAmount) : Nat :=
  ((prev + nValueOut - nValueIn) % 2 ^ 64).toNat

/-- The sanity check of a block at `nHeight` with supply `nMoneySupply`
    against `(uint64_t)GetSupply(nHeight)`; a chain that mines blocks on
    demand skips it. -/
def checkMoneySupply (mineBlocksOnDemand : Bool) (nMoneySupply : Nat) (nHeight : Int)
    (params : ConsensusParams) : Option (Except String Unit) :=
  if mineBlocksOnDemand then some (.ok ())
  else (getSupply nHeight params).map fun supply =>
    if nMoneySupply > (supply % 2 ^ 64).toNat then .error "incorrect-money-supply" else .ok ()

/-- Connecting `blocks` one after another from height `nHeight` on, each
    given by its `nValueOut` and `nValueIn`, as far as the money supply goes:
    the `nMoneySupply` of the last, or the reject reason of the first block
    that fails the check.  The genesis block is connected without its
    transactions and keeps the supply `0`. -/
def connectMoneySupply (mineBlocksOnDemand : Bool) (params : ConsensusParams) (nMoneySupply : Nat)
    (nHeight : Int) : List (CAmount × CAmount) → Option (Except String Nat)
  | [] => some (.ok nMoneySupply)
  | (nValueOut, nValueIn) :: blocks =>
    let nMoneySupply := nextMoneySupply nMoneySupply nValueOut nValueIn
    (checkMoneySupply mineBlocksOnDemand nMoneySupply nHeight params).bind fun
      | .error e => some (.error e)
      | .ok () => connectMoneySupply mineBlocksOnDemand params nMoneySupply (nHeight + 1) blocks

end Revo
