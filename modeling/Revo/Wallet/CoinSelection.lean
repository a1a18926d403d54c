/-
  Revo.Wallet.CoinSelection

  `SelectCoinsBnB` of `wallet/coinselection.cpp`: the branch-and-bound
  search for a set of output groups whose selection amounts land in
  `[selection_target, selection_target + cost_of_change]` with the least
  waste.  The search is a depth-first walk of the binary tree of
  inclusions, the inclusion branch first, kept on the stack
  `curr_selection` (`BnBState`, the loop's locals); one pass of the `for`
  loop is `bnbStep`, and the loop itself `bnbLoop`, on `TOTAL_TRIES` fuel.

  `curr_selection` is held top first: its head is `curr_selection.back()`,
  and its length the index of the next group.  `utxo_pool.at(i)` is `poolAt`,
  which throws `std::out_of_range` past the end.  `std::sort` leaves equal
  amounts in an unspecified order; the model sorts with a stable insertion
  sort, and nothing proved about the search depends on the order.  The set
  of `CInputCoin`s the selected groups insert is the list of their outputs.
  Amounts are `Int`: sums of amounts below `MAX_MONEY` stay far from
  `int64_t`'s range.
-/

import Revo.Primitives.Transaction
import Revo.Lib.BoolTree
import Revo.Lib.Lists
import Mathlib

namespace Revo

namespace CoinSelection

variable {α : Type}

/-- `OutputGroup`, with the fields the selection reads; `α` is `CInputCoin`. -/
structure OutputGroup (α : Type) where
  /-- The UTXOs of the group. -/
  m_outputs : List α
  /-- Their total value. -/
  m_value : CAmount
  /-- Their value after the fee to spend them at the effective feerate. -/
  effective_value : CAmount
  /-- The fee to spend them at the effective feerate. -/
  fee : CAmount
  /-- The fee to spend them at the long-term feerate. -/
  long_term_fee : CAmount
  /-- Whether the fee is subtracted from the outputs. -/
  m_subtract_fee_outputs : Bool
  deriving DecidableEq, Repr

/-- `OutputGroup::GetSelectionAmount()`. -/
def OutputGroup.getSelectionAmount (g : OutputGroup α) : CAmount :=
  if g.m_subtract_fee_outputs then g.m_value else g.effective_value

/-- `TOTAL_TRIES`. -/
def TOTAL_TRIES : Nat := 100000

/-- `utxo_pool.at(i)`. -/
def poolAt (utxo_pool : List (OutputGroup α)) (i : Nat) : Except String (OutputGroup α) :=
  match utxo_pool[i]? with
  | some utxo => .ok utxo
  | none => .error "vector::_M_range_check"

/-- The locals of the depth-first loop of `SelectCoinsBnB`. -/
structure BnBState where
  curr_value : CAmount
  curr_available_value : CAmount
  curr_waste : CAmount
  /-- The inclusion decisions so far, the last one first. -/
  curr_selection : List Bool
  /-- The best selection found, in pool order. -/
  best_selection : List Bool
  best_waste : CAmount
  deriving DecidableEq, Repr

/-- The locals when the loop starts. -/
def initState (curr_available_value : CAmount) : BnBState where
  curr_value := 0
  curr_available_value := curr_available_value
  curr_waste := 0
  curr_selection := []
  best_selection := []
  best_waste := MAX_MONEY

/-- The third condition for a backtrack: the waste is already above the
    best, and fees are above long-term fees.  `utxo_pool.at(0)` is only read
    when the waste is above the best. -/
def wasteIncreasing (utxo_pool : List (OutputGroup α)) (s : BnBState) : Except String Bool :=
  if s.curr_waste > s.best_waste then do
    let utxo ← poolAt utxo_pool 0
    pure (decide (utxo.fee - utxo.long_term_fee > 0))
  else pure false

/-- The `while` loop of a backtrack: the excluded groups on top of the stack
    are popped, their amounts given back to `curr_available_value`. -/
def popExcluded (utxo_pool : List (OutputGroup α)) : List Bool → CAmount → Except String (List Bool × CAmount)
  | false :: curr_selection, curr_available_value => do
    let utxo ← poolAt utxo_pool curr_selection.length
    popExcluded utxo_pool curr_selection (curr_available_value + utxo.getSelectionAmount)
  | curr_selection, curr_available_value => pure (curr_selection, curr_available_value)

theorem popExcluded_false (utxo_pool : List (OutputGroup α)) (curr_selection : List Bool) (v : CAmount) :
    popExcluded utxo_pool (false :: curr_selection) v = (do
      let utxo ← poolAt utxo_pool curr_selection.length
      popExcluded utxo_pool curr_selection (v + utxo.getSelectionAmount)) := rfl

theorem popExcluded_nil (utxo_pool : List (OutputGroup α)) (v : CAmount) : popExcluded utxo_pool [] v = pure ([], v) :=
  rfl

theorem popExcluded_true (utxo_pool : List (OutputGroup α)) (curr_selection : List Bool) (v : CAmount) :
    popExcluded utxo_pool (true :: curr_selection) v = pure (true :: curr_selection, v) := rfl

/-- Backtracking: past the excluded groups, the last included one is
    excluded now; with none left the search is over (`false`: `break`). -/
def backtrackStep (utxo_pool : List (OutputGroup α)) (s : BnBState) : Except String (Bool × BnBState) := do
  let (curr_selection, curr_available_value) ← popExcluded utxo_pool s.curr_selection s.curr_available_value
  match curr_selection with
  | [] => pure (false, { s with curr_selection := [], curr_available_value := curr_available_value })
  | _ :: rest =>
    let utxo ← poolAt utxo_pool rest.length
    pure (true, { s with
      curr_selection := false :: rest
      curr_available_value := curr_available_value
      curr_value := s.curr_value - utxo.getSelectionAmount
      curr_waste := s.curr_waste - (utxo.fee - utxo.long_term_fee) })

/-- Whether the next group is skipped: the group before it was excluded and
    has the same amount and the same fee. -/
def sameAsExcluded (utxo_pool : List (OutputGroup α)) (utxo : OutputGroup α) : List Bool → Except String Bool
  | false :: rest => do
    let prev ← poolAt utxo_pool rest.length
    pure (decide (utxo.getSelectionAmount = prev.getSelectionAmount ∧ utxo.fee = prev.fee))
  | _ => pure false

/-- Moving forwards: the next group is taken out of `curr_available_value`
    and included, unless it is skipped. -/
def forwardStep (utxo_pool : List (OutputGroup α)) (s : BnBState) : Except String (Bool × BnBState) := do
  let utxo ← poolAt utxo_pool s.curr_selection.length
  let curr_available_value := s.curr_available_value - utxo.getSelectionAmount
  if ← sameAsExcluded utxo_pool utxo s.curr_selection then
    pure (true, { s with
      curr_available_value := curr_available_value
      curr_selection := false :: s.curr_selection })
  else
    pure (true, { s with
      curr_available_value := curr_available_value
      curr_selection := true :: s.curr_selection
      curr_value := s.curr_value + utxo.getSelectionAmount
      curr_waste := s.curr_waste + (utxo.fee - utxo.long_term_fee) })

/-- One pass of the depth-first loop; `false` for a `break`. -/
def bnbStep (utxo_pool : List (OutputGroup α)) (selection_target cost_of_change : CAmount) (s : BnBState) :
    Except String (Bool × BnBState) := do
  -- the conditions for starting a backtrack, `||` from left to right
  let backtrack ← if s.curr_value + s.curr_available_value < selection_target ∨
      s.curr_value > selection_target + cost_of_change then pure true else wasteIncreasing utxo_pool s
  if backtrack then backtrackStep utxo_pool s
  else if s.curr_value ≥ selection_target then
    -- within range: the excess counts as waste for the comparison, and is
    -- taken off again before backtracking
    let curr_waste := s.curr_waste + (s.curr_value - selection_target)
    if curr_waste ≤ s.best_waste then
      let s := { s with
        curr_waste := curr_waste
        best_selection := Lists.resize s.curr_selection.reverse utxo_pool.length false
        best_waste := curr_waste }
      if s.best_waste = 0 then pure (false, s)
      else backtrackStep utxo_pool { s with curr_waste := s.curr_waste - (s.curr_value - selection_target) }
    else backtrackStep utxo_pool { s with curr_waste := curr_waste - (s.curr_value - selection_target) }
  else forwardStep utxo_pool s

/-- The `for (size_t i = 0; i < TOTAL_TRIES; ++i)` loop: `true` when it ends
    by a `break`, `false` when the tries run out. -/
def bnbLoop (utxo_pool : List (OutputGroup α)) (selection_target cost_of_change : CAmount) :
    Nat → BnBState → Except String (Bool × BnBState)
  | 0, s => pure (false, s)
  | tries + 1, s => do
    let (next, s) ← bnbStep utxo_pool selection_target cost_of_change s
    if next then bnbLoop utxo_pool selection_target cost_of_change tries s else pure (true, s)

theorem bnbLoop_zero (utxo_pool : List (OutputGroup α)) (t c : CAmount) (s : BnBState) :
    bnbLoop utxo_pool t c 0 s = pure (false, s) := rfl

theorem bnbLoop_succ (utxo_pool : List (OutputGroup α)) (t c : CAmount) (tries : Nat) (s : BnBState) :
    bnbLoop utxo_pool t c (tries + 1) s = (do
      let (next, s) ← bnbStep utxo_pool t c s
      if next then bnbLoop utxo_pool t c tries s else pure (true, s)) := rfl

/-- `std::sort(utxo_pool.begin(), utxo_pool.end(), descending)`. -/
def sortDescending (utxo_pool : List (OutputGroup α)) : List (OutputGroup α) :=
  utxo_pool.insertionSort fun a b => b.getSelectionAmount ≤ a.getSelectionAmount

/-- `SelectCoinsBnB(utxo_pool, selection_target, cost_of_change, out_set, value_ret)`:
    `none` for `false`, and otherwise the groups selected, the coins they
    insert into `out_set`, and `value_ret`. -/
def selectCoinsBnB (utxo_pool : List (OutputGroup α)) (selection_target cost_of_change : CAmount) :
    Except String (Option (List (OutputGroup α) × List α × CAmount)) :=
  if utxo_pool.any fun utxo => decide (utxo.getSelectionAmount ≤ 0) then
    .error "assert(utxo.GetSelectionAmount() > 0)"
  else
    let curr_available_value := (utxo_pool.map OutputGroup.getSelectionAmount).sum
    if curr_available_value < selection_target then .ok none
    else do
      let utxo_pool := sortDescending utxo_pool
      let (_, s) ← bnbLoop utxo_pool selection_target cost_of_change TOTAL_TRIES (initState curr_available_value)
      -- the groups of the best selection, their coins and their value
      let selected := BoolTree.select utxo_pool s.best_selection
      pure (if s.best_selection = [] then none
        else some (selected, selected.flatMap OutputGroup.m_outputs, (selected.map OutputGroup.m_value).sum))

/-- The depth-first loop of `SelectCoinsBnB` ends by a `break`, before
    `TOTAL_TRIES` iterations. -/
def SearchEnds (utxo_pool : List (OutputGroup α)) (selection_target cost_of_change : CAmount) : Prop :=
  ∃ s, bnbLoop (sortDescending utxo_pool) selection_target cost_of_change TOTAL_TRIES
    (initState (utxo_pool.map OutputGroup.getSelectionAmount).sum) = .ok (true, s)

/-- The waste metric the search minimizes: the fees above the long-term fees
    of the inputs, plus the amount the selection exceeds the target. -/
def waste (selection_target : CAmount) (selected : List (OutputGroup α)) : CAmount :=
  (selected.map fun g => g.fee - g.long_term_fee).sum + ((selected.map OutputGroup.getSelectionAmount).sum - selection_target)

end CoinSelection

end Revo
