/-
  Revo.Wallet.CoinSelectionProofs

  What `SelectCoinsBnB` returns lands in the target window, and when its
  depth-first loop ends by a `break` it has missed no subset of the pool in
  the window and, with fees no lower than long-term fees, none of smaller
  waste.

  The search state is read against full masks of the pool (`Lib/BoolTree`):
  `curr_value`, `curr_waste` and `curr_available_value` are what the prefix
  on the stack selects and what is left after it (`Frame`), and every
  solution no longer ahead of the search (`Todo`) is `Covered` by the best
  selection (`Inv.covered`).  Each branch of a pass keeps this:

    * a backtrack drops the subtree of the prefix, so the subtree must be
      covered first: nothing in it reaches the window when the target is out
      of reach or already passed, and nothing in it beats the best when the
      waste is already above it (fees at least long-term fees);
    * within range the prefix is recorded, and every extension of it only
      adds waste;
    * a skipped inclusion loses only masks that take a group in place of an
      equal one excluded just before it, and the swapped mask, which the
      search has passed, has the same amount and waste.

  When the loop breaks with the stack empty, every solution is covered
  (`BoolTree.ext_of_todo_replicate`); when it breaks at waste 0, no
  solution has less.
-/

import Revo.Wallet.CoinSelection
import Revo.Lib.BoolTree
import Revo.Lib.Lists
import Mathlib

namespace Revo

namespace CoinSelection

open BoolTree

variable {α : Type}

/-- What a group pays above its long-term fee. -/
def surplus (g : OutputGroup α) : CAmount := g.fee - g.long_term_fee

/-- What the groups a mask marks add up to. -/
def maskSum (f : OutputGroup α → CAmount) (pool : List (OutputGroup α)) (m : List Bool) : CAmount :=
  ((select pool m).map f).sum

/-- The fee surplus of a pool: its positive surpluses. -/
def feeSurplus (pool : List (OutputGroup α)) : CAmount := (pool.map fun g => max (surplus g) 0).sum

-- ============================================================================
-- Sums over masks
-- ============================================================================

theorem maskSum_cons_true (f : OutputGroup α → CAmount) (g : OutputGroup α) (l : List (OutputGroup α)) (m : List Bool) :
    maskSum f (g :: l) (true :: m) = f g + maskSum f l m := by
  rw [maskSum, maskSum, select_cons_true, List.map_cons, List.sum_cons]

theorem maskSum_cons_false (f : OutputGroup α → CAmount) (g : OutputGroup α) (l : List (OutputGroup α)) (m : List Bool) :
    maskSum f (g :: l) (false :: m) = maskSum f l m := by
  rw [maskSum, maskSum, select_cons_false]

section MaskSums

variable (f : OutputGroup α → CAmount) (pool : List (OutputGroup α))

theorem maskSum_nil : maskSum f pool [] = 0 := by
  rw [maskSum, select_nil_right, List.map_nil, List.sum_nil]

/-- A mask cut in two: the first part over the pool, the second over the
    rest of it. -/
theorem maskSum_append {p : List Bool} (hp : p.length ≤ pool.length) (q : List Bool) :
    maskSum f pool (p ++ q) = maskSum f pool p + maskSum f (pool.drop p.length) q := by
  have hsplit := select_append (pool.take p.length) (pool.drop p.length) p q
    (by rw [List.length_take, Nat.min_eq_left hp])
  rw [List.take_append_drop, select_take] at hsplit
  rw [maskSum, maskSum, maskSum, hsplit, List.map_append, List.sum_append]

/-- One more decision on the stack: the next group, if it is included. -/
theorem maskSum_reverse_cons {stack : List Bool} (h : stack.length < pool.length) (b : Bool) :
    maskSum f pool (b :: stack).reverse = maskSum f pool stack.reverse + if b then f pool[stack.length] else 0 := by
  rw [List.reverse_cons, maskSum_append f pool (by rw [List.length_reverse]; exact h.le), List.length_reverse,
    List.drop_eq_getElem_cons h]
  cases b
  · rw [maskSum_cons_false, maskSum_nil, if_neg Bool.false_ne_true]
  · rw [maskSum_cons_true, maskSum_nil, add_zero, if_pos rfl]

theorem maskSum_append_replicate_false (p : List Bool) (k : Nat) :
    maskSum f pool (p ++ List.replicate k false) = maskSum f pool p := by
  rw [maskSum, maskSum, select_append_replicate_false]

/-- The excluded groups on top of the stack add nothing. -/
theorem maskSum_reverse_replicate_append (m : Nat) (stack : List Bool) :
    maskSum f pool (List.replicate m false ++ stack).reverse = maskSum f pool stack.reverse := by
  rw [List.reverse_append, List.reverse_replicate, maskSum_append_replicate_false]

/-- `best_selection.resize(utxo_pool.size())` adds only exclusions. -/
theorem maskSum_resize {p : List Bool} (hp : p.length ≤ pool.length) :
    maskSum f pool (Lists.resize p pool.length false) = maskSum f pool p := by
  rw [Lists.resize, List.take_of_length_le hp, maskSum_append_replicate_false]

/-- Two neighbours of equal weight: taking the second in place of the first
    weighs the same. -/
theorem maskSum_swap {p : List Bool} {i : Nat} (hp : p.length = i) (w : List Bool) (hi : i + 1 < pool.length)
    (hf : f pool[i] = f pool[i + 1]) :
    maskSum f pool (p ++ false :: true :: w) = maskSum f pool (p ++ true :: false :: w) := by
  subst hp
  rw [maskSum_append f pool (by omega), maskSum_append f pool (by omega),
    List.drop_eq_getElem_cons (by omega : p.length < pool.length), List.drop_eq_getElem_cons hi]
  simp only [maskSum_cons_false, maskSum_cons_true, hf]

/-- A full mask extending the prefix: the prefix's part and the rest's. -/
theorem maskSum_of_ext {stack x : List Bool} (hext : Ext stack x) (hlen : stack.length ≤ pool.length) :
    maskSum f pool x = maskSum f pool stack.reverse + maskSum f (pool.drop stack.length) (x.drop stack.length) := by
  conv_lhs => rw [eq_append_of_ext hext]
  rw [maskSum_append f pool (by rw [List.length_reverse]; exact hlen), List.length_reverse]

theorem maskSum_nonneg (hf : ∀ g ∈ pool, 0 ≤ f g) (m : List Bool) : 0 ≤ maskSum f pool m :=
  sum_select_nonneg f hf m

theorem maskSum_le (hf : ∀ g ∈ pool, 0 ≤ f g) (m : List Bool) : maskSum f pool m ≤ (pool.map f).sum :=
  sum_select_le f hf m

section Nonneg

variable {f pool} (hf : ∀ g ∈ pool, 0 ≤ f g) {stack x : List Bool} (hext : Ext stack x)
  (hlen : stack.length ≤ pool.length)
include hf hext hlen

/-- Nonnegative weights: extending a prefix only adds. -/
theorem maskSum_prefix_le : maskSum f pool stack.reverse ≤ maskSum f pool x := by
  rw [maskSum_of_ext f pool hext hlen]
  exact le_add_of_nonneg_right (maskSum_nonneg f _ (fun g hg => hf g (List.mem_of_mem_drop hg)) _)

/-- Nonnegative weights: an extension adds at most the rest of the pool. -/
theorem maskSum_le_prefix_add :
    maskSum f pool x ≤ maskSum f pool stack.reverse + ((pool.drop stack.length).map f).sum := by
  rw [maskSum_of_ext f pool hext hlen]
  exact add_le_add le_rfl (maskSum_le f _ (fun g hg => hf g (List.mem_of_mem_drop hg)) _)

end Nonneg

end MaskSums

/-- The surplus of a selection is at most the fee surplus of the pool. -/
theorem maskSum_surplus_le (pool : List (OutputGroup α)) (m : List Bool) : maskSum surplus pool m ≤ feeSurplus pool :=
  calc maskSum surplus pool m ≤ ((select pool m).map fun g => max (surplus g) 0).sum :=
        List.sum_le_sum fun _ _ => le_max_left _ _
    _ ≤ feeSurplus pool := sum_select_le _ (fun _ _ => le_max_right _ _) m

/-- Fee rates at least the long-term ones, and equal fees only for equal
    long-term fees: the ratio the skip of `SelectCoinsBnB` relies on. -/
structure FeesAtLeastLongTerm (pool : List (OutputGroup α)) : Prop where
  long_term_le : ∀ g ∈ pool, g.long_term_fee ≤ g.fee
  same_fee : ∀ g ∈ pool, ∀ g' ∈ pool, g.fee = g'.fee → g.long_term_fee = g'.long_term_fee

theorem FeesAtLeastLongTerm.surplus_nonneg {pool : List (OutputGroup α)} (h : FeesAtLeastLongTerm pool) :
    ∀ g ∈ pool, 0 ≤ surplus g :=
  fun g hg => sub_nonneg.mpr (h.long_term_le g hg)

/-- The amounts still available past the first `k` groups. -/
def available (pool : List (OutputGroup α)) (k : Nat) : CAmount :=
  ((pool.drop k).map OutputGroup.getSelectionAmount).sum

theorem available_eq_add {pool : List (OutputGroup α)} {k : Nat} (hk : k < pool.length) :
    available pool k = pool[k].getSelectionAmount + available pool (k + 1) := by
  rw [available, available, List.drop_eq_getElem_cons hk, List.map_cons, List.sum_cons]

theorem available_of_le {pool : List (OutputGroup α)} {k : Nat} (hk : pool.length ≤ k) : available pool k = 0 := by
  rw [available, List.drop_eq_nil_of_le hk, List.map_nil, List.sum_nil]

theorem poolAt_of_lt {pool : List (OutputGroup α)} {i : Nat} (h : i < pool.length) : poolAt pool i = .ok pool[i] := by
  rw [poolAt, List.getElem?_eq_getElem h]

-- ============================================================================
-- The search invariant
-- ============================================================================

section Search

variable (pool : List (OutputGroup α)) (T coc : CAmount)

/-- A full mask whose groups land in the window. -/
def Solution (x : List Bool) : Prop :=
  T ≤ maskSum OutputGroup.getSelectionAmount pool x ∧ maskSum OutputGroup.getSelectionAmount pool x ≤ T + coc

/-- The waste of the groups a mask selects. -/
def maskWaste (x : List Bool) : CAmount :=
  maskSum surplus pool x + (maskSum OutputGroup.getSelectionAmount pool x - T)

theorem waste_select (x : List Bool) : waste T (select pool x) = maskWaste pool T x := rfl

/-- `best_selection`: none yet, with `best_waste` still `MAX_MONEY`, or a full
    mask in the window with its waste. -/
def BestOk (s : BnBState) : Prop :=
  (s.best_selection = [] → s.best_waste = MAX_MONEY) ∧
    (s.best_selection ≠ [] → s.best_selection.length = pool.length ∧ Solution pool T coc s.best_selection ∧
      s.best_waste = maskWaste pool T s.best_selection)

/-- The running sums are what the prefix on the stack selects and what is
    left after it. -/
structure Frame (s : BnBState) : Prop where
  length_le : s.curr_selection.length ≤ pool.length
  value_eq : s.curr_value = maskSum OutputGroup.getSelectionAmount pool s.curr_selection.reverse
  available_eq : s.curr_available_value = available pool s.curr_selection.length
  waste_eq : s.curr_waste = maskSum surplus pool s.curr_selection.reverse
  best : BestOk pool T coc s

/-- A solution the best selection accounts for: there is one, and, with fees
    at least the long-term fees, it wastes no more. -/
def Covered (s : BnBState) (x : List Bool) : Prop :=
  s.best_selection ≠ [] ∧ (FeesAtLeastLongTerm pool → s.best_waste ≤ maskWaste pool T x)

/-- Every solution with `P` is covered, as long as the waste of a solution
    stays below `MAX_MONEY`. -/
def Covers (P : List Bool → Prop) (s : BnBState) : Prop :=
  feeSurplus pool + coc ≤ MAX_MONEY →
    ∀ x, x.length = pool.length → Solution pool T coc x → P x → Covered pool T s x

/-- The loop invariant: the frame, and every solution the search has passed
    is covered. -/
structure Inv (s : BnBState) : Prop where
  frame : Frame pool T coc s
  covered : Covers pool T coc (fun x => ¬Todo s.curr_selection x) s

/-- After a `break`: every solution is covered. -/
structure Done (s : BnBState) : Prop where
  best : BestOk pool T coc s
  covered : Covers pool T coc (fun _ => True) s

/-- What one pass leaves: the invariant to go on, or the search done. -/
def Post : Bool × BnBState → Prop
  | (true, s) => Inv pool T coc s
  | (false, s) => Done pool T coc s

variable {pool T coc}

theorem Covered.mono {s s' : BnBState} {x : List Bool} (h : Covered pool T s x) (hne : s'.best_selection ≠ [])
    (hle : s'.best_waste ≤ s.best_waste) : Covered pool T s' x :=
  ⟨hne, fun hfees => le_trans hle (h.2 hfees)⟩

/-- The frame only reads the running sums, the stack and the best selection. -/
theorem Frame.of_eq {s s' : BnBState} (hf : Frame pool T coc s) (hb : BestOk pool T coc s')
    (hsel : s'.curr_selection = s.curr_selection) (hvalue : s'.curr_value = s.curr_value)
    (havail : s'.curr_available_value = s.curr_available_value) (hwaste : s'.curr_waste = s.curr_waste) :
    Frame pool T coc s' where
  length_le := hsel ▸ hf.length_le
  value_eq := by rw [hvalue, hsel, hf.value_eq]
  available_eq := by rw [havail, hsel, hf.available_eq]
  waste_eq := by rw [hwaste, hsel, hf.waste_eq]
  best := hb

-- ----------------------------------------------------------------------------
-- Backtracking
-- ----------------------------------------------------------------------------

variable (pool) in
theorem popExcluded_top {rest : List Bool} (hrest : rest = [] ∨ ∃ r, rest = true :: r) (v : CAmount) :
    popExcluded pool rest v = .ok (rest, v) := by
  rcases hrest with rfl | ⟨r, rfl⟩
  · exact popExcluded_nil pool v
  · exact popExcluded_true pool r v

variable (pool) in
/-- The `while` loop pops the `m` excluded groups on top and gives their
    amounts back. -/
theorem popExcluded_replicate {rest : List Bool} (hrest : rest = [] ∨ ∃ r, rest = true :: r) :
    ∀ m : Nat, m + rest.length ≤ pool.length →
      popExcluded pool (List.replicate m false ++ rest) (available pool (m + rest.length)) =
        .ok (rest, available pool rest.length)
  | 0, _ => by
    rw [List.replicate_zero, List.nil_append, Nat.zero_add]
    exact popExcluded_top pool hrest _
  | m + 1, hm => by
    have hlt : m + rest.length < pool.length := by omega
    have hback : available pool (m + 1 + rest.length) + pool[m + rest.length].getSelectionAmount =
        available pool (m + rest.length) := by
      rw [available_eq_add hlt, Nat.add_right_comm m 1]
      exact add_comm _ _
    rw [List.replicate_succ, List.cons_append, popExcluded_false, List.length_append, List.length_replicate,
      poolAt_of_lt hlt]
    dsimp only [bind, Except.bind]
    rw [hback]
    exact popExcluded_replicate hrest m (by omega)

/-- A backtrack that finds no included group left ends the search with every
    solution covered, given those in the subtree of the stack. -/
theorem done_of_backtrack_empty {s : BnBState} {m : Nat} (hf : Frame pool T coc s)
    (hsel : s.curr_selection = List.replicate m false) (hinv : Covers pool T coc (fun x => ¬Todo s.curr_selection x) s)
    (hsub : Covers pool T coc (Ext s.curr_selection) s) (v : CAmount) :
    Done pool T coc { s with curr_selection := [], curr_available_value := v } where
  best := hf.best
  covered := by
    intro hmax x hx hsol _
    by_cases htodo : Todo s.curr_selection x
    · -- still ahead with only exclusions on the stack: in its subtree
      have hm : m ≤ x.length := by
        have := hf.length_le
        rw [hsel, List.length_replicate] at this
        omega
      rw [hsel] at htodo
      exact hsub hmax x hx hsol (hsel ▸ ext_of_todo_replicate x m hm htodo)
    · exact hinv hmax x hx hsol htodo

/-- A backtrack that excludes the last included group keeps the invariant,
    given the solutions in the subtree of the stack. -/
theorem inv_of_backtrack {s : BnBState} {m : Nat} {r : List Bool} (hf : Frame pool T coc s)
    (hsel : s.curr_selection = List.replicate m false ++ true :: r)
    (hinv : Covers pool T coc (fun x => ¬Todo s.curr_selection x) s) (hsub : Covers pool T coc (Ext s.curr_selection) s)
    (hr : r.length < pool.length) :
    Inv pool T coc { s with
      curr_selection := false :: r
      curr_available_value := available pool (r.length + 1)
      curr_value := s.curr_value - pool[r.length].getSelectionAmount
      curr_waste := s.curr_waste - (pool[r.length].fee - pool[r.length].long_term_fee) } where
  frame := {
    length_le := by
      have := hf.length_le
      rw [hsel, List.length_append, List.length_cons] at this
      rw [List.length_cons]
      omega
    value_eq := by
      dsimp only
      rw [hf.value_eq, hsel, maskSum_reverse_replicate_append, maskSum_reverse_cons _ _ hr,
        maskSum_reverse_cons _ _ hr, if_pos rfl, if_neg Bool.false_ne_true, add_sub_cancel_right, add_zero]
    available_eq := rfl
    waste_eq := by
      dsimp only
      rw [hf.waste_eq, hsel, maskSum_reverse_replicate_append, maskSum_reverse_cons _ _ hr,
        maskSum_reverse_cons _ _ hr, if_pos rfl, if_neg Bool.false_ne_true]
      simp only [surplus, add_sub_cancel_right, add_zero]
    best := hf.best }
  covered := by
    intro hmax x hx hsol hnot
    have hlen : m + 1 + r.length ≤ x.length := by
      have := hf.length_le
      rw [hsel, List.length_append, List.length_replicate, List.length_cons] at this
      omega
    rcases not_todo_or_ext_of_backtrack r x m hlen hnot with h | h
    · exact hinv hmax x hx hsol (hsel ▸ h)
    · exact hsub hmax x hx hsol (hsel ▸ h)

/-- `backtrack`: what it leaves satisfies `Post`, once the subtree of the
    stack is covered. -/
theorem backtrackStep_post {s : BnBState} (hf : Frame pool T coc s)
    (hinv : Covers pool T coc (fun x => ¬Todo s.curr_selection x) s) (hsub : Covers pool T coc (Ext s.curr_selection) s) :
    ∃ r, backtrackStep pool s = .ok r ∧ Post pool T coc r := by
  obtain ⟨m, rest, hsel, hrest⟩ := exists_replicate_false_append s.curr_selection
  have hlen : m + rest.length ≤ pool.length := by
    have := hf.length_le
    rwa [hsel, List.length_append, List.length_replicate] at this
  have havail : s.curr_available_value = available pool (m + rest.length) := by
    rw [hf.available_eq, hsel, List.length_append, List.length_replicate]
  rw [backtrackStep, hsel, havail, popExcluded_replicate pool hrest m hlen]
  dsimp only [bind, Except.bind]
  rcases hrest with rfl | ⟨r, rfl⟩
  · exact ⟨_, rfl, done_of_backtrack_empty hf (by rw [hsel, List.append_nil]) hinv hsub _⟩
  · have hr : r.length < pool.length := by
      rw [List.length_cons] at hlen
      omega
    dsimp only
    rw [poolAt_of_lt hr]
    exact ⟨_, rfl, inv_of_backtrack hf hsel hinv hsub hr⟩

-- ----------------------------------------------------------------------------
-- Moving forwards
-- ----------------------------------------------------------------------------

variable (pool) in
/-- The skip test reads the group below the top only when it was excluded,
    and says yes only for one of the same amount and fee. -/
theorem sameAsExcluded_spec (utxo : OutputGroup α) {stack : List Bool} (hlen : stack.length ≤ pool.length) :
    ∃ skip, sameAsExcluded pool utxo stack = .ok skip ∧
      (skip = true → ∃ rest, ∃ hr : rest.length < pool.length, stack = false :: rest ∧
        utxo.getSelectionAmount = pool[rest.length].getSelectionAmount ∧ utxo.fee = pool[rest.length].fee) :=
  match stack, hlen with
  | [], _ => ⟨false, rfl, fun h => nomatch h⟩
  | true :: _, _ => ⟨false, rfl, fun h => nomatch h⟩
  | false :: rest, hlen => by
    have hr : rest.length < pool.length := by
      rw [List.length_cons] at hlen
      omega
    rw [sameAsExcluded, poolAt_of_lt hr]
    exact ⟨_, rfl, fun h => ⟨rest, hr, rfl, of_decide_eq_true h⟩⟩

/-- Including the next group keeps the invariant: nothing the search has
    passed changes. -/
theorem inv_of_include {s : BnBState} (hinv : Inv pool T coc s) (hk : s.curr_selection.length < pool.length) :
    Inv pool T coc { s with
      curr_available_value := s.curr_available_value - pool[s.curr_selection.length].getSelectionAmount
      curr_selection := true :: s.curr_selection
      curr_value := s.curr_value + pool[s.curr_selection.length].getSelectionAmount
      curr_waste := s.curr_waste + (pool[s.curr_selection.length].fee - pool[s.curr_selection.length].long_term_fee) } where
  frame := {
    length_le := hk
    value_eq := by
      dsimp only
      rw [maskSum_reverse_cons _ _ hk, if_pos rfl, hinv.frame.value_eq]
    available_eq := by
      dsimp only
      rw [hinv.frame.available_eq, available_eq_add hk, add_sub_cancel_left]
      rfl
    waste_eq := by
      dsimp only
      rw [maskSum_reverse_cons _ _ hk, if_pos rfl, hinv.frame.waste_eq]
      rfl
    best := hinv.frame.best }
  covered := hinv.covered

/-- Skipping a group equal to the excluded one below it keeps the invariant:
    a solution lost with it takes the group in place of its twin, and the
    search has passed the mask that takes the twin. -/
theorem inv_of_skip {s : BnBState} {rest : List Bool} (hinv : Inv pool T coc s) (hsel : s.curr_selection = false :: rest)
    (hk : rest.length + 1 < pool.length)
    (hamt : pool[rest.length + 1].getSelectionAmount = pool[rest.length].getSelectionAmount)
    (hfee : pool[rest.length + 1].fee = pool[rest.length].fee) :
    Inv pool T coc { s with
      curr_available_value := s.curr_available_value - pool[rest.length + 1].getSelectionAmount
      curr_selection := false :: s.curr_selection } where
  frame := {
    length_le := by
      dsimp only
      rw [hsel]
      exact hk
    value_eq := by
      dsimp only
      rw [maskSum_reverse_cons _ _ (by rw [hsel]; exact hk), if_neg Bool.false_ne_true, add_zero]
      exact hinv.frame.value_eq
    available_eq := by
      dsimp only
      rw [hinv.frame.available_eq, hsel]
      simp only [List.length_cons]
      rw [available_eq_add hk, add_sub_cancel_left]
    waste_eq := by
      dsimp only
      rw [maskSum_reverse_cons _ _ (by rw [hsel]; exact hk), if_neg Bool.false_ne_true, add_zero]
      exact hinv.frame.waste_eq
    best := hinv.frame.best }
  covered := by
    intro hmax x hx hsol hnot
    by_cases htodo : Todo s.curr_selection x
    · -- `x` takes the skipped group and excludes its twin below
      have hext : Ext (true :: false :: rest) x := by
        rw [← hsel]
        exact Classical.byContradiction fun h => hnot ⟨htodo, h⟩
      have hx_eq := eq_append_of_ext hext
      simp only [List.reverse_cons, List.length_cons, List.append_assoc, List.cons_append, List.nil_append] at hx_eq
      -- the mask with the twin taken instead, which the search has passed
      let x' := rest.reverse ++ true :: false :: x.drop (rest.length + 1 + 1)
      have hx' : Ext (true :: rest) x' := by
        have := ext_reverse_append (true :: rest) (false :: x.drop (rest.length + 1 + 1))
        simpa only [List.reverse_cons, List.append_assoc, List.cons_append, List.nil_append] using this
      have hswap : ∀ f : OutputGroup α → CAmount, f pool[rest.length] = f pool[rest.length + 1] →
          maskSum f pool x = maskSum f pool x' := fun f hf => by
        rw [hx_eq]
        exact maskSum_swap f pool List.length_reverse _ hk hf
      have hamt' := hswap OutputGroup.getSelectionAmount hamt.symm
      have hlen' : x'.length = pool.length := by
        rw [← hx]
        conv_rhs => rw [hx_eq]
        simp only [x', List.length_append, List.length_cons]
      have hsol' : Solution pool T coc x' := by
        rw [Solution, ← hamt']
        exact hsol
      have hcov := hinv.covered hmax x' hlen' hsol' (by rw [hsel]; exact fun h => h.2 hx')
      refine ⟨hcov.1, fun hfees => ?_⟩
      have hsurplus := hswap surplus (by
        simp only [surplus, hfee, hfees.same_fee _ (List.getElem_mem _) _ (List.getElem_mem _) hfee.symm])
      rw [maskWaste, hsurplus, hamt']
      exact hcov.2 hfees
    · exact hinv.covered hmax x hx hsol htodo

/-- `Moving forwards`: what it leaves keeps the invariant. -/
theorem forwardStep_post {s : BnBState} (hinv : Inv pool T coc s) (hk : s.curr_selection.length < pool.length) :
    ∃ r, forwardStep pool s = .ok r ∧ Post pool T coc r := by
  obtain ⟨cv, cav, cw, sel, best, bw⟩ := s
  dsimp only at hk
  obtain ⟨skip, hskip, hsame⟩ := sameAsExcluded_spec pool pool[sel.length] hk.le
  rw [forwardStep]
  dsimp only
  rw [poolAt_of_lt hk]
  dsimp only [bind, Except.bind]
  rw [hskip]
  dsimp only [bind, Except.bind]
  cases skip
  · exact ⟨_, rfl, inv_of_include hinv hk⟩
  · obtain ⟨rest, hr, rfl, hamt, hfee⟩ := hsame rfl
    exact ⟨_, rfl, inv_of_skip hinv rfl hk hamt hfee⟩

-- ----------------------------------------------------------------------------
-- The prunings and the solutions within range
-- ----------------------------------------------------------------------------

theorem curr_waste_le {s : BnBState} (hf : Frame pool T coc s) : s.curr_waste ≤ feeSurplus pool := by
  rw [hf.waste_eq]
  exact maskSum_surplus_le pool _

theorem best_ne_nil_of_lt {s : BnBState} (hb : BestOk pool T coc s) (h : s.best_waste < MAX_MONEY) :
    s.best_selection ≠ [] := fun hnil => by
  rw [hb.1 hnil] at h
  exact lt_irrefl _ h

section Positive

variable (hpos : ∀ g ∈ pool, 0 < g.getSelectionAmount)
include hpos

theorem value_le_of_ext {s : BnBState} (hf : Frame pool T coc s) {x : List Bool} (hext : Ext s.curr_selection x) :
    s.curr_value ≤ maskSum OutputGroup.getSelectionAmount pool x := by
  rw [hf.value_eq]
  exact maskSum_prefix_le (fun g hg => (hpos g hg).le) hext hf.length_le

/-- Out of reach: no extension of the stack gets to the target. -/
theorem covers_of_unreachable {s : BnBState} (hf : Frame pool T coc s)
    (h : s.curr_value + s.curr_available_value < T) : Covers pool T coc (Ext s.curr_selection) s := by
  intro _ x _ hsol hext
  have hle : maskSum OutputGroup.getSelectionAmount pool x ≤ s.curr_value + s.curr_available_value := by
    rw [hf.value_eq, hf.available_eq]
    exact maskSum_le_prefix_add (fun g hg => (hpos g hg).le) hext hf.length_le
  exact absurd (lt_of_le_of_lt (le_trans hsol.1 hle) h) (lt_irrefl T)

/-- Past the window: every extension of the stack stays past it. -/
theorem covers_of_overshoot {s : BnBState} (hf : Frame pool T coc s) (h : s.curr_value > T + coc) :
    Covers pool T coc (Ext s.curr_selection) s := by
  intro _ x _ hsol hext
  exact absurd (lt_of_lt_of_le h (le_trans (value_le_of_ext hpos hf hext) hsol.2)) (lt_irrefl _)

end Positive

/-- The waste already above the best: with fees at least the long-term fees
    no extension wastes less. -/
theorem covers_of_waste_gt (hc : 0 ≤ coc) {s : BnBState} (hf : Frame pool T coc s)
    (h : s.curr_waste > s.best_waste) : Covers pool T coc (Ext s.curr_selection) s := by
  intro hmax x _ hsol hext
  refine ⟨best_ne_nil_of_lt hf.best ?_, fun hfees => ?_⟩
  · have := curr_waste_le hf
    linarith
  · have hw : s.curr_waste ≤ maskSum surplus pool x := by
      rw [hf.waste_eq]
      exact maskSum_prefix_le hfees.surplus_nonneg hext hf.length_le
    rw [maskWaste]
    linarith [hsol.1]

/-- Within range, every extension wastes at least the stack with its excess. -/
theorem excess_le_maskWaste (hpos : ∀ g ∈ pool, 0 < g.getSelectionAmount) {s : BnBState} (hf : Frame pool T coc s)
    (hfees : FeesAtLeastLongTerm pool) {x : List Bool} (hext : Ext s.curr_selection x) :
    s.curr_waste + (s.curr_value - T) ≤ maskWaste pool T x := by
  have hw : s.curr_waste ≤ maskSum surplus pool x := by
    rw [hf.waste_eq]
    exact maskSum_prefix_le hfees.surplus_nonneg hext hf.length_le
  have hv := value_le_of_ext hpos hf hext
  rw [maskWaste]
  linarith

theorem resize_ne_nil (hne : pool ≠ []) (p : List Bool) : Lists.resize p pool.length false ≠ [] := fun h => by
  have := congrArg List.length h
  rw [Lists.length_resize, List.length_nil] at this
  exact (List.length_pos_of_ne_nil hne).ne' this

/-- Recording the stack within range as the best selection. -/
theorem bestOk_record (hne : pool ≠ []) {s : BnBState} (hf : Frame pool T coc s) (hin : T ≤ s.curr_value)
    (hup : s.curr_value ≤ T + coc) :
    BestOk pool T coc { s with
      curr_waste := s.curr_waste + (s.curr_value - T)
      best_selection := Lists.resize s.curr_selection.reverse pool.length false
      best_waste := s.curr_waste + (s.curr_value - T) } := by
  have hlen : s.curr_selection.reverse.length ≤ pool.length := by
    rw [List.length_reverse]
    exact hf.length_le
  have hv : maskSum OutputGroup.getSelectionAmount pool (Lists.resize s.curr_selection.reverse pool.length false) =
      s.curr_value := by
    rw [maskSum_resize _ _ hlen, hf.value_eq]
  have hw : maskSum surplus pool (Lists.resize s.curr_selection.reverse pool.length false) = s.curr_waste := by
    rw [maskSum_resize _ _ hlen, hf.waste_eq]
  refine ⟨fun h => absurd h (resize_ne_nil hne _), fun _ => ⟨Lists.length_resize _ _ _, ?_, ?_⟩⟩
  · dsimp only
    rw [Solution, hv]
    exact ⟨hin, hup⟩
  · dsimp only
    rw [maskWaste, hv, hw]

/-- `best_waste == 0`: no solution wastes less when fees are at least the
    long-term fees, so the `break` leaves every solution covered. -/
theorem done_of_zero (hne : pool ≠ []) {s : BnBState} (hf : Frame pool T coc s) (hin : T ≤ s.curr_value)
    (hup : s.curr_value ≤ T + coc) (hz : s.curr_waste + (s.curr_value - T) = 0) :
    Done pool T coc { s with
      curr_waste := s.curr_waste + (s.curr_value - T)
      best_selection := Lists.resize s.curr_selection.reverse pool.length false
      best_waste := s.curr_waste + (s.curr_value - T) } where
  best := bestOk_record hne hf hin hup
  covered := by
    intro _ x _ hsol _
    refine ⟨resize_ne_nil hne _, fun hfees => ?_⟩
    dsimp only
    rw [hz, maskWaste]
    have := maskSum_nonneg surplus pool hfees.surplus_nonneg x
    linarith [hsol.1]

-- ----------------------------------------------------------------------------
-- One pass
-- ----------------------------------------------------------------------------

/-- The third condition for a backtrack reads `utxo_pool.at(0)` only when
    the waste is above the best. -/
theorem wasteIncreasing_spec (hne : pool ≠ []) (s : BnBState) :
    ∃ flag, wasteIncreasing pool s = .ok flag ∧ (flag = true → s.curr_waste > s.best_waste) := by
  rw [wasteIncreasing]
  by_cases hw : s.curr_waste > s.best_waste
  · rw [if_pos hw, poolAt_of_lt (List.length_pos_of_ne_nil hne)]
    exact ⟨_, rfl, fun _ => hw⟩
  · rw [if_neg hw]
    exact ⟨false, rfl, fun h => (nomatch h)⟩

/-- The branch within range: record the stack if it wastes no more than the
    best, `break` at waste 0, and backtrack otherwise. -/
theorem inRange_post (hne : pool ≠ []) (hpos : ∀ g ∈ pool, 0 < g.getSelectionAmount) {s : BnBState}
    (hinv : Inv pool T coc s) (hin : T ≤ s.curr_value) (hup : s.curr_value ≤ T + coc) :
    ∃ r, (if s.curr_waste + (s.curr_value - T) ≤ s.best_waste then
        if s.curr_waste + (s.curr_value - T) = 0 then
          pure (false, { s with
            curr_waste := s.curr_waste + (s.curr_value - T)
            best_selection := Lists.resize s.curr_selection.reverse pool.length false
            best_waste := s.curr_waste + (s.curr_value - T) })
        else backtrackStep pool { s with
          curr_waste := s.curr_waste + (s.curr_value - T) - (s.curr_value - T)
          best_selection := Lists.resize s.curr_selection.reverse pool.length false
          best_waste := s.curr_waste + (s.curr_value - T) }
      else backtrackStep pool { s with curr_waste := s.curr_waste + (s.curr_value - T) - (s.curr_value - T) }) =
        .ok r ∧ Post pool T coc r := by
  have hf := hinv.frame
  by_cases hrec : s.curr_waste + (s.curr_value - T) ≤ s.best_waste
  · rw [if_pos hrec]
    by_cases hz : s.curr_waste + (s.curr_value - T) = 0
    · rw [if_pos hz]
      exact ⟨_, rfl, done_of_zero hne hf hin hup hz⟩
    · -- recorded: what the search passed is covered by a better best, the
      -- subtree by the stack just recorded
      rw [if_neg hz]
      exact backtrackStep_post (hf.of_eq (bestOk_record hne hf hin hup) rfl rfl rfl (add_sub_cancel_right _ _))
        (fun hmax x hx hsol h => (hinv.covered hmax x hx hsol h).mono (resize_ne_nil hne _) hrec)
        (fun _ x _ _ hext => ⟨resize_ne_nil hne _, fun hfees => excess_le_maskWaste hpos hf hfees hext⟩)
  · -- not recorded: the best already wastes less than the whole subtree
    rw [if_neg hrec]
    exact backtrackStep_post (hf.of_eq hf.best rfl rfl rfl (add_sub_cancel_right _ _)) hinv.covered
      (fun hmax x _ _ hext => ⟨best_ne_nil_of_lt hf.best (by
          have := curr_waste_le hf
          linarith [not_le.mp hrec]),
        fun hfees => le_of_lt (lt_of_lt_of_le (not_le.mp hrec) (excess_le_maskWaste hpos hf hfees hext))⟩)

/-- One pass of the loop from the invariant: the invariant again, or after
    a `break` every solution covered; `SelectCoinsBnB` never reads past the
    pool. -/
theorem bnbStep_post (hne : pool ≠ []) (hpos : ∀ g ∈ pool, 0 < g.getSelectionAmount) (hc : 0 ≤ coc)
    {s : BnBState} (hinv : Inv pool T coc s) : ∃ r, bnbStep pool T coc s = .ok r ∧ Post pool T coc r := by
  have hf := hinv.frame
  rw [bnbStep]
  by_cases hcond : s.curr_value + s.curr_available_value < T ∨ s.curr_value > T + coc
  · -- the target out of reach, or passed
    rw [if_pos hcond]
    dsimp only [bind, Except.bind, pure, Except.pure]
    rw [if_pos rfl]
    rcases hcond with hreach | hover
    · exact backtrackStep_post hf hinv.covered (covers_of_unreachable hpos hf hreach)
    · exact backtrackStep_post hf hinv.covered (covers_of_overshoot hpos hf hover)
  · obtain ⟨hreach, hover⟩ := not_or.mp hcond
    obtain ⟨flag, hw, hflag⟩ := wasteIncreasing_spec hne s
    rw [if_neg hcond, hw]
    dsimp only [bind, Except.bind]
    cases flag
    · rw [if_neg Bool.false_ne_true]
      by_cases hin : s.curr_value ≥ T
      · rw [if_pos hin]
        exact inRange_post hne hpos hinv hin (not_lt.mp hover)
      · -- moving forwards: something is left to take
        rw [if_neg hin]
        have hk : s.curr_selection.length < pool.length := by
          by_contra hk
          have havail := available_of_le (not_lt.mp hk)
          rw [← hf.available_eq] at havail
          linarith [not_lt.mp hreach, not_le.mp hin]
        exact forwardStep_post hinv hk
    · rw [if_pos rfl]
      exact backtrackStep_post hf hinv.covered (covers_of_waste_gt hc hf (hflag rfl))

-- ----------------------------------------------------------------------------
-- The loop
-- ----------------------------------------------------------------------------

/-- The locals before the first pass: nothing decided, the whole pool
    available, nothing passed. -/
theorem inv_initState : Inv pool T coc (initState (available pool 0)) where
  frame := {
    length_le := Nat.zero_le _
    value_eq := (maskSum_nil _ _).symm
    available_eq := rfl
    waste_eq := (maskSum_nil _ _).symm
    best := ⟨fun _ => rfl, fun h => absurd rfl h⟩ }
  covered := fun _ _ _ _ h => absurd trivial h

/-- The loop from the invariant, by induction on the tries left: it never
    fails, what it leaves has a valid best selection, and after a `break`
    every solution is covered. -/
theorem bnbLoop_post (hne : pool ≠ []) (hpos : ∀ g ∈ pool, 0 < g.getSelectionAmount) (hc : 0 ≤ coc) :
    ∀ (tries : Nat) (s : BnBState), Inv pool T coc s →
      ∃ b s', bnbLoop pool T coc tries s = .ok (b, s') ∧ BestOk pool T coc s' ∧ (b = true → Done pool T coc s')
  | 0, s, hinv => ⟨false, s, bnbLoop_zero pool T coc s, hinv.frame.best, fun h => (nomatch h)⟩
  | tries + 1, s, hinv => by
    obtain ⟨⟨next, s'⟩, hstep, hpost⟩ := bnbStep_post hne hpos hc hinv
    rw [bnbLoop_succ, hstep]
    dsimp only [bind, Except.bind]
    cases next
    · have hdone : Done pool T coc s' := hpost
      exact ⟨true, s', rfl, hdone.best, fun _ => hdone⟩
    · rw [if_pos rfl]
      exact bnbLoop_post hne hpos hc tries s' hpost

end Search

-- ============================================================================
-- SelectCoinsBnB
-- ============================================================================

/-- The selection amounts of the groups land in the window. -/
def InWindow (selection_target cost_of_change : CAmount) (selected : List (OutputGroup α)) : Prop :=
  selection_target ≤ (selected.map OutputGroup.getSelectionAmount).sum ∧
    (selected.map OutputGroup.getSelectionAmount).sum ≤ selection_target + cost_of_change

instance (selection_target cost_of_change : CAmount) (selected : List (OutputGroup α)) :
    Decidable (InWindow selection_target cost_of_change selected) :=
  inferInstanceAs (Decidable (selection_target ≤ (selected.map OutputGroup.getSelectionAmount).sum ∧
    (selected.map OutputGroup.getSelectionAmount).sum ≤ selection_target + cost_of_change))

theorem perm_sortDescending (utxo_pool : List (OutputGroup α)) : (sortDescending utxo_pool).Perm utxo_pool :=
  List.perm_insertionSort _ _

theorem InWindow.of_perm {T coc : CAmount} {S S' : List (OutputGroup α)} (h : S.Perm S') (hw : InWindow T coc S) :
    InWindow T coc S' := by
  rw [InWindow, ← (h.map _).sum_eq]
  exact hw

theorem waste_perm (T : CAmount) {S S' : List (OutputGroup α)} (h : S.Perm S') : waste T S = waste T S' := by
  rw [waste, waste, (h.map _).sum_eq, (h.map _).sum_eq]

theorem feeSurplus_perm {S S' : List (OutputGroup α)} (h : S.Perm S') : feeSurplus S = feeSurplus S' := by
  rw [feeSurplus, feeSurplus, (h.map _).sum_eq]

theorem FeesAtLeastLongTerm.of_perm {S S' : List (OutputGroup α)} (h : S.Perm S') (hfees : FeesAtLeastLongTerm S) :
    FeesAtLeastLongTerm S' where
  long_term_le g hg := hfees.long_term_le g (h.mem_iff.mpr hg)
  same_fee g hg g' hg' := hfees.same_fee g (h.mem_iff.mpr hg) g' (h.mem_iff.mpr hg')

/-- A subset of the pool is what some full mask of the sorted pool selects,
    up to order. -/
theorem exists_mask_of_subperm {utxo_pool S : List (OutputGroup α)} (hS : S.Subperm utxo_pool) :
    ∃ x, x.length = (sortDescending utxo_pool).length ∧ (select (sortDescending utxo_pool) x).Perm S := by
  obtain ⟨S', hperm, hsub⟩ := hS.trans (perm_sortDescending utxo_pool).symm.subperm
  obtain ⟨x, hx, hsel⟩ := exists_select_of_sublist hsub
  exact ⟨x, hx, hsel ▸ hperm⟩

theorem any_nonpos_eq_false {utxo_pool : List (OutputGroup α)} (hpos : ∀ g ∈ utxo_pool, 0 < g.getSelectionAmount) :
    (utxo_pool.any fun utxo => decide (utxo.getSelectionAmount ≤ 0)) = false :=
  List.any_eq_false.mpr fun g hg => by
    rw [decide_eq_true_eq]
    exact not_le.mpr (hpos g hg)

/-- The assertion passes only for positive selection amounts. -/
theorem pos_of_selectCoinsBnB_ok {utxo_pool : List (OutputGroup α)} {T coc : CAmount}
    {r : Option (List (OutputGroup α) × List α × CAmount)} (h : selectCoinsBnB utxo_pool T coc = .ok r) :
    ∀ g ∈ utxo_pool, 0 < g.getSelectionAmount := by
  rw [selectCoinsBnB] at h
  cases hany : utxo_pool.any fun utxo => decide (utxo.getSelectionAmount ≤ 0)
  · intro g hg
    have := List.any_eq_false.mp hany g hg
    rw [decide_eq_true_eq] at this
    exact lt_of_not_ge this
  · rw [hany, if_pos rfl] at h
    exact nomatch h

/-- Not enough in the pool: `false` at once. -/
theorem selectCoinsBnB_of_lt {utxo_pool : List (OutputGroup α)} {T coc : CAmount}
    (hpos : ∀ g ∈ utxo_pool, 0 < g.getSelectionAmount) (hlt : (utxo_pool.map OutputGroup.getSelectionAmount).sum < T) :
    selectCoinsBnB utxo_pool T coc = .ok none := by
  rw [selectCoinsBnB, any_nonpos_eq_false hpos, if_neg Bool.false_ne_true]
  dsimp only
  rw [if_pos hlt]

/-- Enough in the pool: the search runs on the sorted pool, and what it
    leaves is a valid best selection, with every solution covered after a
    `break`. -/
theorem selectCoinsBnB_of_search {utxo_pool : List (OutputGroup α)} {T coc : CAmount} (hT : 0 < T) (hc : 0 ≤ coc)
    (hpos : ∀ g ∈ utxo_pool, 0 < g.getSelectionAmount) (hge : T ≤ (utxo_pool.map OutputGroup.getSelectionAmount).sum) :
    ∃ b s, bnbLoop (sortDescending utxo_pool) T coc TOTAL_TRIES
        (initState (utxo_pool.map OutputGroup.getSelectionAmount).sum) = .ok (b, s) ∧
      BestOk (sortDescending utxo_pool) T coc s ∧ (b = true → Done (sortDescending utxo_pool) T coc s) ∧
      selectCoinsBnB utxo_pool T coc = .ok (if s.best_selection = [] then none else
        some (select (sortDescending utxo_pool) s.best_selection,
          (select (sortDescending utxo_pool) s.best_selection).flatMap OutputGroup.m_outputs,
          ((select (sortDescending utxo_pool) s.best_selection).map OutputGroup.m_value).sum)) := by
  have hperm := perm_sortDescending utxo_pool
  -- a positive target makes the pool nonempty
  have hne : sortDescending utxo_pool ≠ [] := fun h => by
    have hnil : utxo_pool = [] := List.Perm.eq_nil (by rw [← h]; exact hperm.symm)
    rw [hnil, List.map_nil, List.sum_nil] at hge
    exact absurd (lt_of_lt_of_le hT hge) (lt_irrefl 0)
  have hpos' : ∀ g ∈ sortDescending utxo_pool, 0 < g.getSelectionAmount := fun g hg => hpos g (hperm.mem_iff.mp hg)
  have hinit : Inv (sortDescending utxo_pool) T coc (initState (utxo_pool.map OutputGroup.getSelectionAmount).sum) := by
    rw [← (hperm.map _).sum_eq, ← @List.drop_zero _ (sortDescending utxo_pool)]
    exact inv_initState
  obtain ⟨b, s, hloop, hbest, hdone⟩ := bnbLoop_post hne hpos' hc TOTAL_TRIES _ hinit
  refine ⟨b, s, hloop, hbest, hdone, ?_⟩
  rw [selectCoinsBnB, any_nonpos_eq_false hpos, if_neg Bool.false_ne_true]
  dsimp only
  rw [if_neg (not_lt.mpr hge), hloop]
  rfl

/-- A selection returned: it is what the best mask of the final loop state
    selects from the sorted pool, with its coins and value. -/
theorem selectCoinsBnB_some {utxo_pool : List (OutputGroup α)} {T coc : CAmount} (hT : 0 < T) (hc : 0 ≤ coc)
    {selected : List (OutputGroup α)} {coins : List α} {value_ret : CAmount}
    (h : selectCoinsBnB utxo_pool T coc = .ok (some (selected, coins, value_ret))) :
    ∃ b s, bnbLoop (sortDescending utxo_pool) T coc TOTAL_TRIES
        (initState (utxo_pool.map OutputGroup.getSelectionAmount).sum) = .ok (b, s) ∧
      BestOk (sortDescending utxo_pool) T coc s ∧ (b = true → Done (sortDescending utxo_pool) T coc s) ∧
      s.best_selection ≠ [] ∧ selected = select (sortDescending utxo_pool) s.best_selection ∧
      coins = selected.flatMap OutputGroup.m_outputs ∧ value_ret = (selected.map OutputGroup.m_value).sum := by
  have hpos := pos_of_selectCoinsBnB_ok h
  by_cases hlt : (utxo_pool.map OutputGroup.getSelectionAmount).sum < T
  · rw [selectCoinsBnB_of_lt hpos hlt] at h
    cases h
  obtain ⟨b, s, hloop, hbest, hdone, hres⟩ := selectCoinsBnB_of_search hT hc hpos (not_lt.mp hlt)
  rw [hres] at h
  by_cases hnil : s.best_selection = []
  · rw [if_pos hnil] at h
    cases h
  rw [if_neg hnil] at h
  simp only [Except.ok.injEq, Option.some.injEq, Prod.mk.injEq] at h
  obtain ⟨rfl, rfl, rfl⟩ := h
  exact ⟨b, s, hloop, hbest, hdone, hnil, rfl, rfl, rfl⟩

theorem selectCoinsBnB_window (utxo_pool : List (OutputGroup α)) (selection_target cost_of_change : CAmount)
    (htarget : 0 < selection_target) (hchange : 0 ≤ cost_of_change) :
    (∀ selected coins value_ret,
      selectCoinsBnB utxo_pool selection_target cost_of_change = .ok (some (selected, coins, value_ret)) →
        selected.Subperm utxo_pool ∧ InWindow selection_target cost_of_change selected ∧
          coins = selected.flatMap OutputGroup.m_outputs ∧ value_ret = (selected.map OutputGroup.m_value).sum) ∧
    (feeSurplus utxo_pool + cost_of_change ≤ MAX_MONEY → SearchEnds utxo_pool selection_target cost_of_change →
      (selectCoinsBnB utxo_pool selection_target cost_of_change = .ok none →
        ∀ S, S.Subperm utxo_pool → ¬InWindow selection_target cost_of_change S) ∧
      (FeesAtLeastLongTerm utxo_pool → ∀ selected coins value_ret,
        selectCoinsBnB utxo_pool selection_target cost_of_change = .ok (some (selected, coins, value_ret)) →
          ∀ S, S.Subperm utxo_pool → InWindow selection_target cost_of_change S →
            waste selection_target selected ≤ waste selection_target S)) := by
  have hperm := perm_sortDescending utxo_pool
  refine ⟨fun selected coins value_ret h => ?_, fun hmax hends => ⟨fun hnone S hS hwin => ?_,
    fun hfees selected coins value_ret h S hS hwin => ?_⟩⟩
  · -- sound: the best selection is a subset in the window
    obtain ⟨_, s, _, hbest, _, hnil, rfl, hcoins, hvalue⟩ := selectCoinsBnB_some htarget hchange h
    exact ⟨(select_sublist _ _).subperm.trans hperm.subperm, (hbest.2 hnil).2.1, hcoins, hvalue⟩
  all_goals
    obtain ⟨x, hx, hxS⟩ := exists_mask_of_subperm hS
    have hsol : Solution (sortDescending utxo_pool) selection_target cost_of_change x := hwin.of_perm hxS.symm
    have hmax' : feeSurplus (sortDescending utxo_pool) + cost_of_change ≤ MAX_MONEY := by
      rw [feeSurplus_perm hperm]
      exact hmax
  · -- complete: no best selection only when no subset is in the window
    have hpos := pos_of_selectCoinsBnB_ok hnone
    by_cases hlt : (utxo_pool.map OutputGroup.getSelectionAmount).sum < selection_target
    · have hle := maskSum_le OutputGroup.getSelectionAmount _ (fun g hg => (hpos g (hperm.mem_iff.mp hg)).le) x
      rw [(hperm.map _).sum_eq] at hle
      exact absurd (lt_of_le_of_lt (le_trans hsol.1 hle) hlt) (lt_irrefl _)
    obtain ⟨b, s, hloop, _, hdone, hres⟩ := selectCoinsBnB_of_search htarget hchange hpos (not_lt.mp hlt)
    obtain ⟨s', hs'⟩ := hends
    rw [hs', Except.ok.injEq, Prod.mk.injEq] at hloop
    obtain ⟨rfl, rfl⟩ := hloop
    rw [hres] at hnone
    by_cases hnil : s'.best_selection = []
    · exact ((hdone rfl).covered hmax' x hx hsol trivial).1 hnil
    · rw [if_neg hnil] at hnone
      cases hnone
  · -- minimal: with fees at least the long-term fees, no subset in the window wastes less
    obtain ⟨b, s, hloop, hbest, hdone, hnil, rfl, -, -⟩ := selectCoinsBnB_some htarget hchange h
    obtain ⟨s', hs'⟩ := hends
    rw [hs', Except.ok.injEq, Prod.mk.injEq] at hloop
    obtain ⟨rfl, rfl⟩ := hloop
    have hcov := (hdone rfl).covered hmax' x hx hsol trivial
    calc waste selection_target (select (sortDescending utxo_pool) s'.best_selection)
        = s'.best_waste := by rw [waste_select, (hbest.2 hnil).2.2]
      _ ≤ maskWaste (sortDescending utxo_pool) selection_target x := hcov.2 (hfees.of_perm hperm.symm)
      _ = waste selection_target S := by rw [← waste_select, waste_perm selection_target hxS]

/-- Three groups at one fee rate, equal to the long-term one. -/
def evenFeePool : List (OutputGroup Nat) :=
  [⟨[1], 3, 3, 1, 1, false⟩, ⟨[2], 2, 2, 1, 1, false⟩, ⟨[3], 2, 2, 1, 1, false⟩]

theorem selectCoinsBnB_window_evenFeePool :
    (0 : CAmount) < 4 ∧ (0 : CAmount) ≤ 1 ∧
      selectCoinsBnB evenFeePool 4 1 = .ok (some ([⟨[2], 2, 2, 1, 1, false⟩, ⟨[3], 2, 2, 1, 1, false⟩], [2, 3], 4)) ∧
      List.Subperm [⟨[2], 2, 2, 1, 1, false⟩, ⟨[3], 2, 2, 1, 1, false⟩] evenFeePool ∧
      InWindow 4 1 [⟨[2], 2, 2, 1, 1, false⟩, ⟨[3], 2, 2, 1, 1, false⟩] ∧
      feeSurplus evenFeePool + 1 ≤ MAX_MONEY ∧ SearchEnds evenFeePool 4 1 ∧ FeesAtLeastLongTerm evenFeePool ∧
      waste 4 [⟨[2], 2, 2, 1, 1, false⟩, ⟨[3], 2, 2, 1, 1, false⟩] ≤
        waste 4 [⟨[1], 3, 3, 1, 1, false⟩, ⟨[2], 2, 2, 1, 1, false⟩] := by
  have hres : selectCoinsBnB evenFeePool 4 1 =
      .ok (some ([⟨[2], 2, 2, 1, 1, false⟩, ⟨[3], 2, 2, 1, 1, false⟩], [2, 3], 4)) := by decide
  have hmax : feeSurplus evenFeePool + 1 ≤ MAX_MONEY := by decide
  have hends : SearchEnds evenFeePool 4 1 := by
    unfold SearchEnds
    exact ⟨⟨4, 0, 0, [true, true, false], [false, true, true], 0⟩, by decide⟩
  have hfees : FeesAtLeastLongTerm evenFeePool := ⟨by simp [evenFeePool], by simp [evenFeePool]⟩
  have hS : List.Subperm [⟨[1], 3, 3, 1, 1, false⟩, ⟨[2], 2, 2, 1, 1, false⟩] evenFeePool :=
    (List.sublist_append_left _ ([⟨[3], 2, 2, 1, 1, false⟩] : List (OutputGroup Nat))).subperm
  have h := selectCoinsBnB_window evenFeePool 4 1 (by decide) (by decide)
  exact ⟨by decide, by decide, hres, (h.1 _ _ _ hres).1, (h.1 _ _ _ hres).2.1, hmax, hends, hfees,
    (h.2 hmax hends).2 hfees _ _ _ hres _ hS (by decide)⟩

/-- Two groups at one fee rate, below the long-term one. -/
def lowFeeRatePool : List (OutputGroup Nat) := [⟨[1], 11, 10, 1, 3, false⟩, ⟨[2], 2, 1, 1, 3, false⟩]

/-- Below the long-term fee rate, the search keeps the first group alone:
    within range it backtracks before adding the second, whose inclusion
    would lower the waste. -/
theorem selectCoinsBnB_waste_above_min :
    selectCoinsBnB lowFeeRatePool 10 5 = .ok (some ([⟨[1], 11, 10, 1, 3, false⟩], [1], 11)) ∧
      feeSurplus lowFeeRatePool + 5 ≤ MAX_MONEY ∧ SearchEnds lowFeeRatePool 10 5 ∧
      lowFeeRatePool.Subperm lowFeeRatePool ∧ InWindow 10 5 lowFeeRatePool ∧
      waste 10 lowFeeRatePool < waste 10 [⟨[1], 11, 10, 1, 3, false⟩] := by
  refine ⟨by decide, by decide, ?_, List.Subperm.refl _, by decide, by decide⟩
  unfold SearchEnds
  exact ⟨⟨0, 11, 0, [], [true, false], -2⟩, by decide⟩

end CoinSelection

end Revo
