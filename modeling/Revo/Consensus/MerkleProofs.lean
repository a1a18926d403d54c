/-
  Revo.Consensus.MerkleProofs

  `ComputeMerkleRoot` as a recursion over levels: with more than one entry,
  the root and the flag are those of the level above, the flag also set by
  an equal pair of this level (`computeMerkleRoot_of_one_lt`).  Over that
  recursion,

    * `BlockBuildMerkleTree` computes the same root, and its flag, set only
      by an equal last pair, implies the flag of `ComputeMerkleRoot`;
    * with `SHA256D64` injective on pairs and never a leaf, two different
      nonempty leaf lists with one root make one of the two calls report a
      mutation.  Equal levels above force equal levels below unless the
      longer one ends in a duplicated pair, and a root lies at one height
      only (`HashLevels.Level.height_unique`), so the two trees have the
      same height.
-/

import Revo.Consensus.Merkle
import Revo.Lib.HashLevels

namespace Revo

open HashLevels

section Levels

variable {α : Type} (hash : α → α → α) (zero : α)

/-! ## One level -/

/-- One round of the loop of `ComputeMerkleRoot`: the level above. -/
def nextLevel (hashes : List α) : List α := sha256D64 hash (duplicateLast zero hashes)

theorem length_sha256D64 : ∀ l : List α, (sha256D64 hash l).length = l.length / 2
  | [] => by simp [sha256D64]
  | [_] => by simp [sha256D64]
  | a :: b :: rest => by
    rw [sha256D64, List.length_cons, length_sha256D64 rest, List.length_cons, List.length_cons]
    omega

theorem length_duplicateLast (l : List α) :
    (duplicateLast zero l).length = l.length + l.length % 2 := by
  rw [duplicateLast]
  split
  · rename_i h
    rw [List.length_append, List.length_singleton, h]
  · rename_i h
    rw [Nat.mod_two_ne_one.mp h, Nat.add_zero]

theorem length_nextLevel (l : List α) : (nextLevel hash zero l).length = (l.length + 1) / 2 := by
  rw [nextLevel, length_sha256D64, length_duplicateLast]
  omega

@[simp] theorem nextLevel_nil : nextLevel hash zero [] = [] := rfl

@[simp] theorem nextLevel_single (a : α) : nextLevel hash zero [a] = [hash a a] := rfl

/-- Pairs are read two entries at a time: an odd last entry, paired with
    itself, stays the last one. -/
@[simp] theorem nextLevel_cons_cons (a b : α) (rest : List α) :
    nextLevel hash zero (a :: b :: rest) = hash a b :: nextLevel hash zero rest := by
  have hpar : (a :: b :: rest).length % 2 = rest.length % 2 := by
    rw [List.length_cons, List.length_cons]
    omega
  rw [nextLevel, nextLevel, duplicateLast, duplicateLast, hpar]
  split
  · rename_i h
    cases rest with
    | nil => cases h
    | cons c rest =>
      rw [List.getLastD_eq_getLast?, List.getLast?_cons_cons, List.getLast?_cons_cons,
        ← List.getLastD_eq_getLast?]
      rfl
  · rfl

/-- A nonempty level that does not go up is one entry. -/
theorem exists_eq_singleton {l : List α} (hne : l ≠ []) (h : ¬1 < l.length) : ∃ x, l = [x] := by
  have hpos := List.length_pos_iff.mpr hne
  exact List.length_eq_one_iff.mp (by omega)

/-- `vMerkleTree[j + i]` for an entry `x` of the level. -/
theorem getD_level (pre front rest acc : List α) (x : α) :
    (pre ++ (front ++ x :: rest) ++ acc).getD (pre.length + front.length) zero = x := by
  rw [List.append_assoc, List.getD_append_right _ _ _ _ (Nat.le_add_right _ _), Nat.add_sub_cancel_left,
    List.getD_append _ _ _ _ (by rw [List.length_append, List.length_cons]; omega),
    List.getD_append_right _ _ _ _ (Nat.le_refl _), Nat.sub_self, List.getD_cons_zero]

theorem duplicateLast_of_odd {l : List α} (h : l.length % 2 = 1) :
    duplicateLast zero l = l ++ [l.getLastD zero] := by
  rw [duplicateLast, if_pos h]

theorem duplicateLast_of_even {l : List α} (h : l.length % 2 ≠ 1) : duplicateLast zero l = l := by
  rw [duplicateLast, if_neg h]

theorem length_duplicateLast_even (l : List α) : (duplicateLast zero l).length % 2 = 0 := by
  rw [length_duplicateLast]
  omega

/-- With `SHA256D64` injective on pairs, a level of pairs is injective. -/
theorem sha256D64_inj (hinj : ∀ a b c d, hash a b = hash c d → a = c ∧ b = d) :
    ∀ l₁ l₂ : List α, l₁.length % 2 = 0 → l₂.length % 2 = 0 →
      sha256D64 hash l₁ = sha256D64 hash l₂ → l₁ = l₂
  | [], [], _, _, _ => rfl
  | a :: b :: r, c :: d :: r', h₁, h₂, he => by
    rw [sha256D64, sha256D64, List.cons.injEq] at he
    obtain ⟨rfl, rfl⟩ := hinj a b c d he.1
    rw [sha256D64_inj hinj r r' (by rw [List.length_cons, List.length_cons] at h₁; omega)
      (by rw [List.length_cons, List.length_cons] at h₂; omega) he.2]
  | [], _ :: _ :: _, _, _, he => by cases he
  | _ :: _ :: _, [], _, _, he => by cases he
  | [_], _, h₁, _, _ => by simp at h₁
  | [], [_], _, h₂, _ => by simp at h₂
  | _ :: _ :: _, [_], _, h₂, _ => by simp at h₂

/-- The level above values of height `k` has height `k + 1`. -/
theorem level_nextLevel {leaf : α → Prop} {k : Nat} :
    ∀ {l : List α}, (∀ x ∈ l, Level hash leaf k x) → ∀ x ∈ nextLevel hash zero l, Level hash leaf (k + 1) x
  | [], _, x, hx => absurd hx List.not_mem_nil
  | [a], h, x, hx => by
    rw [nextLevel_single, List.mem_singleton] at hx
    subst hx
    exact .node (h a List.mem_cons_self) (h a List.mem_cons_self)
  | a :: b :: rest, h, x, hx => by
    rw [nextLevel_cons_cons, List.mem_cons] at hx
    rcases hx with rfl | hx
    · exact .node (h a List.mem_cons_self) (h b (List.mem_cons_of_mem a List.mem_cons_self))
    · exact level_nextLevel (fun y hy => h y (List.mem_cons_of_mem a (List.mem_cons_of_mem b hy))) x hx

/-! ## The loop -/

variable [DecidableEq α]

/-- Enough fuel gives the same run. -/
theorem computeMerkleRootLoop_fuel {f₁ f₂ : Nat} {l : List α} (h₁ : l.length ≤ f₁) (h₂ : l.length ≤ f₂)
    (m : Bool) : computeMerkleRootLoop hash zero f₁ l m = computeMerkleRootLoop hash zero f₂ l m := by
  induction f₁ generalizing f₂ l m with
  | zero =>
    rw [Nat.le_zero, List.length_eq_zero_iff] at h₁
    subst h₁
    cases f₂ <;> rfl
  | succ f₁ ih =>
    cases f₂ with
    | zero =>
      rw [Nat.le_zero, List.length_eq_zero_iff] at h₂
      subst h₂
      rfl
    | succ f₂ =>
      rw [computeMerkleRootLoop, computeMerkleRootLoop]
      split
      · rename_i hl
        have hn := length_nextLevel hash zero l
        exact ih (by rw [← nextLevel, hn]; omega) (by rw [← nextLevel, hn]; omega) _
      · rfl

/-- The flag a run starts with is kept, and does not change the run. -/
theorem computeMerkleRootLoop_mutation (fuel : Nat) (l : List α) (m : Bool) :
    computeMerkleRootLoop hash zero fuel l m =
      ((computeMerkleRootLoop hash zero fuel l false).1,
        m || (computeMerkleRootLoop hash zero fuel l false).2) := by
  induction fuel generalizing l m with
  | zero => rw [computeMerkleRootLoop, computeMerkleRootLoop, Bool.or_false]
  | succ fuel ih =>
    rw [computeMerkleRootLoop, computeMerkleRootLoop]
    split
    · rw [ih _ (m || pairsEqual l), ih _ (false || pairsEqual l), Bool.false_or, Bool.or_assoc]
    · rw [Bool.or_false]

theorem computeMerkleRoot_eq_loop (l : List α) :
    computeMerkleRoot hash zero l =
      ((computeMerkleRootLoop hash zero l.length l false).1.headD zero,
        (computeMerkleRootLoop hash zero l.length l false).2) := rfl

/-- At most one entry is its own root, not a mutation. -/
theorem computeMerkleRoot_of_le_one {l : List α} (hl : l.length ≤ 1) :
    computeMerkleRoot hash zero l = (l.headD zero, false) := by
  rw [computeMerkleRoot_eq_loop]
  cases hn : l.length with
  | zero => rfl
  | succ n =>
    rw [computeMerkleRootLoop, if_neg (by omega)]

/-- More entries have the root of the level above, and a mutation there or
    in an equal pair here. -/
theorem computeMerkleRoot_of_one_lt {l : List α} (hl : 1 < l.length) :
    computeMerkleRoot hash zero l =
      ((computeMerkleRoot hash zero (nextLevel hash zero l)).1,
        pairsEqual l || (computeMerkleRoot hash zero (nextLevel hash zero l)).2) := by
  obtain ⟨n, hn⟩ : ∃ n, l.length = n + 1 := ⟨l.length - 1, by omega⟩
  have hnext : (nextLevel hash zero l).length ≤ n := by rw [length_nextLevel]; omega
  rw [computeMerkleRoot_eq_loop, computeMerkleRoot_eq_loop, hn, computeMerkleRootLoop, if_pos (by omega),
    Bool.false_or, computeMerkleRootLoop_mutation, ← nextLevel,
    computeMerkleRootLoop_fuel hash zero hnext (Nat.le_refl _)]

theorem mutation_of_pairsEqual {l : List α} (hl : 1 < l.length) (h : pairsEqual l = true) :
    (computeMerkleRoot hash zero l).2 = true := by
  rw [computeMerkleRoot_of_one_lt hash zero hl, h, Bool.true_or]

theorem mutation_of_nextLevel {l : List α} (hl : 1 < l.length)
    (h : (computeMerkleRoot hash zero (nextLevel hash zero l)).2 = true) :
    (computeMerkleRoot hash zero l).2 = true := by
  rw [computeMerkleRoot_of_one_lt hash zero hl, h, Bool.or_true]

/-! ## The reference tree of the tests -/

/-- The flag of `BlockBuildMerkleTree` at one level: its last two entries
    are a pair, and equal. -/
def lastPairEqual : List α → Bool
  | a :: b :: rest => (rest.isEmpty && a == b) || lastPairEqual rest
  | _ => false

@[simp] theorem lastPairEqual_nil : lastPairEqual ([] : List α) = false := rfl

@[simp] theorem lastPairEqual_single (a : α) : lastPairEqual [a] = false := rfl

/-- The last pair is one of the pairs `ComputeMerkleRoot` compares. -/
theorem pairsEqual_of_lastPairEqual : ∀ {l : List α}, lastPairEqual l = true → pairsEqual l = true
  | a :: b :: rest, h => by
    rw [lastPairEqual, Bool.or_eq_true, Bool.and_eq_true] at h
    rw [pairsEqual, Bool.or_eq_true]
    rcases h with ⟨-, h⟩ | h
    · exact .inl h
    · exact .inr (pairsEqual_of_lastPairEqual h)
  | [], h => by cases h
  | [_], h => by cases h

/-- The inner loop from the entries `rest` of the level on pushes the level
    above them, and sets the flag at an equal last pair. -/
theorem buildMerkleLevel_spec (pre lvl : List α) :
    ∀ (rest front : List α) (fuel : Nat) (mutated : Bool) (acc : List α), lvl = front ++ rest →
      rest.length ≤ 2 * fuel →
      buildMerkleLevel hash zero pre.length lvl.length fuel front.length mutated (pre ++ lvl ++ acc) =
        (mutated || lastPairEqual rest, pre ++ lvl ++ acc ++ nextLevel hash zero rest)
  | [], front, fuel, mutated, acc, hlvl, _ => by
    cases fuel with
    | zero => rw [buildMerkleLevel, lastPairEqual_nil, Bool.or_false, nextLevel_nil, List.append_nil]
    | succ fuel =>
      rw [buildMerkleLevel, if_neg (by rw [hlvl, List.append_nil]; omega), lastPairEqual_nil, Bool.or_false,
        nextLevel_nil, List.append_nil]
  | [a], front, fuel, mutated, acc, hlvl, hfuel => by
    obtain _ | fuel := fuel
    · exact absurd hfuel (by rw [List.length_singleton]; omega)
    have hlen : lvl.length = front.length + 1 := by rw [hlvl, List.length_append, List.length_singleton]
    have hi2 : min (front.length + 1) (lvl.length - 1) = front.length := by omega
    rw [buildMerkleLevel, if_pos (by omega)]
    dsimp only
    rw [hi2, hlvl, getD_level, decide_eq_false (by omega), Bool.or_false]
    -- the odd last entry is paired with itself, and the loop ends there
    cases fuel with
    | zero => rw [buildMerkleLevel, lastPairEqual_single, Bool.or_false, nextLevel_single, List.append_assoc]
    | succ fuel =>
      rw [buildMerkleLevel, if_neg (by rw [List.length_append, List.length_singleton]; omega),
        lastPairEqual_single, Bool.or_false, nextLevel_single, List.append_assoc]
  | a :: b :: rest, front, fuel, mutated, acc, hlvl, hfuel => by
    obtain _ | fuel := fuel
    · exact absurd hfuel (by rw [List.length_cons, List.length_cons]; omega)
    have hlen : lvl.length = front.length + rest.length + 2 := by
      rw [hlvl, List.length_append, List.length_cons, List.length_cons]
      omega
    have hi2 : min (front.length + 1) (lvl.length - 1) = front.length + 1 := by omega
    have hb : (pre ++ (front ++ a :: b :: rest) ++ acc).getD (pre.length + (front.length + 1)) zero = b := by
      have h := getD_level zero pre (front ++ [a]) rest acc b
      rwa [List.append_assoc front, List.singleton_append, List.length_append, List.length_singleton] at h
    -- the flag compares this pair only when it is the last one
    have hflag : decide (front.length + 1 = front.length + 1 ∧ front.length + 1 + 1 = lvl.length ∧ a = b) =
        (rest.isEmpty && a == b) := by
      cases rest with
      | nil =>
        rw [List.isEmpty_nil, Bool.true_and]
        exact decide_eq_decide.mpr ⟨fun h => h.2.2, fun h => ⟨rfl, by rw [hlen, List.length_nil], h⟩⟩
      | cons c rest =>
        rw [List.isEmpty_cons, Bool.false_and, decide_eq_false]
        rw [hlen, List.length_cons]
        omega
    rw [buildMerkleLevel, if_pos (by omega)]
    dsimp only
    rw [hi2, hlvl, getD_level, hb, ← hlvl, hflag]
    have hrec := buildMerkleLevel_spec pre lvl rest (front ++ [a, b]) fuel
      (mutated || (rest.isEmpty && a == b)) (acc ++ [hash a b])
      (by rw [hlvl, List.append_assoc, List.cons_append, List.cons_append, List.nil_append])
      (by rw [List.length_cons, List.length_cons] at hfuel; omega)
    rw [List.length_append, List.length_cons, List.length_cons, List.length_nil, ← List.append_assoc] at hrec
    rw [show front.length + 2 = front.length + (1 + 1) from rfl, hrec, lastPairEqual,
      nextLevel_cons_cons, Bool.or_assoc, List.append_assoc (pre ++ lvl ++ acc), List.singleton_append]

/-- The outer loop from a nonempty level ends with the root on top of the
    tree, and sets its flag only where `ComputeMerkleRoot` sets its own. -/
theorem buildMerkleTreeLoop_spec (fuel : Nat) :
    ∀ (pre lvl : List α) (mutated : Bool), lvl ≠ [] → lvl.length ≤ fuel →
      (buildMerkleTreeLoop hash zero fuel pre.length lvl.length mutated (pre ++ lvl)).2.getLastD zero =
          (computeMerkleRoot hash zero lvl).1 ∧
        ((buildMerkleTreeLoop hash zero fuel pre.length lvl.length mutated (pre ++ lvl)).1 = true →
          mutated = true ∨ (computeMerkleRoot hash zero lvl).2 = true) := by
  induction fuel with
  | zero =>
    intro pre lvl mutated hne hfuel
    exact absurd (List.length_eq_zero_iff.mp (Nat.le_zero.mp hfuel)) hne
  | succ fuel ih =>
    intro pre lvl mutated hne hfuel
    by_cases h1 : 1 < lvl.length
    · -- one level is pushed, and the loop goes on from it
      have hlvl := buildMerkleLevel_spec hash zero pre lvl lvl [] lvl.length mutated [] rfl (by omega)
      rw [List.length_nil, List.append_nil] at hlvl
      have hnext := length_nextLevel hash zero lvl
      have hne' : nextLevel hash zero lvl ≠ [] := List.ne_nil_of_length_pos (by omega)
      obtain ⟨hroot, hflag⟩ := ih (pre ++ lvl) (nextLevel hash zero lvl) (mutated || lastPairEqual lvl) hne'
        (by omega)
      rw [List.length_append, hnext] at hroot hflag
      rw [buildMerkleTreeLoop, if_pos h1, hlvl]
      dsimp only
      refine ⟨by rw [hroot, computeMerkleRoot_of_one_lt hash zero h1], fun h => ?_⟩
      rcases hflag h with hm | hm
      · rcases Bool.or_eq_true _ _ ▸ hm with hm | hm
        · exact .inl hm
        · exact .inr (mutation_of_pairsEqual hash zero h1 (pairsEqual_of_lastPairEqual hm))
      · exact .inr (mutation_of_nextLevel hash zero h1 hm)
    · -- one entry is the root and the last entry of the tree
      obtain ⟨x, rfl⟩ := exists_eq_singleton hne h1
      rw [buildMerkleTreeLoop, if_neg h1, computeMerkleRoot_of_le_one hash zero (Nat.le_refl _)]
      exact ⟨List.getLastD_concat, fun h => .inl h⟩

/-- `BlockBuildMerkleTree` has the root of `ComputeMerkleRoot`, and
    reports a mutation only where `ComputeMerkleRoot` does. -/
theorem blockBuildMerkleTree_spec (leaves : List α) :
    (blockBuildMerkleTree hash zero leaves).1 = (computeMerkleRoot hash zero leaves).1 ∧
      ((blockBuildMerkleTree hash zero leaves).2.1 = true → (computeMerkleRoot hash zero leaves).2 = true) := by
  cases leaves with
  | nil => exact ⟨rfl, fun h => h⟩
  | cons x rest =>
    obtain ⟨hroot, hflag⟩ := buildMerkleTreeLoop_spec hash zero (x :: rest).length [] (x :: rest) false
      (List.cons_ne_nil x rest) (Nat.le_refl _)
    refine ⟨hroot, fun h => ?_⟩
    rcases hflag h with hm | hm
    · cases hm
    · exact hm

/-! ## Detecting mutations -/

/-- A pair `x, x` after an even number of entries is found by the scan. -/
theorem pairsEqual_append_pair (x : α) :
    ∀ p : List α, p.length % 2 = 0 → pairsEqual (p ++ [x, x]) = true
  | [], _ => by rw [List.nil_append, pairsEqual, beq_self_eq_true, Bool.true_or]
  | [_], h => by simp at h
  | a :: b :: p, h => by
    rw [List.cons_append, List.cons_append, pairsEqual,
      pairsEqual_append_pair x p (by rw [List.length_cons, List.length_cons] at h; omega), Bool.or_true]

/-- An odd level with its last entry duplicated ends in an equal pair. -/
theorem pairsEqual_duplicateLast {l : List α} (h : l.length % 2 = 1) :
    pairsEqual (duplicateLast zero l) = true := by
  rcases List.eq_nil_or_concat' l with rfl | ⟨p, x, rfl⟩
  · cases h
  · rw [duplicateLast_of_odd zero h, List.getLastD_concat, List.append_assoc]
    rw [List.length_append, List.length_singleton] at h
    exact pairsEqual_append_pair x p (by omega)

/-- Equal levels above come from equal levels, or from a level whose last
    pair was added by duplicating an odd one. -/
theorem eq_of_nextLevel_eq (hinj : ∀ a b c d, hash a b = hash c d → a = c ∧ b = d) {l₁ l₂ : List α}
    (h : nextLevel hash zero l₁ = nextLevel hash zero l₂) :
    l₁ = l₂ ∨ pairsEqual l₁ = true ∨ pairsEqual l₂ = true := by
  have hD := sha256D64_inj hash hinj _ _ (length_duplicateLast_even zero l₁)
    (length_duplicateLast_even zero l₂) h
  have hlen := congrArg List.length hD
  rw [length_duplicateLast, length_duplicateLast] at hlen
  by_cases h₁ : l₁.length % 2 = 1 <;> by_cases h₂ : l₂.length % 2 = 1
  · -- both odd: the same entry was added to both
    rw [duplicateLast_of_odd zero h₁, duplicateLast_of_odd zero h₂] at hD
    exact .inl (List.append_inj_left hD (by omega))
  · rw [duplicateLast_of_even zero h₂] at hD
    exact .inr (.inr (hD ▸ pairsEqual_duplicateLast zero h₁))
  · rw [duplicateLast_of_even zero h₁] at hD
    exact .inr (.inl (hD ▸ pairsEqual_duplicateLast zero h₂))
  · rw [duplicateLast_of_even zero h₁, duplicateLast_of_even zero h₂] at hD
    exact .inl hD

variable {leaf : α → Prop}

/-- The root of a level of height `k` has a height at least `k`, above `k`
    when the level has more than one entry. -/
theorem level_root (n : Nat) :
    ∀ (k : Nat) (l : List α), l.length ≤ n → l ≠ [] → (∀ x ∈ l, Level hash leaf k x) →
      ∃ j, k ≤ j ∧ (1 < l.length → k < j) ∧ Level hash leaf j (computeMerkleRoot hash zero l).1 := by
  induction n with
  | zero =>
    intro k l hn hne _
    exact absurd (List.length_eq_zero_iff.mp (Nat.le_zero.mp hn)) hne
  | succ n ih =>
    intro k l hn hne hl
    by_cases h1 : 1 < l.length
    · have hnext := length_nextLevel hash zero l
      obtain ⟨j, hj, -, hroot⟩ := ih (k + 1) (nextLevel hash zero l) (by omega)
        (List.ne_nil_of_length_pos (by omega)) (level_nextLevel hash zero hl)
      rw [computeMerkleRoot_of_one_lt hash zero h1]
      exact ⟨j, by omega, fun _ => by omega, hroot⟩
    · obtain ⟨x, rfl⟩ := exists_eq_singleton hne h1
      rw [computeMerkleRoot_of_le_one hash zero (Nat.le_refl _)]
      exact ⟨k, Nat.le_refl k, fun h => absurd h h1, hl x List.mem_cons_self⟩

/-- Two nonempty levels of one height with one root are equal, or one of
    the two calls reports a mutation.  The induction is on the entries of
    both, and the height goes up with the levels. -/
theorem eq_or_mutated_of_root_eq (hinj : ∀ a b c d, hash a b = hash c d → a = c ∧ b = d)
    (hleaf : ∀ a b, ¬leaf (hash a b)) (n : Nat) :
    ∀ (k : Nat) (l₁ l₂ : List α), l₁.length + l₂.length ≤ n → l₁ ≠ [] → l₂ ≠ [] →
      (∀ x ∈ l₁, Level hash leaf k x) → (∀ x ∈ l₂, Level hash leaf k x) →
      (computeMerkleRoot hash zero l₁).1 = (computeMerkleRoot hash zero l₂).1 →
      l₁ = l₂ ∨ (computeMerkleRoot hash zero l₁).2 = true ∨ (computeMerkleRoot hash zero l₂).2 = true := by
  induction n with
  | zero =>
    intro k l₁ l₂ hn hne₁ _ _ _ _
    exact absurd (List.length_eq_zero_iff.mp (by omega)) hne₁
  | succ n ih =>
    intro k l₁ l₂ hn hne₁ hne₂ hl₁ hl₂ hroot
    obtain ⟨j₁, -, hj₁, hr₁⟩ := level_root hash zero _ k l₁ (Nat.le_refl _) hne₁ hl₁
    obtain ⟨j₂, -, hj₂, hr₂⟩ := level_root hash zero _ k l₂ (Nat.le_refl _) hne₂ hl₂
    have hj : j₁ = j₂ := Level.height_unique hinj hleaf hr₁ (hroot ▸ hr₂)
    by_cases h₁ : 1 < l₁.length <;> by_cases h₂ : 1 < l₂.length
    · -- both levels go up: equal roots above
      have hn₁ := length_nextLevel hash zero l₁
      have hn₂ := length_nextLevel hash zero l₂
      have hroot' : (computeMerkleRoot hash zero (nextLevel hash zero l₁)).1 =
          (computeMerkleRoot hash zero (nextLevel hash zero l₂)).1 := by
        rw [computeMerkleRoot_of_one_lt hash zero h₁, computeMerkleRoot_of_one_lt hash zero h₂] at hroot
        exact hroot
      rcases ih (k + 1) _ _ (by omega) (List.ne_nil_of_length_pos (by omega))
        (List.ne_nil_of_length_pos (by omega)) (level_nextLevel hash zero hl₁)
        (level_nextLevel hash zero hl₂) hroot' with heq | hm | hm
      · rcases eq_of_nextLevel_eq hash zero hinj heq with heq | hp | hp
        · exact .inl heq
        · exact .inr (.inl (mutation_of_pairsEqual hash zero h₁ hp))
        · exact .inr (.inr (mutation_of_pairsEqual hash zero h₂ hp))
      · exact .inr (.inl (mutation_of_nextLevel hash zero h₁ hm))
      · exact .inr (.inr (mutation_of_nextLevel hash zero h₂ hm))
    · -- a root above `k` and a root at `k`
      obtain ⟨y, rfl⟩ := exists_eq_singleton hne₂ h₂
      have := hj₁ h₁
      rw [computeMerkleRoot_of_le_one hash zero (Nat.le_refl _)] at hr₂
      have hy := Level.height_unique hinj hleaf hr₂ (hl₂ y List.mem_cons_self)
      omega
    · obtain ⟨x, rfl⟩ := exists_eq_singleton hne₁ h₁
      have := hj₂ h₂
      rw [computeMerkleRoot_of_le_one hash zero (Nat.le_refl _)] at hr₁
      have hx := Level.height_unique hinj hleaf hr₁ (hl₁ x List.mem_cons_self)
      omega
    · -- two single entries with one root are one entry
      obtain ⟨x, rfl⟩ := exists_eq_singleton hne₁ h₁
      obtain ⟨y, rfl⟩ := exists_eq_singleton hne₂ h₂
      rw [computeMerkleRoot_of_le_one hash zero (Nat.le_refl _),
        computeMerkleRoot_of_le_one hash zero (Nat.le_refl _)] at hroot
      exact .inl (by rw [show x = y from hroot])

end Levels

/-! ## A hash injective on pairs and never a leaf -/

/-- The free model of `SHA256D64`: a hash is the pair it hashes and a leaf
    is a number, so the hash is injective on pairs and never a leaf. -/
inductive HashTerm
  | leaf (n : Nat)
  | node (l r : HashTerm)
  deriving DecidableEq

/-- No leaves and one `uint256()` leaf have one root and no mutation, and an
    equal pair that is not the last one is a mutation for `ComputeMerkleRoot`
    and not for `BlockBuildMerkleTree`. -/
theorem computeMerkleRoot_nil_collides :
    computeMerkleRoot HashTerm.node (.leaf 0) [] = computeMerkleRoot HashTerm.node (.leaf 0) [.leaf 0] ∧
      (computeMerkleRoot HashTerm.node (.leaf 0) []).2 = false ∧
      (computeMerkleRoot HashTerm.node (.leaf 0) [.leaf 1, .leaf 1, .leaf 2]).2 = true ∧
      (blockBuildMerkleTree HashTerm.node (.leaf 0) [.leaf 1, .leaf 1, .leaf 2]).2.1 = false := by
  decide

section Complete

variable {α : Type} [DecidableEq α] (hash : α → α → α) (zero : α)

/-- Two different nonempty leaf lists with one root make one of the two
    calls report a mutation, when the hash is injective on pairs and never
    one of the leaves; and `BlockBuildMerkleTree` has the root of
    `ComputeMerkleRoot` and reports a mutation only where it does. -/
theorem computeMerkleRoot_mutation_complete :
    ((∀ a b c d, hash a b = hash c d → a = c ∧ b = d) →
      ∀ L₁ L₂ : List α, L₁ ≠ [] → L₂ ≠ [] → L₁ ≠ L₂ → (∀ a b, hash a b ∉ L₁ ∧ hash a b ∉ L₂) →
        (computeMerkleRoot hash zero L₁).1 = (computeMerkleRoot hash zero L₂).1 →
        (computeMerkleRoot hash zero L₁).2 = true ∨ (computeMerkleRoot hash zero L₂).2 = true) ∧
    ∀ L : List α, (blockBuildMerkleTree hash zero L).1 = (computeMerkleRoot hash zero L).1 ∧
      ((blockBuildMerkleTree hash zero L).2.1 = true → (computeMerkleRoot hash zero L).2 = true) := by
  refine ⟨fun hinj L₁ L₂ hne₁ hne₂ hne hnot hroot => ?_, blockBuildMerkleTree_spec hash zero⟩
  -- the leaves are the entries of the two lists, all of height `0`
  have hleaf : ∀ a b, ¬(hash a b ∈ L₁ ∨ hash a b ∈ L₂) := fun a b h =>
    h.elim (hnot a b).1 (hnot a b).2
  rcases @eq_or_mutated_of_root_eq α hash zero _ (fun x => x ∈ L₁ ∨ x ∈ L₂) hinj hleaf _ 0 L₁ L₂
    (Nat.le_refl _) hne₁ hne₂
    (fun x hx => .leaf (.inl hx)) (fun x hx => .leaf (.inr hx)) hroot with heq | hm
  · exact absurd heq hne
  · exact hm

end Complete

/-- A list whose last entry is duplicated: one root with the list itself,
    and both trees report the mutation. -/
theorem computeMerkleRoot_mutation_complete_dup :
    ((computeMerkleRoot HashTerm.node (.leaf 0) [.leaf 1, .leaf 2, .leaf 3]).2 = true ∨
        (computeMerkleRoot HashTerm.node (.leaf 0) [.leaf 1, .leaf 2, .leaf 3, .leaf 3]).2 = true) ∧
      ((blockBuildMerkleTree HashTerm.node (.leaf 0) [.leaf 1, .leaf 2, .leaf 3, .leaf 3]).2.1 = true ∧
        (computeMerkleRoot HashTerm.node (.leaf 0) [.leaf 1, .leaf 2, .leaf 3, .leaf 3]).2 = true) :=
  have h := computeMerkleRoot_mutation_complete HashTerm.node (.leaf 0)
  ⟨h.1 (fun _ _ _ _ he => HashTerm.node.inj he) _ _ (by decide) (by decide) (by decide) (fun _ _ => by simp)
      (by decide),
    ⟨by decide, (h.2 [.leaf 1, .leaf 2, .leaf 3, .leaf 3]).2 (by decide)⟩⟩

end Revo
