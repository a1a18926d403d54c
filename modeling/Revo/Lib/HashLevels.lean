/-
  Revo.Lib.HashLevels

  Heights of values in hash trees.  Over a set of leaves, a value has height
  `0` when it is a leaf and height `k + 1` when it is the hash of two values
  of height `k`.  When the hash is injective on pairs and never a leaf, no
  value has two heights (`Level.height_unique`): two trees that hash to the
  same value have the same height.
-/

import Mathlib.Logic.Basic

namespace HashLevels

variable {α : Type} (hash : α → α → α) (leaf : α → Prop)

/-- The values of height `k` over the leaves. -/
inductive Level : Nat → α → Prop
  | leaf {x : α} : leaf x → Level 0 x
  | node {k : Nat} {x y : α} : Level k x → Level k y → Level (k + 1) (hash x y)

variable {hash leaf}

/-- Every value of a height is a leaf at `0`, or the hash of two values one
    height below. -/
theorem Level.inv {k : Nat} {z : α} (h : Level hash leaf k z) :
    (k = 0 ∧ leaf z) ∨ ∃ k' x y, k = k' + 1 ∧ z = hash x y ∧ Level hash leaf k' x ∧ Level hash leaf k' y := by
  cases h with
  | leaf hz => exact .inl ⟨rfl, hz⟩
  | node hx hy => exact .inr ⟨_, _, _, rfl, rfl, hx, hy⟩

/-- A value has one height. -/
theorem Level.height_unique (hinj : ∀ a b c d, hash a b = hash c d → a = c ∧ b = d)
    (hleaf : ∀ a b, ¬leaf (hash a b)) {j k : Nat} {x : α} (hj : Level hash leaf j x)
    (hk : Level hash leaf k x) : j = k := by
  induction hj generalizing k with
  | leaf hx =>
    rcases hk.inv with ⟨rfl, -⟩ | ⟨k', a, b, -, rfl, -, -⟩
    · rfl
    · exact absurd hx (hleaf a b)
  | node hx _ ih _ =>
    rcases hk.inv with ⟨-, hl⟩ | ⟨k', a, b, rfl, heq, ha, -⟩
    · exact absurd hl (hleaf _ _)
    · -- the two hashes agree, so do their left halves, whose heights are `k` and `k'`
      rw [ih ((hinj _ _ _ _ heq).1 ▸ ha)]

end HashLevels
