/-
  Revo.Lib.Checked

  Signed integer arithmetic whose overflow is undefined.

  In C++ an operation on signed integers of `w` bits has a value only when
  its exact result lies in `[-2 ^ (w - 1), 2 ^ (w - 1))`.  `checked w x` is
  that result, `some x`, or `none` when it leaves the range, so a
  computation written in `Option` returns a value exactly when none of its
  operations overflows.
-/

import Mathlib.Data.BitVec

namespace Checked

/-- The values of a signed integer of `w` bits. -/
def InRange (w : Nat) (x : Int) : Prop := -2 ^ (w - 1) ≤ x ∧ x < 2 ^ (w - 1)

instance (w : Nat) (x : Int) : Decidable (InRange w x) := inferInstanceAs (Decidable (_ ∧ _))

/-- A signed operation of `w` bits whose exact result is `x`. -/
def checked (w : Nat) (x : Int) : Option Int := if InRange w x then some x else none

variable {w : Nat} {x : Int}

theorem checked_of_inRange (h : InRange w x) : checked w x = some x := if_pos h

/-- What a checked operation returns is a value of its type. -/
theorem inRange_of_checked_eq_some {y : Int} (h : checked w x = some y) : InRange w y := by
  unfold checked at h
  split at h
  · rename_i hx
    rw [← Option.some_inj.mp h]
    exact hx
  · cases h

/-- A value that is not negative is in range below the top bit. -/
theorem inRange_of_nonneg (h0 : 0 ≤ x) (h : x < 2 ^ (w - 1)) : InRange w x :=
  ⟨Int.le_trans (Int.neg_nonpos_of_nonneg (Int.le_of_lt (Int.pow_pos (by decide)))) h0, h⟩

end Checked
