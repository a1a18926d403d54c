/-
  Revo.Lib.Rounding

  Splitting an amount by a percentage rounded down, and reading the
  percentage back by rounding up.  A total `R` is split into the share
  `⌊R * f / d⌋` and the rest; the ceiling `⌈share * d / R⌉` gives back `f`
  exactly when the remainder `R * f % d` is below `R`, so always once
  `d ≤ R`, and never for a small `R` with a large remainder.

  C++ divides `int64_t`s truncating towards zero (`Int.tdiv`); on the
  non-negative operands used here that is the division of the naturals, so
  the splits are stated on `Nat`, with the casts of `tdiv` and `tmod` that
  carry them to the models' `Int`s.
-/

import Mathlib.Data.Int.Init
import Mathlib.Tactic.Ring

namespace Rounding

/-! ## Over the naturals -/

/-- Rounding the share up recovers the percentage iff the remainder of the
    split is smaller than the total. -/
theorem ceil_share_eq_iff {R d : Nat} (f : Nat) (hR : 0 < R) :
    (R * f / d * d + R - 1) / R = f ↔ R * f % d < R := by
  rw [Nat.div_eq_iff hR]
  have hsplit := Nat.div_add_mod (R * f) d
  have hcomm : f * R = R * f := Nat.mul_comm f R
  have hdiv : R * f / d * d = d * (R * f / d) := Nat.mul_comm _ _
  constructor
  · rintro ⟨hlo, -⟩
    omega
  · intro hrem
    constructor <;> omega

/-- The last of `r` pieces takes the remainder. -/
theorem sub_pieces_eq {r : Nat} (T : Nat) (hr : 0 < r) : T - T / r * (r - 1) = T / r + T % r := by
  have hsplit := Nat.div_add_mod T r
  -- `r` pieces of `T / r` are `r - 1` of them and one more
  have hpieces : T / r * (r - 1) + T / r = r * (T / r) := by
    obtain ⟨k, rfl⟩ : ∃ k, r = k + 1 := ⟨r - 1, by omega⟩
    rw [Nat.add_sub_cancel]
    ring
  generalize T / r * (r - 1) = c at *
  generalize r * (T / r) = P at *
  generalize T / r = q at *
  generalize T % r = m at *
  omega

/-! ## Truncating division on non-negative integers -/

theorem tdiv_natCast (m n : Nat) : (m : Int).tdiv n = ((m / n : Nat) : Int) :=
  (Int.ofNat_tdiv m n).symm

theorem tmod_natCast (m n : Nat) : (m : Int).tmod n = ((m % n : Nat) : Int) :=
  (Int.ofNat_tmod m n).symm

/-- The `Int.tdiv` form of `sub_pieces_eq`. -/
theorem sub_pieces_tdiv_eq {r : Nat} (T : Nat) (hr : 0 < r) :
    (T : Int) - (T : Int).tdiv r * ((r : Int) - 1) = (T : Int).tdiv r + (T : Int).tmod r := by
  have h := sub_pieces_eq T hr
  have hle : T / r * (r - 1) ≤ T := by
    calc T / r * (r - 1) ≤ T / r * r := Nat.mul_le_mul_left _ (Nat.sub_le r 1)
      _ ≤ T := Nat.div_mul_le_self T r
  have hcast := congrArg (Nat.cast : Nat → Int) h
  rw [Nat.cast_sub hle, Nat.cast_mul, Nat.cast_sub hr, Nat.cast_add] at hcast
  rw [tdiv_natCast, tmod_natCast]
  exact hcast

end Rounding
