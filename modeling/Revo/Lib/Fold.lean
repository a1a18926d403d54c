/-
  Revo.Lib.Fold

  Reasoning rules for monadic left folds, the shape of a validation loop
  that stops at the first failure.

    * `Fold.foldlM_except_rel` is the safety rule: a relation between the
      processed prefix and the state that every successful step keeps holds
      after a successful fold.
    * `Fold.foldlM_option_progress` is the progress rule: when every step
      from a related state succeeds and keeps the relation, so does the fold.
    * `Fold.foldl_range_inv` is the rule of a counted loop
      `for (i = 0; i < n; i++)`, a fold over `List.range n`: an invariant of
      the first `i` iterations that iteration `i` keeps holds after all `n`.
-/

import Mathlib.Logic.Basic

namespace Fold

variable {ε α β σ : Type}

theorem except_bind_eq_ok {x : Except ε α} {f : α → Except ε β} {b : β}
    (h : x.bind f = .ok b) : ∃ a, x = .ok a ∧ f a = .ok b := by
  cases x with
  | error e => cases h
  | ok a => exact ⟨a, rfl, h⟩

theorem except_map_eq_ok {x : Except ε α} {f : α → β} {b : β}
    (h : x.map f = .ok b) : ∃ a, x = .ok a ∧ f a = b := by
  cases x with
  | error e => cases h
  | ok a =>
    cases h
    exact ⟨a, rfl, rfl⟩

/-- The safety rule for an `Except` fold: `R pre s` relates the entries
    processed so far to the state. -/
theorem foldlM_except_rel {f : σ → α → Except ε σ} (R : List α → σ → Prop) (l : List α)
    (hstep : ∀ pre a s s', a ∈ l → R pre s → f s a = .ok s' → R (pre ++ [a]) s')
    (pre : List α) (s : σ) {s' : σ} (hs : R pre s) (h : l.foldlM f s = .ok s') :
    R (pre ++ l) s' := by
  induction l generalizing pre s with
  | nil =>
    cases h
    rw [List.append_nil]
    exact hs
  | cons a l ih =>
    rw [List.foldlM_cons] at h
    obtain ⟨s₁, h₁, hrest⟩ := except_bind_eq_ok h
    have hs₁ : R (pre ++ [a]) s₁ := hstep pre a s s₁ List.mem_cons_self hs h₁
    have := ih (fun pre b s s' hb => hstep pre b s s' (List.mem_cons_of_mem a hb)) _ _ hs₁ hrest
    rwa [List.append_assoc, List.singleton_append] at this

/-- The progress rule for an `Option` fold. -/
theorem foldlM_option_progress {f : σ → α → Option σ} (R : List α → σ → Prop) (l : List α)
    (hstep : ∀ pre a s, a ∈ l → R pre s → ∃ s', f s a = some s' ∧ R (pre ++ [a]) s')
    (pre : List α) (s : σ) (hs : R pre s) : ∃ s', l.foldlM f s = some s' ∧ R (pre ++ l) s' := by
  induction l generalizing pre s with
  | nil => exact ⟨s, rfl, by rw [List.append_nil]; exact hs⟩
  | cons a l ih =>
    obtain ⟨s₁, h₁, hs₁⟩ := hstep pre a s List.mem_cons_self hs
    obtain ⟨s', hrest, hs'⟩ :=
      ih (fun pre b s hb => hstep pre b s (List.mem_cons_of_mem a hb)) _ _ hs₁
    refine ⟨s', ?_, ?_⟩
    · rw [List.foldlM_cons, h₁]
      exact hrest
    · rwa [List.append_assoc, List.singleton_append] at hs'

/-- The rule of a counted loop: `P i s` says what the first `i` iterations
    have made of the state. -/
theorem foldl_range_inv {f : σ → Nat → σ} (P : Nat → σ → Prop) (n : Nat) {s : σ} (h0 : P 0 s)
    (hstep : ∀ i s, i < n → P i s → P (i + 1) (f s i)) : P n ((List.range n).foldl f s) := by
  induction n with
  | zero => exact h0
  | succ n ih =>
    rw [List.range_succ, List.foldl_append, List.foldl_cons, List.foldl_nil]
    exact hstep n _ (Nat.lt_succ_self n) (ih fun i s hi => hstep i s (Nat.lt_succ_of_lt hi))

end Fold
