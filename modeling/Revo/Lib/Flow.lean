/-
  Revo.Lib.Flow

  Flows over a list of transfers.  A transfer is anything with a source, a
  destination and a value; `total key val l a` adds up the values of the
  transfers of `l` whose `key` is `a`.  Received and sent amounts are the two
  instances `key := dst` and `key := src`, and the net flow of an address is
  their difference.

  The one non-trivial fact is the fibre decomposition `sum_total_eq`: summing
  the per-address totals over any set of addresses that contains every key
  gives the total value of the list, whatever the order or multiplicity of
  the transfers.  Conservation of a ledger update is this fact applied once
  to the destinations and once to the sources.
-/

import Mathlib.Algebra.BigOperators.Group.Finset.Piecewise
import Mathlib.Algebra.BigOperators.Group.List.Basic
import Mathlib.Tactic.Abel

namespace Flow

variable {τ α M : Type} [DecidableEq α]

section Monoid

variable [AddCommMonoid M]

/-- The total value of the transfers of `l` whose `key` is `a`. -/
def total (key : τ → α) (val : τ → M) (l : List τ) (a : α) : M :=
  ((l.filter (fun t => key t = a)).map val).sum

@[simp] theorem total_nil (key : τ → α) (val : τ → M) (a : α) :
    total key val [] a = 0 := rfl

theorem total_cons (key : τ → α) (val : τ → M) (t : τ) (l : List τ) (a : α) :
    total key val (t :: l) a = (if key t = a then val t else 0) + total key val l a := by
  unfold total
  by_cases h : key t = a <;> simp [h]

theorem total_append (key : τ → α) (val : τ → M) (l₁ l₂ : List τ) (a : α) :
    total key val (l₁ ++ l₂) a = total key val l₁ a + total key val l₂ a := by
  simp [total, List.filter_append]

theorem total_concat (key : τ → α) (val : τ → M) (l : List τ) (t : τ) (a : α) :
    total key val (l ++ [t]) a = total key val l a + (if key t = a then val t else 0) := by
  rw [total_append, total_cons, total_nil, add_zero]

theorem total_eq_zero (key : τ → α) (val : τ → M) {l : List τ} {a : α}
    (h : ∀ t ∈ l, key t ≠ a) : total key val l a = 0 := by
  have hnil : l.filter (fun t => key t = a) = [] := by
    rw [List.filter_eq_nil_iff]
    intro t ht
    simpa using h t ht
  simp [total, hnil]

/-- Totals do not depend on the order of the transfers. -/
theorem total_perm (key : τ → α) (val : τ → M) {l₁ l₂ : List τ} (h : l₁.Perm l₂) (a : α) :
    total key val l₁ a = total key val l₂ a :=
  ((h.filter _).map val).sum_eq

/-- Summing over a filtered list is summing the indicator over the list. -/
theorem sum_map_filter (p : τ → Bool) (f : τ → M) (l : List τ) :
    ((l.filter p).map f).sum = (l.map fun t => if p t then f t else 0).sum := by
  induction l with
  | nil => simp
  | cons t rest ih =>
    rw [List.filter_cons]
    by_cases h : p t <;> simp [h, ih]

/-- Fibre decomposition: the per-key totals over a set containing every key
    add up to the total value of the list. -/
theorem sum_total_eq (key : τ → α) (val : τ → M) (l : List τ) (A : Finset α)
    (hA : ∀ t ∈ l, key t ∈ A) :
    ∑ a ∈ A, total key val l a = (l.map val).sum := by
  induction l with
  | nil => simp
  | cons t rest ih =>
    have hrest : ∀ u ∈ rest, key u ∈ A := fun u hu => hA u (List.mem_cons_of_mem t hu)
    have hmem : key t ∈ A := hA t List.mem_cons_self
    simp only [total_cons, Finset.sum_add_distrib, ih hrest, List.map_cons, List.sum_cons]
    rw [Finset.sum_ite_eq A (key t) (fun _ => val t), if_pos hmem]

end Monoid

section Group

variable [AddCommGroup M]

/-- Net flow of `a`: what it receives minus what it sends. -/
def net (src dst : τ → α) (val : τ → M) (l : List τ) (a : α) : M :=
  total dst val l a - total src val l a

theorem net_perm (src dst : τ → α) (val : τ → M) {l₁ l₂ : List τ} (h : l₁.Perm l₂)
    (a : α) : net src dst val l₁ a = net src dst val l₂ a := by
  simp only [net, total_perm _ _ h]

theorem net_append (src dst : τ → α) (val : τ → M) (l₁ l₂ : List τ) (a : α) :
    net src dst val (l₁ ++ l₂) a = net src dst val l₁ a + net src dst val l₂ a := by
  simp only [net, total_append]
  abel

end Group

end Flow
