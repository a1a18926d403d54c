/-
  Revo.Lib.BoolTree

  Subsets of a list as masks, and the depth-first search of the binary tree
  of masks that a branch-and-bound solver walks with a stack.

    * `select xs m` is the sublist of the entries `m` marks; every sublist is
      one (`exists_select_of_sublist`), and what it sums to is split at any
      point of the list (`select_append`).
    * The search keeps the decisions it has made on a stack, the last one
      on top (`stack.reverse` is the prefix decided).  Including an entry
      pushes `true`; backtracking pops the `false`s on top and turns the
      `true` under them into `false`.  `Todo stack x`: the full mask `x` is
      still ahead of the search, in the subtree of the prefix or in the
      `false` branch of one of its `true`s.  Pushing `true` keeps `Todo`;
      pushing `false` drops the subtree of the `true` not taken; a backtrack
      drops exactly the subtree of the prefix (`todo_backtrack`), and when
      only `false`s are left, every mask still ahead is in that subtree
      (`ext_of_todo_replicate`).
-/

import Mathlib.Data.List.Sublists
import Mathlib.Algebra.Order.BigOperators.Group.List

namespace BoolTree

variable {β : Type}

/-! ## Masks -/

/-- The entries of `xs` that `m` marks. -/
def select : List β → List Bool → List β
  | x :: xs, b :: m => if b then x :: select xs m else select xs m
  | _, _ => []

@[simp] theorem select_nil_left (m : List Bool) : select ([] : List β) m = [] := by
  cases m <;> rfl

@[simp] theorem select_nil_right (xs : List β) : select xs [] = [] := by
  cases xs <;> rfl

theorem select_cons_true (x : β) (xs : List β) (m : List Bool) : select (x :: xs) (true :: m) = x :: select xs m :=
  rfl

theorem select_cons_false (x : β) (xs : List β) (m : List Bool) : select (x :: xs) (false :: m) = select xs m :=
  rfl

/-- Selecting from two lists one after the other, with masks to match. -/
theorem select_append : ∀ (xs ys : List β) (m n : List Bool), xs.length = m.length →
    select (xs ++ ys) (m ++ n) = select xs m ++ select ys n
  | [], _, [], _, _ => rfl
  | x :: xs, ys, b :: m, n, h => by
    rw [List.cons_append, List.cons_append]
    cases b
    · rw [select_cons_false, select_cons_false, select_append xs ys m n (Nat.succ.inj h)]
    · rw [select_cons_true, select_cons_true, select_append xs ys m n (Nat.succ.inj h), List.cons_append]

/-- Entries left unmarked add nothing. -/
theorem select_append_replicate_false : ∀ (xs : List β) (m : List Bool) (k : Nat),
    select xs (m ++ List.replicate k false) = select xs m
  | [], m, k => by rw [select_nil_left, select_nil_left]
  | x :: xs, [], k => by
    cases k with
    | zero => rfl
    | succ k => rw [List.nil_append, List.replicate_succ, select_cons_false, select_nil_right,
        ← List.nil_append (List.replicate k false), select_append_replicate_false xs [] k, select_nil_right]
  | x :: xs, b :: m, k => by
    cases b
    · rw [List.cons_append, select_cons_false, select_cons_false, select_append_replicate_false xs m k]
    · rw [List.cons_append, select_cons_true, select_cons_true, select_append_replicate_false xs m k]

/-- A mask only reads as far as it goes. -/
theorem select_take (xs : List β) (m : List Bool) : select (xs.take m.length) m = select xs m := by
  induction xs generalizing m with
  | nil => rw [List.take_nil]
  | cons x xs ih =>
    cases m with
    | nil => rw [select_nil_right, select_nil_right]
    | cons b m =>
      rw [List.length_cons, List.take_succ_cons]
      cases b
      · rw [select_cons_false, select_cons_false, ih]
      · rw [select_cons_true, select_cons_true, ih]

theorem select_sublist : ∀ (xs : List β) (m : List Bool), (select xs m).Sublist xs
  | [], m => by rw [select_nil_left]
  | _ :: _, [] => List.nil_sublist _
  | x :: xs, true :: m => by rw [select_cons_true]; exact (select_sublist xs m).cons_cons x
  | x :: xs, false :: m => by rw [select_cons_false]; exact (select_sublist xs m).cons x

/-- Every sublist is what a mask of the list's length selects. -/
theorem exists_select_of_sublist {S xs : List β} (h : S.Sublist xs) :
    ∃ m : List Bool, m.length = xs.length ∧ select xs m = S := by
  induction h with
  | slnil => exact ⟨[], rfl, rfl⟩
  | cons x _ ih =>
    obtain ⟨m, hm, hsel⟩ := ih
    exact ⟨false :: m, by rw [List.length_cons, List.length_cons, hm], by rw [select_cons_false, hsel]⟩
  | cons_cons x _ ih =>
    obtain ⟨m, hm, hsel⟩ := ih
    exact ⟨true :: m, by rw [List.length_cons, List.length_cons, hm], by rw [select_cons_true, hsel]⟩

section Sums

variable {M : Type} [AddCommMonoid M] [PartialOrder M] [IsOrderedAddMonoid M] (f : β → M)

/-- Nonnegative weights: a selection weighs no more than the list. -/
theorem sum_select_le {xs : List β} (hf : ∀ x ∈ xs, 0 ≤ f x) (m : List Bool) :
    ((select xs m).map f).sum ≤ (xs.map f).sum :=
  ((select_sublist xs m).map f).sum_le_sum fun y hy => by
    obtain ⟨x, hx, rfl⟩ := List.mem_map.mp hy
    exact hf x hx

theorem sum_select_nonneg {xs : List β} (hf : ∀ x ∈ xs, 0 ≤ f x) (m : List Bool) : 0 ≤ ((select xs m).map f).sum :=
  List.sum_nonneg fun y hy => by
    obtain ⟨x, hx, rfl⟩ := List.mem_map.mp hy
    exact hf x ((select_sublist xs m).subset hx)

end Sums

/-! ## The search stack -/

/-- The full mask `x` extends the prefix the stack has decided. -/
def Ext (stack x : List Bool) : Prop := x.take stack.length = stack.reverse

/-- The masks still ahead of the search: in the subtree of the prefix, or in
    the `false` branch of one of its `true`s. -/
def Todo : List Bool → List Bool → Prop
  | [], _ => True
  | true :: stack, x => Todo stack x
  | false :: stack, x => Todo stack x ∧ ¬Ext (true :: stack) x

theorem ext_nil (x : List Bool) : Ext [] x := by
  rw [Ext, List.length_nil, List.take_zero, List.reverse_nil]

/-- A full mask extending the prefix is the prefix and the rest of it. -/
theorem eq_append_of_ext {stack x : List Bool} (h : Ext stack x) : x = stack.reverse ++ x.drop stack.length := by
  rw [← h, List.take_append_drop]

theorem ext_reverse_append (stack w : List Bool) : Ext stack (stack.reverse ++ w) := by
  rw [Ext, List.take_left' List.length_reverse]

/-- Every stack is `false`s on top of a `true`, or only `false`s. -/
theorem exists_replicate_false_append : ∀ stack : List Bool,
    ∃ m rest, stack = List.replicate m false ++ rest ∧ (rest = [] ∨ ∃ r, rest = true :: r)
  | [] => ⟨0, [], rfl, Or.inl rfl⟩
  | true :: r => ⟨0, true :: r, rfl, Or.inr ⟨r, rfl⟩⟩
  | false :: stack => by
    obtain ⟨m, rest, h, hrest⟩ := exists_replicate_false_append stack
    exact ⟨m + 1, rest, by rw [h, List.replicate_succ, List.cons_append], hrest⟩

/-- A mask extending the prefix takes one of the two branches below it. -/
theorem ext_cons_of_ext {stack x : List Bool} (h : Ext stack x) (hlen : stack.length < x.length) :
    Ext (x[stack.length] :: stack) x := by
  rw [Ext, List.length_cons, List.reverse_cons, List.take_add_one, List.getElem?_eq_getElem hlen, h]
  rfl

theorem ext_true_or_false {stack x : List Bool} (h : Ext stack x) (hlen : stack.length < x.length) :
    Ext (true :: stack) x ∨ Ext (false :: stack) x := by
  have hext := ext_cons_of_ext h hlen
  cases hb : x[stack.length]
  · rw [hb] at hext
    exact Or.inr hext
  · rw [hb] at hext
    exact Or.inl hext

/-- A backtrack from `falses ++ true :: rest` to `false :: rest` passes over
    exactly the subtree of the stack. -/
theorem todo_backtrack (rest x : List Bool) : ∀ m : Nat, m + 1 + rest.length ≤ x.length →
    Todo (List.replicate m false ++ true :: rest) x → ¬Ext (List.replicate m false ++ true :: rest) x →
      Todo (false :: rest) x
  | 0, _, htodo, hext => ⟨htodo, hext⟩
  | m + 1, hlen, htodo, hext => by
    rw [List.replicate_succ, List.cons_append] at htodo hext
    refine todo_backtrack rest x m (by omega) htodo.1 fun hbelow => ?_
    -- below the top `false`, the mask took neither branch
    have hl : (List.replicate m false ++ true :: rest).length < x.length := by
      rw [List.length_append, List.length_replicate, List.length_cons]
      omega
    rcases ext_true_or_false hbelow hl with ht | hf
    · exact htodo.2 ht
    · exact hext hf

/-- After a backtrack, a mask no longer ahead was passed before it, or lies
    in the subtree the backtrack leaves. -/
theorem not_todo_or_ext_of_backtrack (rest x : List Bool) (m : Nat) (hlen : m + 1 + rest.length ≤ x.length)
    (h : ¬Todo (false :: rest) x) :
    ¬Todo (List.replicate m false ++ true :: rest) x ∨ Ext (List.replicate m false ++ true :: rest) x := by
  by_cases htodo : Todo (List.replicate m false ++ true :: rest) x
  · by_cases hext : Ext (List.replicate m false ++ true :: rest) x
    · exact Or.inr hext
    · exact absurd (todo_backtrack rest x m hlen htodo hext) h
  · exact Or.inl htodo

/-- With only `false`s on the stack, every mask still ahead extends them. -/
theorem ext_of_todo_replicate (x : List Bool) : ∀ m : Nat, m ≤ x.length →
    Todo (List.replicate m false) x → Ext (List.replicate m false) x
  | 0, _, _ => ext_nil x
  | m + 1, hlen, htodo => by
    rw [List.replicate_succ] at htodo ⊢
    have hbelow := ext_of_todo_replicate x m (by omega) htodo.1
    rcases ext_true_or_false hbelow (by rw [List.length_replicate]; omega) with ht | hf
    · exact absurd ht htodo.2
    · exact hf

end BoolTree
