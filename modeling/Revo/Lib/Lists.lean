/-
  Revo.Lib.Lists

  List facts for searches over a list that is edited in place: `findIdx?`
  agrees on two lists related entry by entry, `modify` keeps such a relation
  when the new entry is related too, and filtering a duplicate-free list by
  membership in a sublist gives the sublist back.  For byte patterns checked
  entry by entry, a prefix and a suffix are the entries read by index, and a
  list is cut into a prefix, a stretch and the rest.  `resize` is the
  resize of a vector: cut to a length, or filled up to it.

  For a list read as pieces one after another, `endOffsets` are the offsets
  where the pieces end; cutting the joined list at the end of piece `j`
  gives the first `j` pieces and the rest.

  A scan that skips what `p` accepts (`takeWhile`, `dropWhile`) stops at a
  head `p` rejects: a stretch `p` accepts followed by such a rest is cut
  between the two.  `rfind` finds the last occurrence, and cuts the list
  around it.
-/

import Mathlib.Data.List.Forall2
import Mathlib.Data.List.GetD
import Mathlib.Data.List.Nodup
import Mathlib.Data.List.TakeWhile

namespace Lists

variable {α β : Type}

/-- Searches with predicates that agree entry by entry find the same index. -/
theorem findIdx?_eq_of_forall₂ {p : α → Bool} {q : β → Bool} {l₁ : List α} {l₂ : List β}
    (h : List.Forall₂ (fun a b => p a = q b) l₁ l₂) : l₁.findIdx? p = l₂.findIdx? q := by
  induction h with
  | nil => rfl
  | cons hab _ ih => simp [List.findIdx?_cons, hab, ih]

/-- Editing one entry keeps an entry-by-entry relation when the edit keeps
    that entry related to its partner. -/
theorem forall₂_modify {R : α → β → Prop} {l₁ : List α} {l₂ : List β} (f : α → α)
    (h : List.Forall₂ R l₁ l₂) (i : Nat)
    (hi : ∀ (h₁ : i < l₁.length) (h₂ : i < l₂.length), R l₁[i] l₂[i] → R (f l₁[i]) l₂[i]) :
    List.Forall₂ R (l₁.modify i f) l₂ := by
  induction h generalizing i with
  | nil => simp
  | cons hab hrest ih =>
    cases i with
    | zero => exact List.Forall₂.cons (hi (by simp) (by simp) hab) hrest
    | succ i =>
      rw [List.modify_succ_cons]
      exact List.Forall₂.cons hab (ih i fun h₁ h₂ => hi (by simpa using h₁) (by simpa using h₂))

/-- In a list without duplicates, the entries that belong to a sublist are the sublist. -/
theorem filter_mem_of_sublist [DecidableEq α] {S T : List α} (h : S.Sublist T) (hT : T.Nodup) :
    T.filter (· ∈ S) = S := by
  induction h with
  | slnil => rfl
  | @cons S T a hsub ih =>
    -- `a` is skipped by the sublist, and occurs nowhere else
    obtain ⟨hnot, hT'⟩ := List.nodup_cons.mp hT
    have haS : a ∉ S := fun ha => hnot (hsub.subset ha)
    rw [List.filter_cons_of_neg (by simpa using haS), ih hT']
  | @cons_cons S T a hsub ih =>
    -- `a` is kept; no other entry is `a`, so membership in `a :: S` is membership in `S`
    obtain ⟨hnot, hT'⟩ := List.nodup_cons.mp hT
    rw [List.filter_cons_of_pos (by simp), ← ih hT']
    congr 1
    apply List.filter_congr
    intro x hx
    have hxa : x ≠ a := fun hxa => hnot (hxa ▸ hx)
    simp [hxa, hx]

/-- A prefix is its entries read by index. -/
theorem take_eq_map_getD (l : List α) (d : α) {k : Nat} (hk : k ≤ l.length) :
    l.take k = (List.range k).map fun i => l.getD i d := by
  apply List.ext_getElem
  · rw [List.length_take, List.length_map, List.length_range, Nat.min_eq_left hk]
  · intro i h₁ h₂
    rw [List.getElem_take, List.getElem_map, List.getElem_range, List.getD_eq_getElem]

/-- A suffix is its entries read by index. -/
theorem drop_eq_map_getD (l : List α) (d : α) (k : Nat) :
    l.drop k = (List.range (l.length - k)).map fun i => l.getD (k + i) d := by
  apply List.ext_getElem
  · rw [List.length_drop, List.length_map, List.length_range]
  · intro i h₁ h₂
    rw [List.getElem_drop, List.getElem_map, List.getElem_range, List.getD_eq_getElem]

/-- A list is its first `i` entries, the `k` after them, and the rest. -/
theorem eq_take_append_take_drop (l : List α) (i k : Nat) :
    l = l.take i ++ (l.drop i).take k ++ l.drop (i + k) := by
  rw [List.append_assoc, ← List.drop_drop, List.take_append_drop, List.take_append_drop]

theorem getD_take_drop (l : List α) (d : α) {i j k : Nat} (hj : j < k) :
    ((l.drop i).take k).getD j d = l.getD (i + j) d := by
  rw [List.getD_eq_getElem?_getD, List.getElem?_take_of_lt hj, List.getElem?_drop,
    List.getD_eq_getElem?_getD]

theorem eq_getD_cons_drop (l : List α) (d : α) (h : l ≠ []) : l = l.getD 0 d :: l.drop 1 := by
  cases l with
  | nil => exact absurd rfl h
  | cons a l => rfl

theorem getD_modify (l : List α) (f : α → α) (i : Nat) {p : Nat} (hp : p < l.length) (d : α) :
    (l.modify i f).getD p d = if i = p then f (l.getD p d) else l.getD p d := by
  rw [List.getD_eq_getElem _ _ (by rw [List.length_modify]; exact hp), List.getElem_modify,
    List.getD_eq_getElem _ _ hp]

/-- A vector resized to `n` entries: cut, or filled up with `value`. -/
def resize (l : List α) (n : Nat) (value : α) : List α := l.take n ++ List.replicate (n - l.length) value

@[simp] theorem length_resize (l : List α) (n : Nat) (value : α) : (resize l n value).length = n := by
  rw [resize, List.length_append, List.length_take, List.length_replicate]
  omega

/-! ## Pieces joined one after another -/

/-- The offsets where the pieces `cs` end, the first beginning at `n`. -/
def endOffsets (n : Nat) : List (List α) → List Nat
  | [] => []
  | c :: cs => (n + c.length) :: endOffsets (n + c.length) cs

@[simp] theorem length_endOffsets (n : Nat) (cs : List (List α)) : (endOffsets n cs).length = cs.length := by
  induction cs generalizing n with
  | nil => rfl
  | cons c cs ih => rw [endOffsets, List.length_cons, ih, List.length_cons]

/-- Entry `j` of `n :: endOffsets n cs` is where piece `j` begins. -/
theorem getD_cons_endOffsets (cs : List (List α)) (n : Nat) {j : Nat} (hj : j ≤ cs.length) :
    (n :: endOffsets n cs).getD j 0 = n + (cs.take j).flatten.length := by
  induction cs generalizing n j with
  | nil =>
    rw [List.length_nil, Nat.le_zero] at hj
    rw [hj, List.getD_cons_zero, List.take_zero, List.flatten_nil, List.length_nil, Nat.add_zero]
  | cons c cs ih =>
    cases j with
    | zero => rw [List.getD_cons_zero, List.take_zero, List.flatten_nil, List.length_nil, Nat.add_zero]
    | succ j =>
      rw [endOffsets, List.getD_cons_succ, ih (n + c.length) (by rw [List.length_cons] at hj; omega),
        List.take_succ_cons, List.flatten_cons, List.length_append]
      omega

theorem flatten_eq_take_append_drop (cs : List (List α)) (j : Nat) :
    cs.flatten = (cs.take j).flatten ++ (cs.drop j).flatten := by
  rw [← List.flatten_append, List.take_append_drop]

/-- Cut where piece `j` begins, joined pieces leave the first `j` pieces in front... -/
theorem take_flatten_append (cs : List (List α)) (u : List α) (j : Nat) :
    (cs.flatten ++ u).take (cs.take j).flatten.length = (cs.take j).flatten := by
  rw [flatten_eq_take_append_drop cs j, List.append_assoc, List.take_left' rfl]

/-- ... and the later pieces, with what follows them, behind. -/
theorem drop_flatten_append (cs : List (List α)) (u : List α) (j : Nat) :
    (cs.flatten ++ u).drop (cs.take j).flatten.length = (cs.drop j).flatten ++ u := by
  rw [flatten_eq_take_append_drop cs j, List.append_assoc, List.drop_left' rfl]

/-- Reading a nonempty piece `c` at offset `pc` moves to `pc + c.length`,
    where the rest begins. -/
theorem drop_add_of_drop_eq {l c rest : List α} {pc : Nat} (h : l.drop pc = c ++ rest) (hc : c ≠ []) :
    l.length - rest.length = pc + c.length ∧ l.drop (pc + c.length) = rest := by
  have hlen := congrArg List.length h
  rw [List.length_drop, List.length_append] at hlen
  have hpos : 0 < c.length := List.length_pos_iff.mpr hc
  refine ⟨by omega, ?_⟩
  rw [← List.drop_drop, h, List.drop_left' rfl]

/-- A list whose head `p` rejects is its own `dropWhile p`. -/
theorem dropWhile_of_head {p : α → Bool} {l : List α} (h : ∀ a ∈ l.head?, p a = false) :
    l.dropWhile p = l := by
  cases l with
  | nil => rfl
  | cons a l => exact List.dropWhile_cons_of_neg (by simpa using h a rfl)

/-- `dropWhile p` stops at a head `p` rejects. -/
theorem head?_dropWhile (p : α → Bool) (l : List α) : ∀ a ∈ (l.dropWhile p).head?, p a = false := by
  intro a ha
  have hstop := List.head?_dropWhile_not p l
  rw [Option.mem_def.mp ha] at hstop
  exact hstop

/-- A stretch that `p` accepts, then a rest whose head it rejects:
    `takeWhile` and `dropWhile` cut between them. -/
theorem takeWhile_dropWhile_append {p : α → Bool} {w rest : List α} (hw : ∀ a ∈ w, p a = true)
    (hrest : ∀ a ∈ rest.head?, p a = false) :
    (w ++ rest).takeWhile p = w ∧ (w ++ rest).dropWhile p = rest := by
  refine ⟨?_, by rw [List.dropWhile_append_of_pos hw, dropWhile_of_head hrest]⟩
  rw [List.takeWhile_append_of_pos hw]
  cases rest with
  | nil => rw [List.takeWhile_nil, List.append_nil]
  | cons a rest => rw [List.takeWhile_cons_of_neg (by simpa using hrest a rfl), List.append_nil]

/-- What `takeWhile (· = a)` keeps is a run of `a`. -/
theorem takeWhile_eq_replicate [DecidableEq α] (l : List α) (a : α) :
    l.takeWhile (· = a) = List.replicate (l.takeWhile (· = a)).length a :=
  List.eq_replicate_iff.mpr ⟨rfl, fun x hx => by simpa using List.mem_takeWhile_imp hx⟩

/-- A table checked entry by entry with its index, `zipIdx.all`, holds at
    every index, read with `getD`. -/
theorem all_zipIdx_getD {l : List α} {f : α × Nat → Bool} (h : l.zipIdx.all f = true) (d : α) {n : Nat}
    (hn : n < l.length) : f (l.getD n d, n) = true :=
  List.all_eq_true.mp h _ (List.mem_zipIdx_iff_getElem?.mpr (by rw [List.getD_eq_getElem?_getD, List.getElem?_eq_getElem hn]; rfl))

/-! ## The last occurrence -/

/-- The index of the last `a` in the list, as `std::string::rfind` finds it. -/
def rfind [DecidableEq α] (a : α) : List α → Option Nat
  | [] => none
  | b :: l =>
    match rfind a l with
    | some i => some (i + 1)
    | none => if b = a then some 0 else none

section Rfind

variable [DecidableEq α] {a : α}

theorem rfind_nil : rfind a [] = none := rfl

theorem rfind_cons (b : α) (l : List α) :
    rfind a (b :: l) = match rfind a l with
      | some i => some (i + 1)
      | none => if b = a then some 0 else none := rfl

theorem rfind_eq_none {l : List α} (h : a ∉ l) : rfind a l = none := by
  induction l with
  | nil => rfl
  | cons b l ih =>
    rw [rfind_cons, ih fun ha => h (List.mem_cons_of_mem b ha)]
    exact if_neg fun (hb : b = a) => h (hb ▸ List.mem_cons_self)

/-- With no `a` after it, the `a` after `xs` is the last one. -/
theorem rfind_append_cons (xs : List α) {ys : List α} (hys : a ∉ ys) : rfind a (xs ++ a :: ys) = some xs.length := by
  induction xs with
  | nil => rw [List.nil_append, rfind_cons, rfind_eq_none hys, List.length_nil]; exact if_pos rfl
  | cons x xs ih => rw [List.cons_append, rfind_cons, ih, List.length_cons]

/-- Where `rfind` finds `a`, the list is cut around an `a`. -/
theorem rfind_eq_some {l : List α} {i : Nat} (h : rfind a l = some i) : l.take i ++ a :: l.drop (i + 1) = l := by
  induction l generalizing i with
  | nil => cases h
  | cons b l ih =>
    rw [rfind_cons] at h
    cases hl : rfind a l with
    | some j =>
      rw [hl] at h
      cases h
      rw [List.take_succ_cons, List.drop_succ_cons, List.cons_append, ih hl]
    | none =>
      rw [hl] at h
      by_cases hb : b = a
      · rw [if_pos hb] at h
        cases h
        rw [List.take_zero, List.nil_append, List.drop_one, List.tail_cons, hb]
      · rw [if_neg hb] at h
        cases h

end Rfind

end Lists
