/-
  Revo.Lib.Cells

  Memory as cells: a map from addresses to `Option α`, with `none` for a
  cell never written.  `copy` copies a range from a source memory as it
  was before the copy, so that with the same memory on both sides it is
  `memmove` over overlapping ranges; `fillFn`, `fill` and `fillList` write
  a function, a value or a list over a range.

  `Holds m l` says that the cells from address `0` hold the list `l`.  Each
  lemma below is the list operation that a memory operation performs on
  what the cells hold: opening a gap and filling it is insertion, closing
  one is erasure, writing past the end is appending.
-/

import Mathlib.Data.BitVec

namespace Cells

variable {α : Type}

/-- Cells `d .. d + n - 1` of `dst` get cells `s .. s + n - 1` of `src`. -/
def copy (dst src : Nat → Option α) (d s n : Nat) : Nat → Option α :=
  fun i => if d ≤ i ∧ i < d + n then src (i - d + s) else dst i

/-- Cell `i` of `d .. d + n - 1` gets `f i`. -/
def fillFn (m : Nat → Option α) (d n : Nat) (f : Nat → α) : Nat → Option α :=
  fun i => if d ≤ i ∧ i < d + n then some (f i) else m i

/-- Cells `d .. d + n - 1` get `v`. -/
def fill (m : Nat → Option α) (d n : Nat) (v : α) : Nat → Option α := fillFn m d n fun _ => v

/-- The cells from `d` on get the list `vs`. -/
def fillList (m : Nat → Option α) (d : Nat) (vs : List α) : Nat → Option α :=
  fun i => if d ≤ i ∧ i < d + vs.length then vs[i - d]? else m i

theorem fill_eq_fillList (m : Nat → Option α) (d n : Nat) (v : α) :
    fill m d n v = fillList m d (List.replicate n v) := by
  funext i
  rw [fill, fillFn, fillList, List.length_replicate, List.getElem?_replicate]
  by_cases hi : d ≤ i ∧ i < d + n
  · rw [if_pos hi, if_pos hi, if_pos (by omega)]
  · rw [if_neg hi, if_neg hi]

theorem update_eq_fillList (m : Nat → Option α) (d : Nat) (v : α) :
    Function.update m d (some v) = fillList m d [v] := by
  funext i
  rw [Function.update_apply, fillList, List.length_singleton, List.getElem?_singleton]
  by_cases hi : i = d
  · rw [if_pos hi, if_pos ⟨by omega, by omega⟩, if_pos (by omega)]
  · rw [if_neg hi, if_neg (by omega)]

/-- The cells from `0` hold `l`. -/
def Holds (m : Nat → Option α) (l : List α) : Prop := ∀ i, i < l.length → m i = l[i]?

variable {m : Nat → Option α} {l : List α}

/-- What the cells hold, read back. -/
theorem Holds.read (h : Holds m l) : (List.range l.length).map m = l.map some := by
  apply List.ext_getElem?
  intro i
  rw [List.getElem?_map, List.getElem?_map]
  by_cases hi : i < l.length
  · rw [List.getElem?_range hi, Option.map_some, h i hi, List.getElem?_eq_getElem hi, Option.map_some]
  · rw [List.getElem?_eq_none (by rw [List.length_range]; omega), List.getElem?_eq_none (by omega)]
    rfl

/-- `memcpy` of at least the list to another memory. -/
theorem Holds.copy (h : Holds m l) (dst : Nat → Option α) {n : Nat} (hn : l.length ≤ n) :
    Holds (Cells.copy dst m 0 0 n) l := by
  intro i hi
  rw [Cells.copy, if_pos ⟨Nat.zero_le i, by omega⟩, Nat.sub_zero, Nat.add_zero]
  exact h i hi

/-- The cells of a list. -/
theorem holds_lookup (l : List α) : Holds (fun i => l[i]?) l := fun _ _ => rfl

theorem fillFn_zero (m : Nat → Option α) (d : Nat) (f : Nat → α) : fillFn m d 0 f = m := by
  funext i
  rw [fillFn, if_neg (by omega)]

theorem Holds.append_fillFn (h : Holds m l) (n : Nat) (f : Nat → α) :
    Holds (fillFn m l.length n f) (l ++ (List.range' l.length n).map f) := by
  intro i hi
  rw [List.length_append, List.length_map, List.length_range'] at hi
  rw [fillFn]
  by_cases hil : i < l.length
  · rw [if_neg (by omega), List.getElem?_append_left hil]
    exact h i hil
  · rw [if_pos ⟨by omega, hi⟩, List.getElem?_append_right (by omega), List.getElem?_map,
      List.getElem?_range' (by omega), Option.map_some, Nat.one_mul, Nat.add_sub_cancel' (by omega)]

theorem Holds.append_fill (h : Holds m l) (n : Nat) (v : α) :
    Holds (fill m l.length n v) (l ++ List.replicate n v) := by
  intro i hi
  rw [List.length_append, List.length_replicate] at hi
  rw [fill, fillFn]
  by_cases hil : i < l.length
  · rw [if_neg (by omega), List.getElem?_append_left hil]
    exact h i hil
  · rw [if_pos ⟨by omega, hi⟩, List.getElem?_append_right (by omega), List.getElem?_replicate, if_pos (by omega)]

theorem Holds.append_update (h : Holds m l) (v : α) :
    Holds (Function.update m l.length (some v)) (l ++ [v]) := by
  intro i hi
  rw [List.length_append, List.length_singleton] at hi
  rw [Function.update_apply]
  by_cases hil : i < l.length
  · rw [if_neg (by omega), List.getElem?_append_left hil]
    exact h i hil
  · rw [if_pos (by omega), List.getElem?_append_right (by omega), List.getElem?_singleton, if_pos (by omega)]

/-- Cells that all hold `v`. -/
theorem holds_const (n : Nat) (v : α) : Holds (fun _ => some v) (List.replicate n v) := by
  intro i hi
  rw [List.length_replicate] at hi
  rw [List.getElem?_replicate, if_pos hi]

/-- `memmove` closing the gap `a .. b - 1`: erasure. -/
theorem Holds.erase (h : Holds m l) {a b : Nat} (hab : a ≤ b) (hb : b ≤ l.length) :
    Holds (Cells.copy m m a b (l.length - b)) (l.take a ++ l.drop b) := by
  have htake : (l.take a).length = a := by rw [List.length_take]; omega
  intro i hi
  rw [List.length_append, htake, List.length_drop] at hi
  rw [Cells.copy]
  by_cases hia : i < a
  · rw [if_neg (by omega), List.getElem?_append_left (by omega), List.getElem?_take_of_lt hia]
    exact h i (by omega)
  · rw [if_pos ⟨by omega, by omega⟩, List.getElem?_append_right (by omega), htake, List.getElem?_drop,
      show i - a + b = b + (i - a) by omega]
    exact h _ (by omega)

/-- `memmove` opening a gap for `vs` at `p`, then the gap filled with
    `vs`: insertion. -/
theorem Holds.insert (h : Holds m l) {p : Nat} (hp : p ≤ l.length) (vs : List α) :
    Holds (fillList (Cells.copy m m (p + vs.length) p (l.length - p)) p vs) (l.take p ++ vs ++ l.drop p) := by
  have htake : (l.take p).length = p := by rw [List.length_take]; omega
  intro i hi
  rw [List.length_append, List.length_append, htake, List.length_drop] at hi
  rw [fillList, Cells.copy]
  by_cases hip : i < p
  · rw [if_neg (by omega), if_neg (by omega), List.getElem?_append_left (by rw [List.length_append]; omega),
      List.getElem?_append_left (by omega), List.getElem?_take_of_lt hip]
    exact h i (by omega)
  · by_cases hiv : i < p + vs.length
    · rw [if_pos ⟨by omega, hiv⟩, List.getElem?_append_left (by rw [List.length_append]; omega),
        List.getElem?_append_right (by omega), htake]
    · rw [if_neg (by omega), if_pos ⟨by omega, by omega⟩,
        List.getElem?_append_right (by rw [List.length_append]; omega), List.length_append, htake,
        List.getElem?_drop, show i - (p + vs.length) + p = p + (i - (p + vs.length)) by omega]
      exact h _ (by omega)

end Cells
