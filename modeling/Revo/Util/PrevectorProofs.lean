/-
  Revo.Util.PrevectorProofs

  `prevector` refines a list.  `Shape N s n` is the representation of `n`
  elements: in the direct form `_size` is `n ≤ N`, in the indirect form it is
  `n + N + 1` and `n` fits the heap buffer.  `Refines N s l` adds that the
  cells `item_ptr` reads hold `l`.  Each operation keeps `Refines` with the
  list operation of `std::vector`, on counts below `2^31` (`N` too): that is
  the bound under which `_size + N + 1`, the growth by half and the
  `int32_t` differences do not wrap.

  The operations are built from three moves on the state, each with its own
  lemma: `change_capacity` (`changeCapacity_refines`), a write through
  `item_ptr` (`Shape.setCells`, `items_setItems`), and a change of `_size`
  that keeps the form (`Shape.addSize`, `Shape.subSize`).  The store of
  prevectors then refines the store of lists over every valid run
  (`run_refines`).  Without the bound the counts wrap: `resize(2^32 - 1)` of
  an empty `prevector<28, T>` leaves `_size = 28`, the direct form, and
  `size() = 28`.
-/

import Revo.Util.Prevector
import Revo.Lib.Bits

namespace Revo

namespace Prevector

variable {T : Type} {N : UInt32}

/-! ## Fields -/

@[simp] theorem setCells_size (d : Bool) (s : Prevector T) (m : Nat → Option T) :
    (setCells d s m)._size = s._size := by cases d <;> rfl

@[simp] theorem setCells_indirectCapacity (d : Bool) (s : Prevector T) (m : Nat → Option T) :
    (setCells d s m).indirectCapacity = s.indirectCapacity := by cases d <;> rfl

@[simp] theorem cells_setCells (d : Bool) (s : Prevector T) (m : Nat → Option T) :
    cells d (setCells d s m) = m := by cases d <;> rfl

/-- A change of `_size` alone keeps the cells. -/
@[simp] theorem cells_withSize (d : Bool) (s : Prevector T) (x : UInt32) :
    cells d { s with _size := x } = cells d s := by cases d <;> rfl

theorem isDirect_iff (s : Prevector T) : isDirect N s = true ↔ s._size.toNat ≤ N.toNat := by
  rw [isDirect, decide_eq_true_iff, UInt32.le_iff_toNat_le]

theorem isDirect_setCells (d : Bool) (s : Prevector T) (m : Nat → Option T) :
    isDirect N (setCells d s m) = isDirect N s := by
  rw [isDirect, isDirect, setCells_size]

theorem items_setItems (s : Prevector T) (m : Nat → Option T) : items N (setItems N s m) = m := by
  rw [items, setItems, isDirect_setCells, cells_setCells]

theorem capacity_setCells (d : Bool) (s : Prevector T) (m : Nat → Option T) :
    capacity N (setCells d s m) = capacity N s := by
  rw [capacity, capacity, isDirect_setCells, setCells_indirectCapacity]

theorem isDirect_setItems (s : Prevector T) (m : Nat → Option T) : isDirect N (setItems N s m) = isDirect N s :=
  isDirect_setCells _ s m

theorem capacity_setItems (s : Prevector T) (m : Nat → Option T) : capacity N (setItems N s m) = capacity N s :=
  capacity_setCells _ s m

/-! ## The representation invariant -/

/-- `n` elements in the direct form, or in the indirect form within the
    heap buffer. -/
inductive Shape (N : UInt32) (s : Prevector T) (n : Nat) : Prop
  | direct (hsize : s._size.toNat = n) (hn : n ≤ N.toNat)
  | indirect (hsize : s._size.toNat = n + N.toNat + 1) (hcap : n ≤ s.indirectCapacity.toNat)

variable {s : Prevector T} {n : Nat}

theorem Shape.size_toNat (h : Shape N s n) : (size N s).toNat = n := by
  cases h with
  | direct hsize hn =>
    rw [size, if_pos ((isDirect_iff s).2 (by omega)), hsize]
  | indirect hsize hcap =>
    have hdir : isDirect N s = false := by
      rw [Bool.eq_false_iff, ne_eq, isDirect_iff]
      omega
    have hN : N ≤ s._size := UInt32.le_iff_toNat_le.2 (by omega)
    have h1 : 1 ≤ s._size - N := UInt32.le_iff_toNat_le.2 (by rw [UInt32.toNat_sub_of_le _ _ hN]; simp; omega)
    rw [size, if_neg (by rw [hdir]; simp), UInt32.toNat_sub_of_le _ _ h1, UInt32.toNat_sub_of_le _ _ hN,
      UInt32.toNat_one]
    omega

theorem Shape.le_capacity (h : Shape N s n) : n ≤ capacity N s := by
  cases h with
  | direct hsize hn =>
    rw [capacity, if_pos ((isDirect_iff s).2 (by omega))]
    exact hn
  | indirect hsize hcap =>
    rw [capacity, if_neg (by rw [isDirect_iff]; omega)]
    exact hcap

theorem Shape.setCells (h : Shape N s n) (d : Bool) (m : Nat → Option T) : Shape N (setCells d s m) n := by
  cases h with
  | direct hsize hn => exact .direct (by rw [setCells_size]; exact hsize) hn
  | indirect hsize hcap =>
    exact .indirect (by rw [setCells_size]; exact hsize) (by rw [setCells_indirectCapacity]; exact hcap)

theorem Shape.setItems (h : Shape N s n) (m : Nat → Option T) : Shape N (setItems N s m) n := h.setCells _ m

theorem Shape.of_direct (h : Shape N s n) (hdir : isDirect N s = true) : s._size.toNat = n ∧ n ≤ N.toNat := by
  cases h with
  | direct hsize hn => exact ⟨hsize, hn⟩
  | indirect hsize hcap => rw [isDirect_iff] at hdir; omega

theorem Shape.of_indirect (h : Shape N s n) (hdir : isDirect N s = false) :
    s._size.toNat = n + N.toNat + 1 ∧ n ≤ s.indirectCapacity.toNat := by
  cases h with
  | direct hsize hn => rw [Bool.eq_false_iff, ne_eq, isDirect_iff] at hdir; omega
  | indirect hsize hcap => exact ⟨hsize, hcap⟩

theorem isDirect_false_iff (s : Prevector T) : isDirect N s = false ↔ N.toNat < s._size.toNat := by
  rw [Bool.eq_false_iff, ne_eq, isDirect_iff, Nat.not_le]

/-- `_size += k` within the capacity keeps the form. -/
theorem Shape.addSize (h : Shape N s n) {k : UInt32} (hcap : n + k.toNat ≤ capacity N s)
    (hb : n + k.toNat + N.toNat + 1 < 2 ^ 32) :
    Shape N { s with _size := s._size + k } (n + k.toNat) ∧ isDirect N { s with _size := s._size + k } = isDirect N s := by
  have hle := h.le_capacity
  cases h with
  | direct hsize hn =>
    have hdir : isDirect N s = true := (isDirect_iff s).2 (by omega)
    rw [capacity, hdir, if_pos rfl] at hcap
    have hadd : (s._size + k).toNat = n + k.toNat := by rw [Bits.add32_toNat_of_lt (by omega), hsize]
    exact ⟨.direct hadd hcap, by rw [hdir, isDirect_iff]; exact hadd ▸ hcap⟩
  | indirect hsize hcap' =>
    have hdir : isDirect N s = false := by rw [Bool.eq_false_iff, ne_eq, isDirect_iff]; omega
    rw [capacity, hdir, if_neg (by simp)] at hcap
    have hadd : (s._size + k).toNat = n + k.toNat + N.toNat + 1 := by
      rw [Bits.add32_toNat_of_lt (by omega), hsize]
      omega
    exact ⟨.indirect hadd hcap, by rw [hdir, Bool.eq_false_iff, ne_eq, isDirect_iff]; dsimp only; omega⟩

/-- `_size -= k` for `k` of the elements keeps the form. -/
theorem Shape.subSize (h : Shape N s n) {k : UInt32} (hk : k.toNat ≤ n) :
    Shape N { s with _size := s._size - k } (n - k.toNat) ∧ isDirect N { s with _size := s._size - k } = isDirect N s := by
  have hle : k ≤ s._size := UInt32.le_iff_toNat_le.2 (by cases h <;> omega)
  have hsub : (s._size - k).toNat = s._size.toNat - k.toNat := UInt32.toNat_sub_of_le _ _ hle
  cases h with
  | direct hsize hn =>
    have hdir : isDirect N s = true := (isDirect_iff s).2 (by omega)
    exact ⟨.direct (by dsimp only; omega) (by omega), by rw [hdir, isDirect_iff]; dsimp only; omega⟩
  | indirect hsize hcap =>
    have hdir : isDirect N s = false := by rw [Bool.eq_false_iff, ne_eq, isDirect_iff]; omega
    exact ⟨.indirect (by dsimp only; omega) (by dsimp only; omega),
      by rw [hdir, Bool.eq_false_iff, ne_eq, isDirect_iff]; dsimp only; omega⟩

/-- The prevector holds the list `l`. -/
structure Refines (N : UInt32) (s : Prevector T) (l : List T) : Prop where
  shape : Shape N s l.length
  holds : Cells.Holds (items N s) l

variable {l : List T}

theorem Refines.elements (h : Refines N s l) : elements N s = l.map some := by
  rw [Prevector.elements, h.shape.size_toNat]
  exact h.holds.read

theorem empty_refines : Refines N (empty : Prevector T) [] :=
  ⟨.direct rfl (Nat.zero_le _), fun _ hi => absurd hi (Nat.not_lt_zero _)⟩

/-- `change_capacity(c)` for a capacity that holds the elements: they stay,
    and the capacity is at least `c` (it is `N` when `c ≤ N`). -/
theorem changeCapacity_refines (h : Refines N s l) {c : UInt32} (hc : l.length ≤ c.toNat)
    (hb : l.length + N.toNat + 1 < 2 ^ 32) :
    Refines N (changeCapacity N s c) l ∧ c.toNat ≤ capacity N (changeCapacity N s c) := by
  have hlen := h.shape.size_toNat
  have hN1 : (N + 1).toNat = N.toNat + 1 := by
    rw [Bits.add32_toNat_of_lt (by rw [UInt32.toNat_one]; omega), UInt32.toNat_one]
  by_cases hcN : c ≤ N
  · have hcN' : c.toNat ≤ N.toNat := UInt32.le_iff_toNat_le.1 hcN
    cases hdir : isDirect N s
    · -- heap to array: `memcpy` back and `_size -= N + 1`
      obtain ⟨hsize, -⟩ := h.shape.of_indirect hdir
      rw [changeCapacity, if_pos hcN, if_pos (by rw [hdir]; rfl)]
      have hsub : (s._size - (N + 1)).toNat = l.length := by
        rw [UInt32.toNat_sub_of_le _ _ (UInt32.le_iff_toNat_le.2 (by omega)), hN1]
        omega
      have hdir' : isDirect N { s with
          direct := Cells.copy s.direct s.indirect 0 0 (size N s).toNat
          _size := s._size - (N + 1) } = true := by
        rw [isDirect_iff]; dsimp only; omega
      refine ⟨⟨.direct hsub (by omega), ?_⟩, ?_⟩
      · rw [items, hdir', cells, if_pos rfl, hlen]
        have hm := h.holds
        rw [items, hdir, cells, if_neg (by simp)] at hm
        exact hm.copy _ le_rfl
      · rw [capacity, hdir', if_pos rfl]
        exact hcN'
    · -- already in the array
      rw [changeCapacity, if_pos hcN, if_neg (by rw [hdir]; simp)]
      refine ⟨h, ?_⟩
      rw [capacity, hdir, if_pos rfl]
      exact hcN'
  · have hcN' : N.toNat < c.toNat := by
      rw [UInt32.le_iff_toNat_le] at hcN; omega
    cases hdir : isDirect N s
    · -- `realloc` of the heap buffer
      obtain ⟨hsize, hcap⟩ := h.shape.of_indirect hdir
      rw [changeCapacity, if_neg hcN, if_pos (by rw [hdir]; rfl)]
      have hdir' : isDirect N { s with
          indirect := Cells.copy (fun _ => none) s.indirect 0 0 (min s.indirectCapacity.toNat c.toNat)
          indirectCapacity := c } = false := by
        rw [isDirect_false_iff]; dsimp only; omega
      refine ⟨⟨.indirect hsize hc, ?_⟩, ?_⟩
      · rw [items, hdir', cells, if_neg (by simp)]
        have hm := h.holds
        rw [items, hdir, cells, if_neg (by simp)] at hm
        exact hm.copy _ (by omega)
      · rw [capacity, hdir', if_neg (by simp)]
    · -- array to a new heap buffer: `malloc`, `memcpy` and `_size += N + 1`
      obtain ⟨hsize, -⟩ := h.shape.of_direct hdir
      rw [changeCapacity, if_neg hcN, if_neg (by rw [hdir]; simp)]
      have hadd : (s._size + (N + 1)).toNat = l.length + N.toNat + 1 := by
        rw [Bits.add32_toNat_of_lt (by omega), hN1]
        omega
      have hdir' : isDirect N { s with
          indirect := Cells.copy (fun _ => none) s.direct 0 0 (size N s).toNat
          indirectCapacity := c
          _size := s._size + (N + 1) } = false := by
        rw [isDirect_false_iff]; dsimp only; omega
      refine ⟨⟨.indirect hadd hc, ?_⟩, ?_⟩
      · rw [items, hdir', cells, if_neg (by simp), hlen]
        have hm := h.holds
        rw [items, hdir, cells, if_pos rfl] at hm
        exact hm.copy _ le_rfl
      · rw [capacity, hdir', if_neg (by simp)]

/-- A write through `item_ptr` of the cells of `l'`, with the shape for its
    length already in place. -/
theorem refines_setItems {l' : List T} (h : Shape N s l'.length) (m : Nat → Option T)
    (hm : Cells.Holds m l') : Refines N (setItems N s m) l' :=
  ⟨h.setCells _ m, by rw [items_setItems]; exact hm⟩

/-- `_size += k` after the elements are in place. -/
theorem refines_withSize (hs : Shape N s n) {k : UInt32} (hcap : n + k.toNat ≤ capacity N s)
    (hb : n + k.toNat + N.toNat + 1 < 2 ^ 32) {l' : List T} (hm : Cells.Holds (items N s) l')
    (hl' : l'.length = n + k.toNat) : Refines N { s with _size := s._size + k } l' := by
  obtain ⟨hs', hdir⟩ := hs.addSize hcap hb
  refine ⟨hl' ▸ hs', ?_⟩
  rw [items, hdir, cells_withSize]
  exact hm

/-- A write through a pointer taken in the form the state has. -/
theorem refines_setCells {l' : List T} (h : Shape N s l'.length) {d : Bool} (hd : isDirect N s = d)
    {m : Nat → Option T} (hm : Cells.Holds m l') : Refines N (setCells d s m) l' := by
  rw [← hd]
  exact refines_setItems h m hm

/-- `_size += k`, then a write through a pointer taken in the form before. -/
theorem refines_cellsAfterSize (hs : Shape N s n) {k : UInt32} (hcap : n + k.toNat ≤ capacity N s)
    (hb : n + k.toNat + N.toNat + 1 < 2 ^ 32) {d : Bool} (hd : isDirect N s = d) {m : Nat → Option T}
    {l' : List T} (hm : Cells.Holds m l') (hl' : l'.length = n + k.toNat) :
    Refines N (setCells d { s with _size := s._size + k } m) l' := by
  obtain ⟨hs', hdir⟩ := hs.addSize hcap hb
  exact refines_setCells (hl' ▸ hs') (hdir.trans hd) hm

/-- `_size += k`, then a write through `item_ptr`. -/
theorem refines_itemsAfterSize (hs : Shape N s n) {k : UInt32} (hcap : n + k.toNat ≤ capacity N s)
    (hb : n + k.toNat + N.toNat + 1 < 2 ^ 32) {m : Nat → Option T} {l' : List T} (hm : Cells.Holds m l')
    (hl' : l'.length = n + k.toNat) : Refines N (setItems N { s with _size := s._size + k } m) l' :=
  refines_cellsAfterSize hs hcap hb (hs.addSize hcap hb).2.symm hm hl'

theorem items_withSize {x : UInt32} (h : isDirect N { s with _size := x } = isDirect N s) :
    items N { s with _size := x } = items N s := by
  rw [items, h, cells_withSize]
  rfl

theorem size_add_toNat (h : Shape N s n) {k : UInt32} (hk : n + k.toNat < 2 ^ 32) :
    (size N s + k).toNat = n + k.toNat := by
  rw [Bits.add32_toNat_of_lt (by rw [h.size_toNat]; exact hk), h.size_toNat]

/-- `size() - p` for a position within the elements. -/
theorem size_sub_toNat (h : Shape N s n) {p : UInt32} (hp : p.toNat ≤ n) : (size N s - p).toNat = n - p.toNat := by
  rw [UInt32.toNat_sub_of_le _ _ (UInt32.le_iff_toNat_le.2 (by rw [h.size_toNat]; exact hp)), h.size_toNat]

/-- `new_size - size()` for a size at least the count. -/
theorem sub_size_toNat (h : Shape N s n) {m : UInt32} (hm : n ≤ m.toNat) : (m - size N s).toNat = m.toNat - n := by
  rw [UInt32.toNat_sub_of_le _ _ (UInt32.le_iff_toNat_le.2 (by rw [h.size_toNat]; exact hm)), h.size_toNat]

theorem erase_refines (h : Refines N s l) {first last : UInt32} (hfl : first ≤ last)
    (hlast : last.toNat ≤ l.length) : Refines N (erase N s first last) (l.take first.toNat ++ l.drop last.toNat) := by
  have hfl' := UInt32.le_iff_toNat_le.1 hfl
  have hk : (last - first).toNat = last.toNat - first.toNat := UInt32.toNat_sub_of_le _ _ hfl
  obtain ⟨hs', hd'⟩ := h.shape.subSize (show (last - first).toNat ≤ l.length by omega)
  have hlen : (l.take first.toNat ++ l.drop last.toNat).length = l.length - (last - first).toNat := by
    rw [List.length_append, List.length_take, List.length_drop]
    omega
  -- the `memmove` closes the gap through pointers taken before `_size -= last - first`
  rw [erase, cells_withSize, h.shape.size_toNat]
  exact refines_setCells (hlen ▸ hs') hd' (h.holds.erase hfl' hlast)

/-- The caller's writes after the count has grown from `l.length` to `n`. -/
theorem writeRange_refines (hs : Shape N s n) (hm : Cells.Holds (items N s) l) (hln : l.length ≤ n) (f : Nat → T) :
    Refines N (writeRange N s l.length n f) (l ++ (List.range' l.length (n - l.length)).map f) := by
  have hlen : (l ++ (List.range' l.length (n - l.length)).map f).length = n := by
    rw [List.length_append, List.length_map, List.length_range']
    omega
  exact refines_setItems (by rw [hlen]; exact hs) _ (hm.append_fillFn _ f)

/-! ## The operations, on counts below `2^31` -/

section Operations

variable (hN : N.toNat < 2 ^ 31)
include hN

theorem reserve_refines (h : Refines N s l) (hl : l.length < 2 ^ 31) (c : UInt32) :
    Refines N (reserve N s c) l ∧ c.toNat ≤ capacity N (reserve N s c) := by
  have hle := h.shape.le_capacity
  rw [reserve]
  split
  · exact changeCapacity_refines h (by omega) (by omega)
  · exact ⟨h, by omega⟩

theorem grow_refines (h : Refines N s l) {n : UInt32} (hln : l.length ≤ n.toNat) (hn : n.toNat < 2 ^ 31) :
    Refines N (grow N s n) l ∧ n.toNat ≤ capacity N (grow N s n) := by
  rw [grow]
  split
  · -- `new_size + (new_size >> 1)` does not wrap below `2^31`
    have hc : (n + (n >>> 1)).toNat = n.toNat + n.toNat / 2 := by
      rw [Bits.add32_toNat_of_lt (by rw [Bits.shiftRight_one_toNat]; omega), Bits.shiftRight_one_toNat]
    obtain ⟨h', hcap⟩ := changeCapacity_refines h (show l.length ≤ (n + (n >>> 1)).toNat by omega) (by omega)
    exact ⟨h', by omega⟩
  · exact ⟨h, by omega⟩

theorem emplaceBack_refines (h : Refines N s l) (hl : l.length + 1 < 2 ^ 31) (value : T) :
    Refines N (emplaceBack N s value) (l ++ [value]) := by
  have hnew := size_add_toNat h.shape (show l.length + (1 : UInt32).toNat < 2 ^ 32 by rw [UInt32.toNat_one]; omega)
  rw [UInt32.toNat_one] at hnew
  obtain ⟨h1, hcap1⟩ := grow_refines hN h (show l.length ≤ (size N s + 1).toNat by omega) (by omega)
  rw [emplaceBack]
  generalize grow N s (size N s + 1) = s1 at h1 hcap1 ⊢
  -- the new element goes to `item_ptr(size())`, before `_size++`
  apply refines_withSize (h1.shape.setItems _) (by rw [capacity_setItems, UInt32.toNat_one]; omega)
    (by rw [UInt32.toNat_one]; omega)
  · rw [items_setItems, h1.shape.size_toNat]
    exact h1.holds.append_update value
  · rw [List.length_append, List.length_singleton, UInt32.toNat_one]

theorem insert_refines (h : Refines N s l) {p : UInt32} (hp : p.toNat ≤ l.length) (hl : l.length + 1 < 2 ^ 31)
    (value : T) : Refines N (insert N s p value) (l.take p.toNat ++ [value] ++ l.drop p.toNat) := by
  have hnew := size_add_toNat h.shape (show l.length + (1 : UInt32).toNat < 2 ^ 32 by rw [UInt32.toNat_one]; omega)
  rw [UInt32.toNat_one] at hnew
  obtain ⟨h1, hcap1⟩ := grow_refines hN h (show l.length ≤ (size N s + 1).toNat by omega) (by omega)
  rw [insert]
  generalize grow N s (size N s + 1) = s1 at h1 hcap1 ⊢
  have hmove := size_sub_toNat h1.shape hp
  -- `memmove` opens the gap at `p`, `_size++`, and the element is placed in the gap
  apply refines_cellsAfterSize (h1.shape.setItems _) (by rw [capacity_setItems, UInt32.toNat_one]; omega)
    (by rw [UInt32.toNat_one]; omega) (isDirect_setItems _ _)
  · rw [cells_withSize, setItems, cells_setCells, hmove, Cells.update_eq_fillList]
    exact h1.holds.insert hp [value]
  · rw [List.length_append, List.length_append, List.length_take, List.length_singleton, List.length_drop,
      UInt32.toNat_one]
    omega

theorem insertCount_refines (h : Refines N s l) {p count : UInt32} (hp : p.toNat ≤ l.length)
    (hl : l.length + count.toNat < 2 ^ 31) (value : T) :
    Refines N (insertCount N s p count value)
      (l.take p.toNat ++ List.replicate count.toNat value ++ l.drop p.toNat) := by
  have hnew := size_add_toNat h.shape (show l.length + count.toNat < 2 ^ 32 by omega)
  obtain ⟨h1, hcap1⟩ := grow_refines hN h (show l.length ≤ (size N s + count).toNat by omega) (by omega)
  rw [insertCount]
  generalize grow N s (size N s + count) = s1 at h1 hcap1 ⊢
  have hmove := size_sub_toNat h1.shape hp
  rw [hmove]
  -- `memmove` opens the gap, `_size += count`, and the gap is filled through
  -- `item_ptr(p)`, which the size change leaves in the same memory
  generalize hM : Cells.copy (items N s1) (items N s1) (p.toNat + count.toNat) p.toNat (l.length - p.toNat) = M
  have hcap2 : l.length + count.toNat ≤ capacity N (setItems N s1 M) := by rw [capacity_setItems]; omega
  obtain ⟨-, hd3⟩ := (h1.shape.setItems M).addSize hcap2 (by omega)
  apply refines_itemsAfterSize (h1.shape.setItems M) hcap2 (by omega)
  · have hins := h1.holds.insert hp (List.replicate count.toNat value)
    rw [List.length_replicate] at hins
    rw [items_withSize hd3, items_setItems, Cells.fill_eq_fillList, ← hM]
    exact hins
  · rw [List.length_append, List.length_append, List.length_take, List.length_replicate, List.length_drop]
    omega

theorem insertRange_refines (h : Refines N s l) {p : UInt32} (hp : p.toNat ≤ l.length) (vals : List T)
    (hl : l.length + vals.length < 2 ^ 31) :
    Refines N (insertRange N s p vals) (l.take p.toNat ++ vals ++ l.drop p.toNat) := by
  have hcount : (UInt32.ofNat vals.length).toNat = vals.length :=
    UInt32.toNat_ofNat_of_lt' (by show vals.length < 4294967296; omega)
  have hnew := size_add_toNat h.shape (show l.length + (UInt32.ofNat vals.length).toNat < 2 ^ 32 by omega)
  obtain ⟨h1, hcap1⟩ :=
    grow_refines hN h (show l.length ≤ (size N s + UInt32.ofNat vals.length).toNat by omega) (by omega)
  rw [insertRange]
  generalize grow N s (size N s + UInt32.ofNat vals.length) = s1 at h1 hcap1 ⊢
  have hmove := size_sub_toNat h1.shape hp
  rw [hmove, hcount]
  -- `fill(ptr, first, last)` writes through the pointer taken before `_size += count`
  apply refines_cellsAfterSize (h1.shape.setItems _) (by rw [capacity_setItems, hcount]; omega)
    (by rw [hcount]; omega) (isDirect_setItems _ _)
  · rw [cells_withSize, setItems, cells_setCells]
    exact h1.holds.insert hp vals
  · rw [List.length_append, List.length_append, List.length_take, List.length_drop, hcount]
    omega

theorem resize_refines [Inhabited T] (h : Refines N s l) {n : UInt32} (hn : n.toNat < 2 ^ 31) :
    Refines N (resize N s n) (l.take n.toNat ++ List.replicate (n.toNat - l.length) default) := by
  have hcur := h.shape.size_toNat
  rw [resize]
  split
  · next heq =>
    have hn' : n.toNat = l.length := by rw [← heq, hcur]
    rw [hn', List.take_length, Nat.sub_self, List.replicate_zero, List.append_nil]
    exact h
  split
  · next hgt =>
    -- shrinking erases the tail
    have hlt : n.toNat < l.length := by rw [← hcur]; exact UInt32.lt_iff_toNat_lt.1 hgt
    have he := erase_refines h (show n ≤ size N s from UInt32.le_iff_toNat_le.2 (by omega)) (le_of_eq hcur)
    rw [hcur, List.drop_length] at he
    rw [show n.toNat - l.length = 0 by omega, List.replicate_zero]
    exact he
  · next hngt =>
    -- growing fills the new cells with `T{}` before `_size += increase`
    have hlt : l.length < n.toNat := by
      rw [← hcur]
      have hne : size N s ≠ n := by assumption
      rw [gt_iff_lt, UInt32.lt_iff_toNat_lt] at hngt
      have : (size N s).toNat ≠ n.toNat := fun he => hne (UInt32.toNat_inj.1 he)
      omega
    have hinc := sub_size_toNat h.shape (show l.length ≤ n.toNat by omega)
    obtain ⟨h1, hcap1⟩ := reserve_refines hN h (by omega) n
    rw [show (if n.toNat > capacity N s then changeCapacity N s n else s) = reserve N s n from rfl]
    generalize reserve N s n = s1 at h1 hcap1 ⊢
    apply refines_withSize (h1.shape.setItems _) (by rw [capacity_setItems, hinc]; omega)
      (by rw [hinc]; omega)
    · rw [items_setItems, hcur, hinc, List.take_of_length_le (by omega)]
      exact h1.holds.append_fill _ _
    · rw [List.length_append, List.length_take, List.length_replicate, hinc]
      omega

theorem clear_refines [Inhabited T] (h : Refines N s l) : Refines N (clear N s) [] := by
  have hc := resize_refines hN h (show (0 : UInt32).toNat < 2 ^ 31 by decide)
  rw [UInt32.toNat_zero, List.take_zero, Nat.zero_sub, List.replicate_zero, List.append_nil] at hc
  exact hc

theorem shrinkToFit_refines (h : Refines N s l) (hl : l.length < 2 ^ 31) : Refines N (shrinkToFit N s) l :=
  (changeCapacity_refines h (le_of_eq h.shape.size_toNat.symm) (by omega)).1

/-- `_size += new_size - size()` within the capacity, then the writes. -/
theorem extend_refines (h : Refines N s l) {n : UInt32} (hcap : n.toNat ≤ capacity N s)
    (hln : l.length ≤ n.toNat) (hn : n.toNat < 2 ^ 31) (f : Nat → T) :
    Refines N (writeRange N { s with _size := s._size + (n - size N s) } l.length n.toNat f)
      (l ++ (List.range' l.length (n.toNat - l.length)).map f) := by
  have hinc := sub_size_toNat h.shape hln
  obtain ⟨hs', hd'⟩ := h.shape.addSize (show l.length + (n - size N s).toNat ≤ capacity N s by omega)
    (by omega)
  rw [hinc, show l.length + (n.toNat - l.length) = n.toNat by omega] at hs'
  exact writeRange_refines hs' (by rw [items_withSize hd']; exact h.holds) hln f

/-- `resize_uninitialized(n)` followed by the writes `v[j] = f j` of the new
    indices. -/
theorem resizeUninitialized_refines (h : Refines N s l) {n : UInt32} (hn : n.toNat < 2 ^ 31) (f : Nat → T) :
    Refines N (writeRange N (resizeUninitialized N s n) (size N s).toNat n.toNat f)
      (l.take n.toNat ++ (List.range' l.length (n.toNat - l.length)).map f) := by
  have hcur := h.shape.size_toNat
  have hcapl := h.shape.le_capacity
  rw [resizeUninitialized, hcur]
  split
  · next hlt =>
    -- past the capacity: `change_capacity(new_size)`, then the count
    obtain ⟨h1, hcap1⟩ := changeCapacity_refines h (show l.length ≤ n.toNat by omega) (by omega)
    rw [List.take_of_length_le (by omega)]
    exact extend_refines hN h1 hcap1 (by omega) hn f
  split
  · next hge hlt =>
    -- shrinking erases the tail, and there is nothing to write
    have hlt' : n.toNat < l.length := by rw [← hcur]; exact UInt32.lt_iff_toNat_lt.1 hlt
    have he := erase_refines h (show n ≤ size N s from UInt32.le_of_lt hlt) (le_of_eq hcur)
    rw [hcur, List.drop_length] at he
    rw [writeRange, show n.toNat - l.length = 0 by omega, Cells.fillFn_zero, List.range'_zero, List.map_nil]
    exact refines_setItems he.shape _ he.holds
  · next hge hnlt =>
    have hle : l.length ≤ n.toNat := by
      rw [UInt32.lt_iff_toNat_lt, hcur] at hnlt
      omega
    rw [List.take_of_length_le hle]
    exact extend_refines hN h (by omega) hle hn f

/-- `assign(first, last)` over `n` cells of `src` that hold `l'`. -/
theorem assignCells_refines [Inhabited T] (h : Refines N s l) {n : UInt32} {src : Nat → Option T} {l' : List T}
    (hsrc : Cells.Holds src l') (hn : n.toNat = l'.length) (hl' : l'.length < 2 ^ 31) :
    Refines N (assignCells N s n src) l' := by
  obtain ⟨h1, hcap1⟩ := reserve_refines hN (clear_refines hN h) (by simp) n
  rw [assignCells, show (if capacity N (clear N s) < n.toNat then changeCapacity N (clear N s) n else clear N s) =
    reserve N (clear N s) n from rfl]
  generalize reserve N (clear N s) n = s1 at h1 hcap1 ⊢
  exact refines_itemsAfterSize h1.shape (by simp only [List.length_nil]; omega) (by simp only [List.length_nil]; omega)
    (hsrc.copy _ (le_of_eq hn.symm)) (by rw [List.length_nil, Nat.zero_add, hn])

/-- `assign(n, val)` is `assign(first, last)` over cells that all hold `val`. -/
theorem assign_refines [Inhabited T] (h : Refines N s l) {n : UInt32} (hn : n.toNat < 2 ^ 31) (val : T) :
    Refines N (assign N s n val) (List.replicate n.toNat val) := by
  have he : assign N s n val = assignCells N s n fun _ => some val := rfl
  rw [he]
  exact assignCells_refines hN h (Cells.holds_const n.toNat val) (List.length_replicate).symm
    (by rw [List.length_replicate]; exact hn)

theorem assignRange_refines [Inhabited T] (h : Refines N s l) (vals : List T) (hl' : vals.length < 2 ^ 31) :
    Refines N (assignRange N s vals) vals :=
  assignCells_refines hN h (Cells.holds_lookup vals)
    (UInt32.toNat_ofNat_of_lt' (by show vals.length < 4294967296; omega)) hl'

theorem copyAssign_refines [Inhabited T] (h : Refines N s l) {other : Prevector T} {l' : List T}
    (ho : Refines N other l') (hl' : l'.length < 2 ^ 31) : Refines N (copyAssign N s other) l' :=
  assignCells_refines hN h ho.holds ho.shape.size_toNat hl'

/-- `prevector(const prevector&)`: a new prevector sized for the other's
    elements and filled with a copy of them. -/
theorem copyConstruct_refines {other : Prevector T} {l' : List T} (ho : Refines N other l')
    (hl' : l'.length < 2 ^ 31) : Refines N (copyConstruct N other) l' := by
  have hsize := ho.shape.size_toNat
  obtain ⟨h1, hcap1⟩ := changeCapacity_refines (@empty_refines T N)
    (show ([] : List T).length ≤ (size N other).toNat by simp) (by simp only [List.length_nil]; omega)
  rw [copyConstruct]
  generalize changeCapacity N empty (size N other) = s1 at h1 hcap1 ⊢
  exact refines_itemsAfterSize h1.shape (by simp only [List.length_nil]; omega) (by simp only [List.length_nil]; omega)
    (ho.holds.copy _ (le_of_eq hsize.symm)) (by rw [List.length_nil, Nat.zero_add, hsize])

end Operations

end Prevector

/-! ## The store of prevectors -/

namespace PrevectorOp

open Prevector

variable {T : Type} {N : UInt32} {v : Nat → Prevector T} {l : Nat → List T}

/-- Every prevector of the store holds its list, of fewer than `2^31`
    elements. -/
def StoreRefines (N : UInt32) (v : Nat → Prevector T) (l : Nat → List T) : Prop :=
  ∀ i, Refines N (v i) (l i) ∧ (l i).length < 2 ^ 31

theorem storeRefines_empty : StoreRefines N (fun _ => (empty : Prevector T)) fun _ => [] :=
  fun _ => ⟨empty_refines, by simp⟩

theorem StoreRefines.update (h : StoreRefines N v l) (i : Nat) {s : Prevector T} {l' : List T}
    (hs : Refines N s l') (hl : l'.length < 2 ^ 31) :
    StoreRefines N (Function.update v i s) (Function.update l i l') := by
  intro j
  rcases eq_or_ne j i with rfl | hne
  · rw [Function.update_self, Function.update_self]
    exact ⟨hs, hl⟩
  · rw [Function.update_of_ne hne, Function.update_of_ne hne]
    exact h j

/-- A prevector changed in place while its list stays. -/
theorem StoreRefines.update_self (h : StoreRefines N v l) (i : Nat) {s : Prevector T} (hs : Refines N s (l i)) :
    StoreRefines N (Function.update v i s) l := by
  have hu := h.update i hs (h i).2
  rwa [Function.update_eq_self] at hu

theorem StoreRefines.swapAt (h : StoreRefines N v l) (i j : Nat) : StoreRefines N (swapAt v i j) (swapAt l i j) :=
  (h.update i (h j).1 (h j).2).update j (h i).1 (h i).2

variable [Inhabited T]

section Run

variable (hN : N.toNat < 2 ^ 31)
include hN

/-- One valid operation keeps the store refined. -/
theorem step_refines (h : StoreRefines N v l) {op : PrevectorOp T} (hv : valid l op = true) :
    StoreRefines N (step N v op) (apply l op) := by
  cases op with
  | pushBack i value =>
    simp only [valid, decide_eq_true_eq] at hv
    exact h.update i (emplaceBack_refines hN (h i).1 hv value)
      (by rw [List.length_append, List.length_singleton]; omega)
  | insert i p value =>
    simp only [valid, Bool.and_eq_true, decide_eq_true_eq] at hv
    exact h.update i (insert_refines hN (h i).1 hv.1 hv.2 value)
      (by simp only [List.length_append, List.length_take, List.length_singleton, List.length_drop]; omega)
  | insertCount i p count value =>
    simp only [valid, Bool.and_eq_true, decide_eq_true_eq] at hv
    exact h.update i (insertCount_refines hN (h i).1 hv.1 hv.2 value)
      (by simp only [List.length_append, List.length_take, List.length_replicate, List.length_drop]; omega)
  | insertRange i p vals =>
    simp only [valid, Bool.and_eq_true, decide_eq_true_eq] at hv
    exact h.update i (insertRange_refines hN (h i).1 hv.1 vals hv.2)
      (by simp only [List.length_append, List.length_take, List.length_drop]; omega)
  | erase i first last =>
    simp only [valid, Bool.and_eq_true, decide_eq_true_eq] at hv
    exact h.update i (erase_refines (h i).1 hv.1 hv.2)
      (by
        have := (h i).2
        have := UInt32.le_iff_toNat_le.1 hv.1
        simp only [List.length_append, List.length_take, List.length_drop]
        omega)
  | resize i n =>
    simp only [valid, decide_eq_true_eq] at hv
    exact h.update i (resize_refines hN (h i).1 hv)
      (by simp only [List.length_append, List.length_take, List.length_replicate]; omega)
  | resizeUninitialized i n f =>
    simp only [valid, decide_eq_true_eq] at hv
    have hr := resizeUninitialized_refines hN (h i).1 hv f
    exact h.update i hr
      (by simp only [List.length_append, List.length_take, List.length_map, List.length_range']; omega)
  | assign i n value =>
    simp only [valid, decide_eq_true_eq] at hv
    exact h.update i (assign_refines hN (h i).1 hv value) (by rw [List.length_replicate]; exact hv)
  | assignRange i vals =>
    simp only [valid, decide_eq_true_eq] at hv
    exact h.update i (assignRange_refines hN (h i).1 vals hv) hv
  | reserve i n => exact h.update_self i (reserve_refines hN (h i).1 (h i).2 n).1
  | shrinkToFit i => exact h.update_self i (shrinkToFit_refines hN (h i).1 (h i).2)
  | clear i => exact h.update i (clear_refines hN (h i).1) (by simp)
  | copyConstruct dst src => exact h.update dst (copyConstruct_refines hN (h src).1 (h src).2) (h src).2
  | moveConstruct dst src =>
    -- the moved-from prevector is left with the new one's empty state
    exact (h.update src empty_refines (by simp)).update dst (h src).1 (h src).2
  | copyAssign dst src =>
    by_cases hds : dst = src
    · -- `&other == this`: nothing happens
      subst hds
      rw [step, if_pos rfl, apply, Function.update_eq_self]
      exact h
    · rw [step, if_neg hds, apply]
      exact h.update dst (copyAssign_refines hN (h dst).1 (h src).1 (h src).2) (h src).2
  | moveAssign dst src => exact h.swapAt dst src
  | swap i j => exact h.swapAt i j

/-- A valid run keeps the store refined; the induction is on the run, one
    `step_refines` per operation. -/
theorem run_refines {ops : List (PrevectorOp T)} :
    ∀ {v l}, StoreRefines N v l → validAll l ops = true → StoreRefines N (run N v ops) (applyAll l ops) := by
  induction ops with
  | nil => intro v l h _; exact h
  | cons op ops ih =>
    intro v l h hv
    rw [validAll, Bool.and_eq_true] at hv
    exact ih (step_refines hN h hv.1) hv.2

end Run

theorem validAll_take {ops : List (PrevectorOp T)} :
    ∀ {l : Nat → List T} (k : Nat), validAll l ops = true → validAll l (ops.take k) = true := by
  induction ops with
  | nil => intro l k _; rw [List.take_nil]; rfl
  | cons op ops ih =>
    intro l k hv
    cases k with
    | zero => rfl
    | succ k =>
      rw [validAll, Bool.and_eq_true] at hv
      rw [List.take_succ_cons, validAll, hv.1, ih k hv.2, Bool.and_self]

end PrevectorOp

/-- `prevector<N, T>` refines a list: for `N < 2^31` and every run of
    operations on a store of prevectors that keeps every count below `2^31`
    and every position within its vector, after each prefix of the run every
    prevector holds the elements of the list model, and keeps the
    representation invariant: `_size` is the count in the direct form, and
    the count plus `N + 1`, with the count within the heap capacity, in the
    indirect form. -/
theorem prevector_refines_vector {T : Type} [Inhabited T] (N : UInt32) (hN : N.toNat < 2 ^ 31)
    (ops : List (PrevectorOp T)) (hops : PrevectorOp.validAll (fun _ => []) ops = true) (k i : Nat) :
    Prevector.elements N (PrevectorOp.run N (fun _ => Prevector.empty) (ops.take k) i) =
        (PrevectorOp.applyAll (fun _ => []) (ops.take k) i).map some ∧
      Prevector.Refines N (PrevectorOp.run N (fun _ => Prevector.empty) (ops.take k) i)
        (PrevectorOp.applyAll (fun _ => []) (ops.take k) i) := by
  have h := PrevectorOp.run_refines hN PrevectorOp.storeRefines_empty (PrevectorOp.validAll_take k hops) i
  exact ⟨h.1.elements, h.1⟩

/-- Three `push_back`s into a `prevector<2, unsigned>` move it to the heap, an
    `insert` and an `erase` follow, `shrink_to_fit` brings it back in place,
    and a copy is resized and swapped with it. -/
theorem prevector_refines_vector_run :
    let ops : List (PrevectorOp Nat) := [.pushBack 0 5, .pushBack 0 6, .pushBack 0 7, .insert 0 1 9,
      .erase 0 0 2, .shrinkToFit 0, .copyConstruct 1 0, .resize 1 4, .swap 0 1]
    (2 : UInt32).toNat < 2 ^ 31 ∧ PrevectorOp.validAll (fun _ => []) ops = true ∧
      (Prevector.elements 2 (PrevectorOp.run 2 (fun _ => Prevector.empty) (ops.take 9) 1) =
          (PrevectorOp.applyAll (fun _ => []) (ops.take 9) 1).map some ∧
        Prevector.Refines 2 (PrevectorOp.run 2 (fun _ => Prevector.empty) (ops.take 9) 1)
          (PrevectorOp.applyAll (fun _ => []) (ops.take 9) 1)) :=
  ⟨by decide, by decide, prevector_refines_vector 2 (by decide) _ (by decide) 9 1⟩

/-- Without the bound the counts wrap: `resize(0xFFFFFFFF)` of an empty
    `prevector<28, T>` moves it to a heap buffer of `2^32 - 1` cells, and
    `_size += increase` then wraps `_size` to `28`, the direct form with
    `size() = 28`, where `std::vector` holds `2^32 - 1` elements. -/
theorem resize_wraps_to_direct :
    let v : Nat → Prevector Nat := PrevectorOp.run 28 (fun _ => Prevector.empty) [.resize 0 0xFFFFFFFF]
    let l : Nat → List Nat := PrevectorOp.applyAll (fun _ => []) [.resize 0 0xFFFFFFFF]
    Prevector.isDirect 28 (v 0) = true ∧ Prevector.size 28 (v 0) = 28 ∧ (l 0).length = 0xFFFFFFFF ∧
      Prevector.elements 28 (v 0) ≠ (l 0).map some := by
  intro v l
  have hsize : Prevector.size 28 (v 0) = 28 := rfl
  have hlen : (l 0).length = 0xFFFFFFFF := by
    show (PrevectorOp.applyAll (fun _ => []) [.resize 0 0xFFFFFFFF] 0 : List Nat).length = _
    rw [PrevectorOp.applyAll, List.foldl_cons, List.foldl_nil, PrevectorOp.apply, Function.update_self,
      List.take_nil, List.nil_append, List.length_replicate]
    rfl
  refine ⟨rfl, hsize, hlen, fun heq => ?_⟩
  -- the two sides have 28 and `2^32 - 1` entries
  have hl := congrArg List.length heq
  rw [Prevector.elements, List.length_map, List.length_range, List.length_map, hsize, hlen] at hl
  exact absurd hl (by decide)

end Revo
