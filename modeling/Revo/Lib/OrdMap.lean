/-
  Revo.Lib.OrdMap

  Key-ordered finite maps as strictly sorted association lists: the model of
  a `std::map`, whose iteration order is the key order.  `OrdMap κ ν` carries
  its sortedness as a field, so every map the model builds iterates in key
  order and has no duplicate keys by construction.

  The API is the part of `std::map` the modelled code uses: `find?`
  (`find`/`count`), `insert` (`m[k] = v`), `touch` (a read through
  `operator[]`, which inserts a default entry for a missing key), and
  iteration over `entries`.  The lemmas are the ones the proofs above this
  module need: lookup after insert, keys of an insert, and sums over entries
  expressed as `Finset` sums over the key set.
-/

import Mathlib.Algebra.BigOperators.Group.Finset.Basic
import Mathlib.Data.Finset.Sort

/-- A `std::map κ ν`: entries strictly sorted by key. -/
structure OrdMap (κ : Type) (ν : Type) [LinearOrder κ] where
  entries : List (κ × ν)
  sorted : entries.Pairwise (fun a b => a.1 < b.1)

namespace OrdMap

variable {κ ν : Type} [LinearOrder κ]

/-! ## Raw list operations -/

/-- Lookup in an entry list: the value of the first entry with key `k`. -/
def findList (k : κ) : List (κ × ν) → Option ν
  | [] => none
  | (k', v) :: rest => if k = k' then some v else findList k rest

/-- Sorted insertion into an entry list, overwriting an entry with the same key. -/
def insertList (k : κ) (v : ν) : List (κ × ν) → List (κ × ν)
  | [] => [(k, v)]
  | (k', v') :: rest =>
    if k < k' then (k, v) :: (k', v') :: rest
    else if k = k' then (k, v) :: rest
    else (k', v') :: insertList k v rest

theorem findList_insertList (k k' : κ) (v : ν) (l : List (κ × ν)) :
    findList k' (insertList k v l) = if k' = k then some v else findList k' l := by
  induction l with
  | nil => simp [insertList, findList]
  | cons e rest ih =>
    obtain ⟨k₀, v₀⟩ := e
    simp only [insertList]
    split_ifs with h1 h2 h3 h4 <;> simp_all [findList]

theorem mem_insertList {k : κ} {v : ν} {e : κ × ν} {l : List (κ × ν)}
    (h : e ∈ insertList k v l) : e = (k, v) ∨ e ∈ l := by
  induction l with
  | nil => simpa [insertList] using h
  | cons e' rest ih =>
    obtain ⟨k₀, v₀⟩ := e'
    simp only [insertList] at h
    split_ifs at h <;> simp at h <;> grind

theorem insertList_sorted (k : κ) (v : ν) {l : List (κ × ν)}
    (h : l.Pairwise (fun a b => a.1 < b.1)) :
    (insertList k v l).Pairwise (fun a b => a.1 < b.1) := by
  induction l with
  | nil => simp [insertList]
  | cons e rest ih =>
    obtain ⟨k₀, v₀⟩ := e
    have hrest := List.pairwise_cons.mp h
    simp only [insertList]
    split_ifs with h1 h2
    · refine List.Pairwise.cons (fun a ha => ?_) h
      rcases List.mem_cons.mp ha with rfl | ha
      · exact h1
      · exact h1.trans (hrest.1 a ha)
    · subst h2
      exact List.Pairwise.cons hrest.1 hrest.2
    · have hlt : k₀ < k := lt_of_le_of_ne (not_lt.mp h1) (Ne.symm h2)
      refine List.Pairwise.cons (fun a ha => ?_) (ih hrest.2)
      rcases mem_insertList ha with rfl | ha
      · exact hlt
      · exact hrest.1 a ha

/-- In an entry list without repeated keys, membership is exactly lookup. -/
theorem mem_iff_findList_of_nodup {l : List (κ × ν)} (h : (l.map Prod.fst).Nodup)
    (k : κ) (v : ν) : (k, v) ∈ l ↔ findList k l = some v := by
  induction l with
  | nil => simp [findList]
  | cons e rest ih =>
    obtain ⟨k₀, v₀⟩ := e
    rw [List.map_cons, List.nodup_cons] at h
    by_cases hk : k = k₀
    · subst hk
      have hnot : (k, v) ∉ rest := fun hm => h.1 (List.mem_map.mpr ⟨_, hm, rfl⟩)
      simp [findList, hnot, eq_comm]
    · simp [findList, hk, ih h.2]

/-- Strictly sorted keys are distinct. -/
theorem nodup_keys_of_sorted {l : List (κ × ν)} (h : l.Pairwise (fun a b => a.1 < b.1)) :
    (l.map Prod.fst).Nodup :=
  List.pairwise_map.mpr (h.imp ne_of_lt)

/-- In a sorted entry list, membership is exactly lookup. -/
theorem mem_iff_findList {l : List (κ × ν)} (h : l.Pairwise (fun a b => a.1 < b.1))
    (k : κ) (v : ν) : (k, v) ∈ l ↔ findList k l = some v :=
  mem_iff_findList_of_nodup (nodup_keys_of_sorted h) k v

/-- Lookup does not see the order of an entry list without repeated keys. -/
theorem findList_perm {l₁ l₂ : List (κ × ν)} (hp : l₁.Perm l₂) (h : (l₁.map Prod.fst).Nodup)
    (k : κ) : findList k l₁ = findList k l₂ := by
  have h₂ : (l₂.map Prod.fst).Nodup := (hp.map Prod.fst).nodup_iff.mp h
  apply Option.ext
  intro v
  rw [← mem_iff_findList_of_nodup h, ← mem_iff_findList_of_nodup h₂]
  exact hp.mem_iff

/-! ## The map -/

/-- The empty map. -/
def empty : OrdMap κ ν := ⟨[], List.Pairwise.nil⟩

/-- `m.find(k)`: the value stored under `k`, if any. -/
def find? (m : OrdMap κ ν) (k : κ) : Option ν := findList k m.entries

/-- `m.count(k) != 0`. -/
def contains (m : OrdMap κ ν) (k : κ) : Bool := (m.find? k).isSome

/-- `m[k] = v`. -/
def insert (m : OrdMap κ ν) (k : κ) (v : ν) : OrdMap κ ν :=
  ⟨insertList k v m.entries, insertList_sorted k v m.sorted⟩

/-- `m[k]` read as an rvalue: the stored value, or `d` when `k` is missing. -/
def findD (m : OrdMap κ ν) (k : κ) (d : ν) : ν := (m.find? k).getD d

/-- The effect of `m[k]` on the map: a missing key gets the default entry `d`. -/
def touch (m : OrdMap κ ν) (k : κ) (d : ν) : OrdMap κ ν :=
  if m.contains k then m else m.insert k d

/-- The keys, in iteration order. -/
def keys (m : OrdMap κ ν) : List κ := m.entries.map Prod.fst

/-- The keys as a finite set. -/
def keySet (m : OrdMap κ ν) : Finset κ := m.keys.toFinset

@[simp] theorem find?_empty (k : κ) : (empty : OrdMap κ ν).find? k = none := rfl

@[simp] theorem find?_insert (m : OrdMap κ ν) (k k' : κ) (v : ν) :
    (m.insert k v).find? k' = if k' = k then some v else m.find? k' :=
  findList_insertList k k' v m.entries

theorem find?_insert_self (m : OrdMap κ ν) (k : κ) (v : ν) :
    (m.insert k v).find? k = some v := by simp

theorem find?_insert_of_ne (m : OrdMap κ ν) {k k' : κ} (v : ν) (h : k' ≠ k) :
    (m.insert k v).find? k' = m.find? k' := by simp [h]

theorem contains_iff (m : OrdMap κ ν) (k : κ) : m.contains k = true ↔ ∃ v, m.find? k = some v := by
  simp [contains, Option.isSome_iff_exists]

theorem findD_of_find? {m : OrdMap κ ν} {k : κ} {v : ν} (h : m.find? k = some v) (d : ν) :
    m.findD k d = v := by simp [findD, h]

theorem findD_of_find?_none {m : OrdMap κ ν} {k : κ} (h : m.find? k = none) (d : ν) :
    m.findD k d = d := by simp [findD, h]

theorem mem_entries_iff (m : OrdMap κ ν) (k : κ) (v : ν) :
    (k, v) ∈ m.entries ↔ m.find? k = some v :=
  mem_iff_findList m.sorted k v

theorem mem_keySet_iff (m : OrdMap κ ν) (k : κ) : k ∈ m.keySet ↔ ∃ v, m.find? k = some v := by
  simp [keySet, keys, ← mem_entries_iff]

theorem find?_touch (m : OrdMap κ ν) (k k' : κ) (d : ν) :
    (m.touch k d).find? k' = if k' = k then some (m.findD k d) else m.find? k' := by
  unfold touch
  by_cases hc : m.contains k = true
  · obtain ⟨v, hv⟩ := (contains_iff m k).mp hc
    by_cases hk : k' = k
    · subst hk; simp [hc, hv, findD]
    · simp [hc, hk]
  · have hnone : m.find? k = none := by simpa [contains] using hc
    simp [hc, findD, hnone]

theorem findD_touch (m : OrdMap κ ν) (k k' : κ) (d : ν) :
    (m.touch k d).findD k' d = m.findD k' d := by
  by_cases hk : k' = k
  · subst hk; simp [findD, find?_touch]
  · simp [findD, find?_touch, hk]

theorem touch_of_contains {m : OrdMap κ ν} {k : κ} (h : m.contains k = true) (d : ν) :
    m.touch k d = m := by simp [touch, h]

/-- In a sorted entry list, the head key is not a key of the tail. -/
theorem findList_tail_of_sorted {k : κ} {v : ν} {rest : List (κ × ν)}
    (h : ((k, v) :: rest).Pairwise (fun a b => a.1 < b.1)) : findList k rest = none := by
  cases hf : findList k rest with
  | none => rfl
  | some w =>
    have hm : (k, w) ∈ rest := (mem_iff_findList (List.pairwise_cons.mp h).2 k w).mpr hf
    exact absurd ((List.pairwise_cons.mp h).1 _ hm) (lt_irrefl k)

/-! ## Sums over entries

A sum over the entries of a map is the `Finset` sum over its keys of the
stored values: the iteration order does not matter, and sortedness makes
each key occur once. -/

section Sums

variable {M : Type} [AddCommMonoid M]

theorem sum_entries_eq (m : OrdMap κ ν) (f : κ → ν → M) (d : ν) :
    (m.entries.map (fun e => f e.1 e.2)).sum = ∑ k ∈ m.keySet, f k (m.findD k d) := by
  obtain ⟨l, hs⟩ := m
  simp only [keySet, keys, findD, find?]
  induction l with
  | nil => simp
  | cons e rest ih =>
    obtain ⟨k₀, v₀⟩ := e
    have hrest := List.pairwise_cons.mp hs
    have hnot : k₀ ∉ (rest.map Prod.fst).toFinset := by
      simp only [List.mem_toFinset, List.mem_map]
      rintro ⟨⟨k, v⟩, hm, rfl⟩
      exact lt_irrefl k (hrest.1 _ hm)
    have htail : ∀ k ∈ (rest.map Prod.fst).toFinset,
        f k ((findList k ((k₀, v₀) :: rest)).getD d) = f k ((findList k rest).getD d) := by
      intro k hk
      have hne : k ≠ k₀ := fun h => hnot (h ▸ hk)
      simp [findList, hne]
    rw [List.map_cons, List.sum_cons, ih hrest.2, List.map_cons, List.toFinset_cons,
      Finset.sum_insert hnot, Finset.sum_congr rfl htail]
    simp [findList]

end Sums

end OrdMap
