/-
  Revo.Lib.AssocMap

  Finite maps as association lists with distinct keys: the model of a
  `std::unordered_map`, whose iteration order is unspecified.  The order of
  `entries` is whatever the operations leave it, so a result about a loop
  over the entries has to hold for every order.  The fold rules below give
  such results: when the keys are distinct and each step changes only the
  entry of its own key, every key ends up with what its own step made of
  its original value (`foldlM_alterStep`, and `foldl_update` for a fold of
  `Function.update`s).
-/

import Mathlib.Data.List.Nodup
import Mathlib.Logic.Function.Basic
import Revo.Lib.Fold

/-- A finite map with distinct keys, in no particular order. -/
structure AssocMap (κ ν : Type) [DecidableEq κ] where
  entries : List (κ × ν)
  nodup : (entries.map Prod.fst).Nodup

namespace AssocMap

variable {κ ν : Type} [DecidableEq κ]

/-! ## Raw lists -/

/-- The value of the first entry with key `k`. -/
def findList (k : κ) : List (κ × ν) → Option ν
  | [] => none
  | (k', v) :: rest => if k = k' then some v else findList k rest

theorem findList_append (k : κ) (l₁ l₂ : List (κ × ν)) :
    findList k (l₁ ++ l₂) = (findList k l₁).or (findList k l₂) := by
  induction l₁ with
  | nil => rfl
  | cons e l₁ ih =>
    obtain ⟨k', v⟩ := e
    rw [List.cons_append, findList, findList]
    split
    · rfl
    · exact ih

theorem findList_filter (k k' : κ) (l : List (κ × ν)) :
    findList k' (l.filter fun e => decide (e.1 ≠ k)) = if k' = k then none else findList k' l := by
  induction l with
  | nil => split <;> rfl
  | cons e l ih =>
    obtain ⟨k'', v⟩ := e
    rw [List.filter_cons]
    by_cases hk : k'' = k
    · -- the entry of `k` is dropped
      rw [if_neg (by simp [hk]), ih, findList]
      by_cases hk' : k' = k
      · rw [if_pos hk', if_pos hk']
      · rw [if_neg hk', if_neg hk', if_neg (fun h => hk' (h.trans hk))]
    · rw [if_pos (by simp [hk]), findList, findList, ih]
      by_cases hk' : k' = k
      · subst hk'
        rw [if_neg (Ne.symm hk), if_pos rfl, if_pos rfl]
      · rw [if_neg hk', if_neg hk']

theorem findList_eq_none {k : κ} {l : List (κ × ν)} (h : k ∉ l.map Prod.fst) : findList k l = none := by
  induction l with
  | nil => rfl
  | cons e l ih =>
    obtain ⟨k', v⟩ := e
    rw [List.map_cons, List.mem_cons, not_or] at h
    rw [findList, if_neg h.1, ih h.2]

theorem findList_of_mem {k : κ} {v : ν} {l : List (κ × ν)} (hl : (l.map Prod.fst).Nodup)
    (h : (k, v) ∈ l) : findList k l = some v := by
  induction l with
  | nil => cases h
  | cons e l ih =>
    obtain ⟨k', v'⟩ := e
    rw [List.map_cons, List.nodup_cons] at hl
    rw [findList]
    rcases List.mem_cons.mp h with he | he
    · cases he
      rw [if_pos rfl]
    · -- a later entry: its key differs from the head's
      have hne : k ≠ k' := fun hk => hl.1 (by rw [← hk]; exact List.mem_map.mpr ⟨_, he, rfl⟩)
      rw [if_neg hne, ih hl.2 he]

theorem mem_of_findList {k : κ} {v : ν} {l : List (κ × ν)} (h : findList k l = some v) : (k, v) ∈ l := by
  induction l with
  | nil => cases h
  | cons e l ih =>
    obtain ⟨k', v'⟩ := e
    rw [findList] at h
    split at h
    · rename_i hk
      cases h
      rw [hk]
      exact List.mem_cons_self
    · exact List.mem_cons_of_mem _ (ih h)

/-! ## Maps -/

def empty : AssocMap κ ν := ⟨[], List.nodup_nil⟩

/-- `find`: the value stored under `k`. -/
def find? (m : AssocMap κ ν) (k : κ) : Option ν := findList k m.entries

/-- `erase(k)`. -/
def erase (m : AssocMap κ ν) (k : κ) : AssocMap κ ν :=
  ⟨m.entries.filter fun e => decide (e.1 ≠ k),
    m.nodup.sublist (List.filter_sublist.map Prod.fst)⟩

theorem not_mem_erase (m : AssocMap κ ν) (k : κ) : k ∉ (m.erase k).entries.map Prod.fst := by
  intro h
  obtain ⟨e, he, hk⟩ := List.mem_map.mp h
  have := (List.mem_filter.mp he).2
  simp [hk] at this

/-- `m[k] = v`: the entry of `k` replaced, or added. -/
def insert (m : AssocMap κ ν) (k : κ) (v : ν) : AssocMap κ ν :=
  ⟨(m.erase k).entries ++ [(k, v)], by
    rw [List.map_append, List.nodup_append]
    refine ⟨(m.erase k).nodup, List.nodup_singleton k, ?_⟩
    intro a ha b hb
    rw [List.map_cons, List.map_nil, List.mem_singleton] at hb
    rw [hb]
    intro hak
    rw [hak] at ha
    exact m.not_mem_erase k ha⟩

/-- The entry of `k` set to `o`: stored for `some`, erased for `none`. -/
def alter (m : AssocMap κ ν) (k : κ) : Option ν → AssocMap κ ν
  | some v => m.insert k v
  | none => m.erase k

@[simp] theorem find?_empty (k : κ) : (empty : AssocMap κ ν).find? k = none := rfl

@[simp] theorem find?_erase (m : AssocMap κ ν) (k k' : κ) :
    (m.erase k).find? k' = if k' = k then none else m.find? k' :=
  findList_filter k k' m.entries

@[simp] theorem find?_insert (m : AssocMap κ ν) (k k' : κ) (v : ν) :
    (m.insert k v).find? k' = if k' = k then some v else m.find? k' := by
  show findList k' ((m.erase k).entries ++ [(k, v)]) = _
  rw [findList_append]
  have herase : findList k' (m.erase k).entries = if k' = k then none else m.find? k' :=
    m.find?_erase k k'
  rw [herase]
  by_cases hk : k' = k
  · rw [if_pos hk, if_pos hk, findList, if_pos hk]
    rfl
  · rw [if_neg hk, if_neg hk]
    cases m.find? k' with
    | none => rw [findList, if_neg hk]; rfl
    | some v' => rfl

@[simp] theorem find?_alter (m : AssocMap κ ν) (k k' : κ) (o : Option ν) :
    (m.alter k o).find? k' = if k' = k then o else m.find? k' := by
  cases o with
  | none => exact m.find?_erase k k'
  | some v => exact m.find?_insert k k' v

theorem find?_eq_some_iff (m : AssocMap κ ν) (k : κ) (v : ν) :
    m.find? k = some v ↔ (k, v) ∈ m.entries :=
  ⟨mem_of_findList, findList_of_mem m.nodup⟩

theorem find?_eq_none_iff (m : AssocMap κ ν) (k : κ) :
    m.find? k = none ↔ k ∉ m.entries.map Prod.fst := by
  refine ⟨fun h hk => ?_, findList_eq_none⟩
  obtain ⟨⟨k', v⟩, hmem, rfl⟩ := List.mem_map.mp hk
  rw [(m.find?_eq_some_iff k' v).mpr hmem] at h
  cases h

/-! ## Folds that set each key once -/

variable {μ ε : Type}

/-- One step of a loop over entries that sets the key of the entry from the
    entry and the key's current value; `f` may fail. -/
def alterStep (f : κ → ν → Option μ → Except ε (Option μ)) (acc : AssocMap κ μ) (e : κ × ν) :
    Except ε (AssocMap κ μ) :=
  (f e.1 e.2 (acc.find? e.1)).map (acc.alter e.1)

/-- A loop of `alterStep`s over distinct keys succeeds when every step
    succeeds on the key's original value; each key then holds what its step
    made of that value, and every other key is untouched.  The induction is
    on the entries: a step leaves the keys of the later entries alone. -/
theorem foldlM_alterStep (f : κ → ν → Option μ → Except ε (Option μ)) (l : List (κ × ν))
    (hl : (l.map Prod.fst).Nodup) (m : AssocMap κ μ)
    (hok : ∀ k v, (k, v) ∈ l → ∃ r, f k v (m.find? k) = .ok r) :
    ∃ m', l.foldlM (alterStep f) m = .ok m' ∧
      (∀ k, k ∉ l.map Prod.fst → m'.find? k = m.find? k) ∧
      (∀ k v, (k, v) ∈ l → f k v (m.find? k) = .ok (m'.find? k)) := by
  induction l generalizing m with
  | nil => exact ⟨m, rfl, fun _ _ => rfl, fun _ _ h => absurd h List.not_mem_nil⟩
  | cons e l ih =>
    obtain ⟨k₀, v₀⟩ := e
    rw [List.map_cons, List.nodup_cons] at hl
    obtain ⟨r, hr⟩ := hok k₀ v₀ List.mem_cons_self
    -- the later entries see the same values in `m.alter k₀ r` as in `m`
    have hlater : ∀ k, k ∈ l.map Prod.fst → (m.alter k₀ r).find? k = m.find? k := by
      intro k hk
      rw [find?_alter, if_neg (fun h => hl.1 (by rw [← h]; exact hk))]
    obtain ⟨m', hfold, hout, hin⟩ := ih hl.2 (m.alter k₀ r) (fun k v hkv => by
      rw [hlater k (List.mem_map.mpr ⟨_, hkv, rfl⟩)]
      exact hok k v (List.mem_cons_of_mem _ hkv))
    have hk₀ : m'.find? k₀ = r := by
      rw [hout k₀ hl.1, find?_alter, if_pos rfl]
    refine ⟨m', ?_, ?_, ?_⟩
    · rw [List.foldlM_cons]
      show (alterStep f m (k₀, v₀)).bind _ = _
      rw [alterStep, hr]
      exact hfold
    · intro k hk
      rw [List.map_cons, List.mem_cons, not_or] at hk
      rw [hout k hk.2, find?_alter, if_neg hk.1]
    · intro k v hkv
      rcases List.mem_cons.mp hkv with he | he
      · cases he
        rw [hk₀]
        exact hr
      · rw [← hlater k (List.mem_map.mpr ⟨_, he, rfl⟩)]
        exact hin k v he

/-- The same for a fold of `Function.update`s over distinct keys. -/
theorem foldl_update (g : κ → ν → μ → μ) (l : List (κ × ν)) (hl : (l.map Prod.fst).Nodup)
    (f₀ : κ → μ) :
    (∀ k, k ∉ l.map Prod.fst → (l.foldl (fun f e => Function.update f e.1 (g e.1 e.2 (f e.1))) f₀) k = f₀ k) ∧
      (∀ k v, (k, v) ∈ l → (l.foldl (fun f e => Function.update f e.1 (g e.1 e.2 (f e.1))) f₀) k =
        g k v (f₀ k)) := by
  induction l generalizing f₀ with
  | nil => exact ⟨fun _ _ => rfl, fun _ _ h => absurd h List.not_mem_nil⟩
  | cons e l ih =>
    obtain ⟨k₀, v₀⟩ := e
    rw [List.map_cons, List.nodup_cons] at hl
    obtain ⟨hout, hin⟩ := ih hl.2 (Function.update f₀ k₀ (g k₀ v₀ (f₀ k₀)))
    rw [List.foldl_cons]
    refine ⟨?_, ?_⟩
    · intro k hk
      rw [List.map_cons, List.mem_cons, not_or] at hk
      rw [hout k hk.2, Function.update_of_ne hk.1]
    · intro k v hkv
      rcases List.mem_cons.mp hkv with he | he
      · cases he
        rw [hout k₀ hl.1, Function.update_self]
      · have hne : k ≠ k₀ := fun h => hl.1 (by rw [← h]; exact List.mem_map.mpr ⟨_, he, rfl⟩)
        rw [hin k v he, Function.update_of_ne hne]

end AssocMap
