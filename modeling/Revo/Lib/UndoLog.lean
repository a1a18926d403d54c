/-
  Revo.Lib.UndoLog

  Writes to a function and their undo log.  A list of writes `(k, v)` is
  applied in order by `Function.update`; its undo log pairs every written
  key with the value the key held just before the write.

    * `applyWrites_undoLog_reverse`: applying the undo log in reverse order
      to the written function gives back the original one, for any writes,
      repeated keys included.
    * `replays_undoLog_reverse`: each undo step then finds the value its
      write left, so a precondition `P k old new` that every write met on the
      way forward holds, with `old` and `new` swapped, on the way back.
    * Writes to distinct keys each see the original value
      (`replays_iff_of_nodup`) and each key ends with its own write
      (`applyWrites_of_mem`).
-/

import Mathlib.Data.List.Nodup
import Mathlib.Logic.Function.Basic

namespace UndoLog

variable {α β : Type} [DecidableEq α]

/-! ## Writes -/

/-- The writes `ws` applied in order. -/
def applyWrites (f : α → β) (ws : List (α × β)) : α → β :=
  ws.foldl (fun g w => Function.update g w.1 w.2) f

@[simp] theorem applyWrites_nil (f : α → β) : applyWrites f [] = f := rfl

@[simp] theorem applyWrites_cons (f : α → β) (k : α) (v : β) (ws : List (α × β)) :
    applyWrites f ((k, v) :: ws) = applyWrites (Function.update f k v) ws := rfl

theorem applyWrites_append (f : α → β) (ws₁ ws₂ : List (α × β)) :
    applyWrites f (ws₁ ++ ws₂) = applyWrites (applyWrites f ws₁) ws₂ :=
  List.foldl_append

/-- A key no write touches keeps its value. -/
theorem applyWrites_of_not_mem (f : α → β) {ws : List (α × β)} {x : α} (hx : x ∉ ws.map Prod.fst) :
    applyWrites f ws x = f x := by
  induction ws generalizing f with
  | nil => rfl
  | cons w ws ih =>
    obtain ⟨k, v⟩ := w
    rw [List.map_cons, List.mem_cons, not_or] at hx
    rw [applyWrites_cons, ih _ hx.2, Function.update_of_ne hx.1]

/-- Over distinct keys, a written key holds its write. -/
theorem applyWrites_of_mem (f : α → β) {ws : List (α × β)} (hnd : (ws.map Prod.fst).Nodup)
    {x : α} {v : β} (hx : (x, v) ∈ ws) : applyWrites f ws x = v := by
  induction ws generalizing f with
  | nil => cases hx
  | cons w ws ih =>
    obtain ⟨k, v'⟩ := w
    rw [List.map_cons, List.nodup_cons] at hnd
    rw [applyWrites_cons]
    rcases List.mem_cons.mp hx with he | he
    · -- the first write: no later write touches its key
      cases he
      rw [applyWrites_of_not_mem _ hnd.1, Function.update_self]
    · exact ih _ hnd.2 he

/-- Writes over keys that all held `b`, each reset to `b` afterwards in
    any order, leave nothing behind. -/
theorem applyWrites_reset (f : α → β) {ws : List (α × β)} (hnd : (ws.map Prod.fst).Nodup) (b : β)
    (hb : ∀ k v, (k, v) ∈ ws → f k = b) :
    applyWrites (applyWrites f ws) (ws.map fun w => (w.1, b)) = f := by
  have hkeys : (ws.map fun w => (w.1, b)).map Prod.fst = ws.map Prod.fst := by
    rw [List.map_map]
    rfl
  funext x
  by_cases hx : x ∈ ws.map Prod.fst
  · obtain ⟨⟨k, v⟩, hkv, rfl⟩ := List.mem_map.mp hx
    have hnd' : ((ws.map fun w => (w.1, b)).map Prod.fst).Nodup := by
      rw [hkeys]
      exact hnd
    have hmem : (k, b) ∈ ws.map fun w => (w.1, b) := List.mem_map.mpr ⟨(k, v), hkv, rfl⟩
    show applyWrites _ _ k = f k
    rw [applyWrites_of_mem _ hnd' hmem, hb k v hkv]
  · have hx' : x ∉ (ws.map fun w => (w.1, b)).map Prod.fst := by
      rw [hkeys]
      exact hx
    rw [applyWrites_of_not_mem _ hx', applyWrites_of_not_mem _ hx]

/-! ## Preconditions along the writes -/

/-- Every write `(k, v)` of `ws`, applied in order from `f`, finds
    `P k old v` for the value `old` of `k` just before it. -/
def Replays (P : α → β → β → Prop) : (α → β) → List (α × β) → Prop
  | _, [] => True
  | f, (k, v) :: ws => P k (f k) v ∧ Replays P (Function.update f k v) ws

variable {P : α → β → β → Prop}

/-- `Replays` is decided write by write. -/
def decideReplays [∀ k a b, Decidable (P k a b)] : (f : α → β) → (ws : List (α × β)) →
    Decidable (Replays P f ws)
  | _, [] => isTrue trivial
  | f, (k, v) :: ws =>
    match decideReplays (Function.update f k v) ws with
    | isTrue hws => if hk : P k (f k) v then isTrue ⟨hk, hws⟩ else isFalse fun h => hk h.1
    | isFalse hws => isFalse fun h => hws h.2

instance [∀ k a b, Decidable (P k a b)] (f : α → β) (ws : List (α × β)) :
    Decidable (Replays P f ws) :=
  decideReplays f ws

theorem replays_append (f : α → β) (ws₁ ws₂ : List (α × β)) :
    Replays P f (ws₁ ++ ws₂) ↔ Replays P f ws₁ ∧ Replays P (applyWrites f ws₁) ws₂ := by
  induction ws₁ generalizing f with
  | nil => exact ⟨fun h => ⟨trivial, h⟩, fun h => h.2⟩
  | cons w ws₁ ih =>
    obtain ⟨k, v⟩ := w
    rw [List.cons_append, Replays, Replays, ih, applyWrites_cons, and_assoc]

/-- Over distinct keys every write sees the original value of its key. -/
theorem replays_iff_of_nodup (f : α → β) {ws : List (α × β)} (hnd : (ws.map Prod.fst).Nodup) :
    Replays P f ws ↔ ∀ k v, (k, v) ∈ ws → P k (f k) v := by
  induction ws generalizing f with
  | nil => exact ⟨fun _ _ _ h => absurd h List.not_mem_nil, fun _ => trivial⟩
  | cons w ws ih =>
    obtain ⟨k₀, v₀⟩ := w
    rw [List.map_cons, List.nodup_cons] at hnd
    -- the later writes see `f` itself: their keys are not `k₀`
    have hlater : ∀ k v, (k, v) ∈ ws → Function.update f k₀ v₀ k = f k := fun k v hkv =>
      Function.update_of_ne (fun h => hnd.1 (by rw [← h]; exact List.mem_map.mpr ⟨_, hkv, rfl⟩)) _ _
    rw [Replays, ih _ hnd.2]
    constructor
    · rintro ⟨h₀, hws⟩ k v hkv
      rcases List.mem_cons.mp hkv with he | he
      · cases he
        exact h₀
      · rw [← hlater k v he]
        exact hws k v he
    · intro h
      refine ⟨h k₀ v₀ List.mem_cons_self, fun k v hkv => ?_⟩
      rw [hlater k v hkv]
      exact h k v (List.mem_cons_of_mem _ hkv)

/-! ## The undo log -/

/-- Each key of `ws` with the value it held just before its write. -/
def undoLog (f : α → β) : List (α × β) → List (α × β)
  | [] => []
  | (k, v) :: ws => (k, f k) :: undoLog (Function.update f k v) ws

theorem undoLog_append (f : α → β) (ws₁ ws₂ : List (α × β)) :
    undoLog f (ws₁ ++ ws₂) = undoLog f ws₁ ++ undoLog (applyWrites f ws₁) ws₂ := by
  induction ws₁ generalizing f with
  | nil => rfl
  | cons w ws₁ ih =>
    obtain ⟨k, v⟩ := w
    rw [List.cons_append, undoLog, undoLog, ih, applyWrites_cons, List.cons_append]

/-- Undoing in reverse order gives back the original function.  The
    induction is on the writes: the last undo step restores the first
    write's key, and what it leaves is `f` by `Function.update_eq_self`. -/
theorem applyWrites_undoLog_reverse (f : α → β) (ws : List (α × β)) :
    applyWrites (applyWrites f ws) (undoLog f ws).reverse = f := by
  induction ws generalizing f with
  | nil => rfl
  | cons w ws ih =>
    obtain ⟨k, v⟩ := w
    rw [undoLog, List.reverse_cons, applyWrites_append, applyWrites_cons f k v, ih, applyWrites_cons,
      applyWrites_nil, Function.update_idem, Function.update_eq_self]

/-- On the way back each undo step finds what its write left and puts back
    what the write found. -/
theorem replays_undoLog_reverse (f : α → β) (ws : List (α × β)) (h : Replays P f ws) :
    Replays (fun k new old => P k old new) (applyWrites f ws) (undoLog f ws).reverse := by
  induction ws generalizing f with
  | nil => trivial
  | cons w ws ih =>
    obtain ⟨k, v⟩ := w
    obtain ⟨hk, hws⟩ := h
    rw [undoLog, List.reverse_cons, replays_append, applyWrites_cons f k v,
      applyWrites_undoLog_reverse]
    refine ⟨ih _ hws, ?_, trivial⟩
    rw [Function.update_self]
    exact hk

end UndoLog
