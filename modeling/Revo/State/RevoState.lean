/-
  Revo.State.RevoState

  The UTXO side of `RevoState` (`revo/revostate.{h,cpp}`): every contract
  address owns at most one UTXO, recorded as a `Vin` (the outpoint, its value
  and an `alive` flag).  The state keeps a write-back cache `cacheUTXO` over
  the trie `stateUTXO`; `vin(a)` reads the cache, and on a miss decodes the
  trie entry and inserts it into the cache, returning a pointer to the cached
  copy.  `updateUTXO` writes through that pointer, or inserts a new cache
  entry when the address has no UTXO and the new one is alive.

  Both `unordered_map`s are modelled as functions: every operation on them is
  a lookup or an update at one key.  The EVM account of an address enters
  only through `account(a) && account(a)->isAlive()`, the field `accountAlive`.
-/

import Revo.Lib.OrdMap
import Revo.Primitives.Transaction
import Mathlib.Logic.Function.Basic

namespace Revo

/-- `TransferInfo`: one value transfer recorded by `transferBalance`. -/
structure TransferInfo where
  fromAddr : Address
  toAddr : Address
  value : U256
  deriving DecidableEq, Repr

/-- `Vin`: the UTXO an address owns. -/
structure Vin where
  hash : Hash256
  nVout : Nat
  value : U256
  alive : UInt8
  deriving DecidableEq, Repr

/-- The value-initialised `Vin{}` that `std::map::operator[]` inserts. -/
instance : Inhabited Vin := ⟨⟨0, 0, 0, 0⟩⟩

/-- The fields of `RevoTransaction` (`revo/revotransaction.h`) the modelled code reads. -/
structure RevoTransaction where
  sender : Address
  value : U256
  gas : U256
  gasPrice : U256
  hashWith : Hash256
  nVout : Nat
  refundSender : Address
  deriving DecidableEq, Repr

/-- The UTXO part of `RevoState`. -/
structure RevoState where
  cacheUTXO : Address → Option Vin
  stateUTXO : Address → Option Vin
  accountAlive : Address → Bool

namespace RevoState

/-- What `vin(a)` points at: the cached entry, else the trie's. -/
def vinOf (s : RevoState) (a : Address) : Option Vin := (s.cacheUTXO a).or (s.stateUTXO a)

/-- `RevoState::vin(a)`: the result, and the state with a trie hit cached. -/
def vin (s : RevoState) (a : Address) : Option Vin × RevoState :=
  match s.cacheUTXO a with
  | some v => (some v, s)
  | none =>
    match s.stateUTXO a with
    | none => (none, s)
    | some v => (some v, { s with cacheUTXO := Function.update s.cacheUTXO a (some v) })

theorem vin_fst (s : RevoState) (a : Address) : (s.vin a).1 = s.vinOf a := by
  unfold vin vinOf
  cases h : s.cacheUTXO a <;> cases h' : s.stateUTXO a <;> simp

/-- Reading a vin caches it and changes nothing observable. -/
@[simp] theorem vinOf_vin_snd (s : RevoState) (a b : Address) : (s.vin a).2.vinOf b = s.vinOf b := by
  unfold vin vinOf
  cases h : s.cacheUTXO a with
  | some v => simp
  | none =>
    cases h' : s.stateUTXO a with
    | none => simp
    | some v =>
      by_cases hb : b = a
      · subst hb; simp [h, h']
      · simp [Function.update_of_ne hb]

@[simp] theorem accountAlive_vin_snd (s : RevoState) (a : Address) :
    (s.vin a).2.accountAlive = s.accountAlive := by
  unfold vin
  cases s.cacheUTXO a <;> try cases s.stateUTXO a
  all_goals rfl

/-- One iteration of `updateUTXO`: overwrite the vin `a` owns, or create it
    when `a` has none and `v` is alive. -/
def updateUTXOStep (s : RevoState) (e : Address × Vin) : RevoState :=
  match s.vin e.1 with
  | (some _, s') => { s' with cacheUTXO := Function.update s'.cacheUTXO e.1 (some e.2) }
  | (none, s') =>
    if e.2.alive > 0 then { s' with cacheUTXO := Function.update s'.cacheUTXO e.1 (some e.2) }
    else s'

/-- `RevoState::updateUTXO(vins)`. -/
def updateUTXO (s : RevoState) (vins : List (Address × Vin)) : RevoState :=
  vins.foldl updateUTXOStep s

/-- Writing the cache entry of `a` is what `vin(a)` then returns. -/
theorem vinOf_setCache (s : RevoState) (a b : Address) (v : Vin) :
    ({ s with cacheUTXO := Function.update s.cacheUTXO a (some v) } : RevoState).vinOf b =
      if b = a then some v else s.vinOf b := by
  by_cases hb : b = a
  · subst hb; simp [vinOf]
  · simp [vinOf, hb]

/-- What one step leaves `vin(b)` pointing at. -/
theorem vinOf_updateUTXOStep (s : RevoState) (e : Address × Vin) (b : Address) :
    (s.updateUTXOStep e).vinOf b =
      if b = e.1 ∧ (s.vinOf e.1 ≠ none ∨ e.2.alive > 0) then some e.2 else s.vinOf b := by
  obtain ⟨a, v⟩ := e
  have hfst := vin_fst s a
  unfold updateUTXOStep
  rcases hv : s.vin a with ⟨r, s'⟩
  rw [hv] at hfst
  have hobs : ∀ c, s'.vinOf c = s.vinOf c := fun c => by
    simpa [hv] using vinOf_vin_snd s a c
  simp only at hfst
  cases r with
  | some w =>
    -- `a` already owns a vin: it is overwritten whatever `alive` says
    have hne : s.vinOf a ≠ none := by rw [← hfst]; simp
    simp only [vinOf_setCache, hobs]
    by_cases hb : b = a <;> simp [hb, hne]
  | none =>
    by_cases hal : v.alive > 0
    · simp only [hal, if_true, vinOf_setCache, hobs]
      by_cases hb : b = a <;> simp [hb]
    · simp [hal, ← hfst, hobs b]

@[simp] theorem accountAlive_updateUTXOStep (s : RevoState) (e : Address × Vin) :
    (s.updateUTXOStep e).accountAlive = s.accountAlive := by
  unfold updateUTXOStep
  rcases hv : s.vin e.1 with ⟨r, s'⟩
  have h := accountAlive_vin_snd s e.1
  rw [hv] at h
  cases r <;> simp only <;> try split
  all_goals simpa using h

/-- `updateUTXO` over entries with distinct keys, in any order: an address
    with an entry gets it when it already owned a vin or the entry is alive;
    every other address keeps what it had. -/
theorem vinOf_updateUTXO (s : RevoState) (l : List (Address × Vin)) (hl : (l.map Prod.fst).Nodup)
    (b : Address) :
    (s.updateUTXO l).vinOf b =
      match OrdMap.findList b l with
      | some v => if s.vinOf b ≠ none ∨ v.alive > 0 then some v else s.vinOf b
      | none => s.vinOf b := by
  induction l generalizing s with
  | nil => rfl
  | cons e rest ih =>
    obtain ⟨a, v⟩ := e
    rw [List.map_cons, List.nodup_cons] at hl
    -- the later entries are at other keys, so the step's write to `a` survives them
    have hrest : b = a → OrdMap.findList b rest = none := by
      rintro rfl
      cases hf : OrdMap.findList b rest with
      | none => rfl
      | some w =>
        exact absurd (List.mem_map.mpr ⟨(b, w),
          (OrdMap.mem_iff_findList_of_nodup hl.2 b w).mpr hf, rfl⟩) hl.1
    rw [updateUTXO, List.foldl_cons, ← updateUTXO, ih _ hl.2]
    by_cases hb : b = a
    · subst hb
      simp [hrest rfl, vinOf_updateUTXOStep, OrdMap.findList]
    · simp [vinOf_updateUTXOStep, OrdMap.findList, hb]

end RevoState

end Revo
