/-
  Revo.Coins.CoinsViewProofs

  A stack of coin caches stands for a plain map from outpoints to unspent
  coins (`CoinsMap`): the view `viewOf` that `GetCoin` through the top
  cache reads.  The entry invariant (`EntryInv`) says what the flags of an
  entry promise about its parents' view: an entry that is not `DIRTY` shows
  what the parents show, a `FRESH` one stands over no unspent coin of the
  parents, and a spent coin is the empty one.

  Every call keeps the invariant, and changes the view of the stack from the
  cache it is made on down as the same call on the map would
  (`CoinsStack.step_spec`); a run of calls then does so by induction
  (`CoinsStack.run_spec`).  The promise of `FRESH` is about the parent's
  view only: an ancestor further down may still hold the coin, spent in a
  cache between them (`coinsCache_fresh_over_unspent`).
-/

import Revo.Coins.CoinsView

namespace Revo

/-- The plain map a coin view stands for: the unspent coin of each outpoint. -/
abbrev CoinsMap := COutPoint → Option Coin

theorem Coin.unspent_of_not_spent {c : Coin} (h : c.isSpent = false) : c.unspent = some c := by
  rw [Coin.unspent, if_neg (by rw [h]; decide)]

theorem Coin.unspent_of_spent {c : Coin} (h : c.isSpent = true) : c.unspent = none := by
  rw [Coin.unspent, if_pos h]

theorem Coin.eq_of_unspent_eq_some {c c' : Coin} (h : c.unspent = some c') :
    c = c' ∧ c.isSpent = false := by
  unfold Coin.unspent at h
  split at h
  · cases h
  · cases h
    rename_i hs
    exact ⟨rfl, by simpa using hs⟩

/-! ## The view of a stack -/

/-- What a cache's entry (or its absence) shows over its parents' view `below`. -/
def overView (o : Option CCoinsCacheEntry) (below : Option Coin) : Option Coin :=
  match o with
  | some e => e.coin.unspent
  | none => below

/-- The coins that `GetCoin` returns true for, through `layers` over `db`. -/
def viewOf (db : CCoinsViewDB) : List CCoinsViewCache → CoinsMap
  | [], k => (db.coins k).bind Coin.unspent
  | l :: ps, k => overView (l.cacheCoins.find? k) (viewOf db ps k)

@[simp] theorem viewOf_cons (db : CCoinsViewDB) (l : CCoinsViewCache) (ps : List CCoinsViewCache)
    (k : COutPoint) : viewOf db (l :: ps) k = overView (l.cacheCoins.find? k) (viewOf db ps k) := rfl

def CoinsStack.view (st : CoinsStack) : CoinsMap := viewOf st.db st.layers

theorem viewOf_not_spent {db : CCoinsViewDB} {ls : List CCoinsViewCache} {k : COutPoint} {c : Coin}
    (h : viewOf db ls k = some c) : c.isSpent = false := by
  induction ls with
  | nil =>
    obtain ⟨c', _, hc'⟩ := Option.bind_eq_some_iff.mp h
    exact (Coin.eq_of_unspent_eq_some hc').1 ▸ (Coin.eq_of_unspent_eq_some hc').2
  | cons l ps ih =>
    rw [viewOf_cons] at h
    unfold overView at h
    split at h
    · exact (Coin.eq_of_unspent_eq_some h).1 ▸ (Coin.eq_of_unspent_eq_some h).2
    · exact ih h

/-- Caches over parents with the same view show the same view. -/
theorem viewOf_cons_congr {db db' : CCoinsViewDB} {ps ps' : List CCoinsViewCache}
    (h : viewOf db' ps' = viewOf db ps) (l : CCoinsViewCache) :
    viewOf db' (l :: ps') = viewOf db (l :: ps) := by
  funext k
  rw [viewOf_cons, viewOf_cons, h]

theorem viewOf_append_congr {db db' : CCoinsViewDB} {ls ls' : List CCoinsViewCache}
    (h : viewOf db' ls' = viewOf db ls) (pre : List CCoinsViewCache) :
    viewOf db' (pre ++ ls') = viewOf db (pre ++ ls) := by
  induction pre with
  | nil => exact h
  | cons l pre ih => exact viewOf_cons_congr ih l

/-! ## The invariant -/

/-- What the flags of an entry promise about the view `below` of its parents. -/
structure EntryInv (e : CCoinsCacheEntry) (below : Option Coin) : Prop where
  clean : e.dirty = false → e.coin.unspent = below
  fresh : e.fresh = true → below = none
  spent : e.coin.isSpent = true → e.coin = Coin.empty

/-- Every entry of the cache `l` keeps its promise about its parents `ps`. -/
def LayerInv (db : CCoinsViewDB) (l : CCoinsViewCache) (ps : List CCoinsViewCache) : Prop :=
  ∀ k e, l.cacheCoins.find? k = some e → EntryInv e (viewOf db ps k)

def LayersInv (db : CCoinsViewDB) : List CCoinsViewCache → Prop
  | [] => True
  | l :: ps => LayerInv db l ps ∧ LayersInv db ps

/-- The database stores unspent coins only (`CCoinsViewDB::BatchWrite`
    erases the spent ones). -/
def DBInv (db : CCoinsViewDB) : Prop := ∀ k c, db.coins k = some c → c.isSpent = false

structure CoinsStack.Inv (st : CoinsStack) : Prop where
  db : DBInv st.db
  layers : LayersInv st.db st.layers

theorem viewOf_nil_of_inv {db : CCoinsViewDB} (hdb : DBInv db) (k : COutPoint) :
    viewOf db [] k = db.coins k := by
  show (db.coins k).bind Coin.unspent = db.coins k
  cases h : db.coins k with
  | none => rfl
  | some c => exact Coin.unspent_of_not_spent (hdb k c h)

theorem LayerInv.congr {db db' : CCoinsViewDB} {l : CCoinsViewCache} {ps ps' : List CCoinsViewCache}
    (hl : LayerInv db l ps) (h : viewOf db' ps' = viewOf db ps) : LayerInv db' l ps' := by
  intro k e he
  rw [h]
  exact hl k e he

theorem LayersInv.append_congr {db db' : CCoinsViewDB} {ls ls' : List CCoinsViewCache}
    (h : viewOf db' ls' = viewOf db ls) (hls' : LayersInv db' ls') :
    ∀ pre : List CCoinsViewCache, LayersInv db (pre ++ ls) → LayersInv db' (pre ++ ls')
  | [], _ => hls'
  | _ :: pre, ⟨hl, hpre⟩ =>
    ⟨hl.congr (viewOf_append_congr h pre), LayersInv.append_congr h hls' pre hpre⟩

/-- An empty cache keeps every promise. -/
theorem LayerInv.empty (db : CCoinsViewDB) (l : CCoinsViewCache) (ps : List CCoinsViewCache)
    (h : l.cacheCoins = .empty) : LayerInv db l ps := by
  intro k e he
  rw [h, AssocMap.find?_empty] at he
  cases he

/-- A cache whose entries change only at `k` keeps its promises elsewhere. -/
theorem LayerInv.update {db : CCoinsViewDB} {l l' : CCoinsViewCache} {ps : List CCoinsViewCache}
    (hl : LayerInv db l ps) (k : COutPoint)
    (hother : ∀ k', k' ≠ k → l'.cacheCoins.find? k' = l.cacheCoins.find? k')
    (hk : ∀ e, l'.cacheCoins.find? k = some e → EntryInv e (viewOf db ps k)) :
    LayerInv db l' ps := by
  intro k' e he
  by_cases hk' : k' = k
  · subst hk'
    exact hk e he
  · rw [hother k' hk'] at he
    exact hl k' e he

/-! ## Reads -/

section Reads

variable {db : CCoinsViewDB} (hdb : DBInv db)
include hdb

/-- What a read through the cache `l` over `ps` leaves: the entry `e` it
    found, the cache `l'` holding it, and parents `ps'` with the old view;
    the whole stack keeps its view and its invariant. -/
structure Fetched (db : CCoinsViewDB) (l : CCoinsViewCache) (ps : List CCoinsViewCache)
    (k : COutPoint) (e : Option CCoinsCacheEntry) (l' : CCoinsViewCache)
    (ps' : List CCoinsViewCache) : Prop where
  answer : e.bind (fun e => e.coin.unspent) = viewOf db (l :: ps) k
  entry : l'.cacheCoins.find? k = e
  parents : viewOf db ps' = viewOf db ps
  view : viewOf db (l' :: ps') = viewOf db (l :: ps)
  inv : LayersInv db (l' :: ps')
  length : ps'.length = ps.length

omit hdb in
/-- `FetchCoin` given that the parents' `GetCoin` answers with their view
    and keeps it. -/
theorem fetchCoin_spec_of {l : CCoinsViewCache} {ps : List CCoinsViewCache} {k : COutPoint}
    (hinv : LayersInv db (l :: ps))
    (hparent : (getCoin db ps k).1 = viewOf db ps k ∧
      viewOf db (getCoin db ps k).2 = viewOf db ps ∧ LayersInv db (getCoin db ps k).2 ∧
      (getCoin db ps k).2.length = ps.length) :
    Fetched db l ps k (fetchCoin db l ps k).1 (fetchCoin db l ps k).2.1 (fetchCoin db l ps k).2.2 := by
  obtain ⟨hl, hps⟩ := hinv
  unfold fetchCoin
  cases hfind : l.cacheCoins.find? k with
  | some e =>
    -- found in this cache: nothing changes
    exact ⟨by rw [viewOf_cons, hfind]; rfl, hfind, rfl, rfl, ⟨hl, hps⟩, rfl⟩
  | none =>
    obtain ⟨hr, hview, hinv', hlen⟩ := hparent
    dsimp only
    have hl' : LayerInv db l (getCoin db ps k).2 := hl.congr hview
    cases hget : (getCoin db ps k).1 with
    | none =>
      rw [hget] at hr
      refine ⟨?_, hfind, hview, viewOf_cons_congr hview l, ⟨hl', hinv'⟩, hlen⟩
      rw [viewOf_cons, hfind, ← hr]
      rfl
    | some c =>
      -- the parents' coin is unspent, and is kept as a clean entry
      rw [hget] at hr
      have hc : c.isSpent = false := viewOf_not_spent hr.symm
      have hentry : EntryInv ⟨c, false, c.isSpent⟩ (viewOf db (getCoin db ps k).2 k) := by
        rw [hview, ← hr]
        exact ⟨fun _ => Coin.unspent_of_not_spent hc, fun h => absurd h (by simp [hc]),
          fun h => absurd h (by simp [hc])⟩
      refine ⟨?_, ?_, hview, ?_, ⟨?_, hinv'⟩, hlen⟩
      · show c.unspent = viewOf db (l :: ps) k
        rw [viewOf_cons, hfind, Coin.unspent_of_not_spent hc, ← hr]
        rfl
      · show (l.cacheCoins.insert k _).find? k = _
        rw [AssocMap.find?_insert, if_pos rfl]
        rfl
      · funext k'
        show overView ((l.cacheCoins.insert k _).find? k') _ = _
        rw [AssocMap.find?_insert, viewOf_cons, hview]
        by_cases hk : k' = k
        · subst hk
          rw [if_pos rfl, hfind, ← hr]
          exact Coin.unspent_of_not_spent hc
        · rw [if_neg hk]
      · refine hl'.update k (fun k' hk => ?_) (fun e he => ?_)
        · show (l.cacheCoins.insert k _).find? k' = _
          rw [AssocMap.find?_insert, if_neg hk]
        · have he' : (l.cacheCoins.insert k ⟨c, false, c.isSpent⟩).find? k = some e := he
          rw [AssocMap.find?_insert, if_pos rfl] at he'
          cases he'
          exact hentry

/-- `GetCoin` through any number of caches answers with the view, and keeps
    the view and the invariant.  The induction is on the caches: a cache
    either holds the coin or asks its parents. -/
theorem getCoin_spec (ls : List CCoinsViewCache) (hls : LayersInv db ls) (k : COutPoint) :
    (getCoin db ls k).1 = viewOf db ls k ∧ viewOf db (getCoin db ls k).2 = viewOf db ls ∧
      LayersInv db (getCoin db ls k).2 ∧ (getCoin db ls k).2.length = ls.length := by
  induction ls with
  | nil => exact ⟨(viewOf_nil_of_inv hdb k).symm, rfl, trivial, rfl⟩
  | cons l ps ih =>
    have hf := fetchCoin_spec_of hls (ih hls.2)
    -- `GetCoin` of a cache is its `FetchCoin`, read
    have hget : getCoin db (l :: ps) k = ((fetchCoin db l ps k).1.bind (fun e => e.coin.unspent),
        (fetchCoin db l ps k).2.1 :: (fetchCoin db l ps k).2.2) := by
      unfold getCoin fetchCoin
      cases l.cacheCoins.find? k <;> rfl
    rw [hget]
    exact ⟨hf.answer, hf.view, hf.inv, by rw [List.length_cons, List.length_cons, hf.length]⟩

theorem fetchCoin_spec (l : CCoinsViewCache) (ps : List CCoinsViewCache) (hinv : LayersInv db (l :: ps))
    (k : COutPoint) :
    Fetched db l ps k (fetchCoin db l ps k).1 (fetchCoin db l ps k).2.1 (fetchCoin db l ps k).2.2 :=
  fetchCoin_spec_of hinv (getCoin_spec hdb ps hinv.2 k)

/-- `AccessCoin` answers with the view's coin, or `coinEmpty` where the view
    has none: a spent entry holds the empty coin. -/
theorem accessCoin_spec (l : CCoinsViewCache) (ps : List CCoinsViewCache) (hinv : LayersInv db (l :: ps))
    (k : COutPoint) :
    (accessCoin db l ps k).1 = (viewOf db (l :: ps) k).getD Coin.empty ∧
      Fetched db l ps k (fetchCoin db l ps k).1 (accessCoin db l ps k).2.1 (accessCoin db l ps k).2.2 := by
  have hf := fetchCoin_spec hdb l ps hinv k
  refine ⟨?_, hf⟩
  show ((fetchCoin db l ps k).1.map CCoinsCacheEntry.coin).getD Coin.empty = _
  rw [← hf.answer]
  cases he : (fetchCoin db l ps k).1 with
  | none => rfl
  | some x =>
    have hx := hf.inv.1 k x (hf.entry.trans he)
    show x.coin = x.coin.unspent.getD Coin.empty
    by_cases hs : x.coin.isSpent = true
    · rw [Coin.unspent_of_spent hs, hx.spent hs]
      rfl
    · rw [Coin.unspent_of_not_spent (by simpa using hs)]
      rfl

/-- `HaveCoin` answers whether the view has a coin. -/
theorem haveCoin_spec (l : CCoinsViewCache) (ps : List CCoinsViewCache) (hinv : LayersInv db (l :: ps))
    (k : COutPoint) :
    (haveCoin db l ps k).1 = (viewOf db (l :: ps) k).isSome ∧
      Fetched db l ps k (fetchCoin db l ps k).1 (haveCoin db l ps k).2.1 (haveCoin db l ps k).2.2 := by
  have hf := fetchCoin_spec hdb l ps hinv k
  refine ⟨?_, hf⟩
  show ((fetchCoin db l ps k).1.map fun e => !e.coin.isSpent).getD false = _
  rw [← hf.answer]
  cases (fetchCoin db l ps k).1 with
  | none => rfl
  | some x =>
    show (!x.coin.isSpent) = x.coin.unspent.isSome
    by_cases hs : x.coin.isSpent = true
    · rw [Coin.unspent_of_spent hs, hs]
      rfl
    · rw [Coin.unspent_of_not_spent (by simpa using hs), Bool.eq_false_iff.mpr hs]
      rfl

end Reads

/-! ## Writes -/

/-- A change of the top cache at `k` alone changes the view at `k` alone. -/
theorem viewOf_cons_of_frame {db : CCoinsViewDB} {l l' : CCoinsViewCache} {ps : List CCoinsViewCache}
    (k : COutPoint) (hother : ∀ k', k' ≠ k → l'.cacheCoins.find? k' = l.cacheCoins.find? k') :
    viewOf db (l' :: ps) =
      Function.update (viewOf db (l :: ps)) k (overView (l'.cacheCoins.find? k) (viewOf db ps k)) := by
  funext k'
  by_cases hk : k' = k
  · subst hk
    rw [Function.update_self]
    rfl
  · rw [Function.update_of_ne hk, viewOf_cons, viewOf_cons, hother k' hk]

theorem find?_insert_of_ne (m : CCoinsMap) {k k' : COutPoint} (e : CCoinsCacheEntry) (hk : k' ≠ k) :
    (m.insert k e).find? k' = m.find? k' := by
  rw [AssocMap.find?_insert, if_neg hk]

theorem find?_erase_of_ne (m : CCoinsMap) {k k' : COutPoint} (hk : k' ≠ k) :
    (m.erase k).find? k' = m.find? k' := by
  rw [AssocMap.find?_erase, if_neg hk]

/-- A cache emptied by `Flush` shows its parents' view. -/
theorem viewOf_cleared (db : CCoinsViewDB) (l : CCoinsViewCache) (ps : List CCoinsViewCache) :
    viewOf db ({ l with cacheCoins := .empty } :: ps) = viewOf db ps := by
  funext k
  rfl

/-- `AddCoin` of an unspent coin with an unspendable script leaves the cache
    as it is. -/
theorem addCoin_unspendable (l : CCoinsViewCache) (k : COutPoint) (coin : Coin) (po : Bool)
    (hcoin : coin.isSpent = false) (hunsp : coin.out.scriptPubKey.isUnspendable = true) :
    l.addCoin k coin po = .ok l := by
  unfold CCoinsViewCache.addCoin
  rw [if_neg (by rw [hcoin]; decide), if_pos hunsp]

/-- `AddCoin` of an unspent coin, with `possible_overwrite` false only where
    the view has no unspent coin, does not throw; it shows the coin, unless
    its script is unspendable and nothing changes. -/
theorem addCoin_spec {db : CCoinsViewDB} {l : CCoinsViewCache} {ps : List CCoinsViewCache}
    (hl : LayerInv db l ps) (k : COutPoint) (coin : Coin) (po : Bool)
    (hcoin : coin.isSpent = false) (hpo : po = false → viewOf db (l :: ps) k = none) :
    ∃ l', l.addCoin k coin po = .ok l' ∧ LayerInv db l' ps ∧
      viewOf db (l' :: ps) = if coin.out.scriptPubKey.isUnspendable then viewOf db (l :: ps)
        else Function.update (viewOf db (l :: ps)) k (some coin) := by
  unfold CCoinsViewCache.addCoin
  rw [if_neg (by rw [hcoin]; decide)]
  by_cases hunsp : coin.out.scriptPubKey.isUnspendable = true
  · rw [if_pos hunsp, if_pos hunsp]
    exact ⟨l, rfl, hl, rfl⟩
  rw [if_neg hunsp, if_neg hunsp]
  -- what the entry `emplace` finds promises: no unspent coin where the
  -- overwrite is not allowed, and no unspent coin below when it goes `FRESH`
  have hentry : (po = false → (l.entryOrEmpty k).coin.isSpent = true) ∧
      (((l.entryOrEmpty k).fresh || (!po && !(l.entryOrEmpty k).dirty)) = true →
        viewOf db ps k = none) := by
    unfold CCoinsViewCache.entryOrEmpty
    cases hfind : l.cacheCoins.find? k with
    | some x =>
      have hx := hl k x hfind
      have hview : po = false → x.coin.unspent = none := fun h => by
        have := hpo h
        rwa [viewOf_cons, hfind] at this
      refine ⟨fun h => ?_, fun h => ?_⟩
      · unfold Coin.unspent at hview
        split at hview
        · assumption
        · cases hview h
      · rcases Bool.or_eq_true_iff.mp h with hf | hf
        · exact hx.fresh hf
        · simp only [Bool.and_eq_true, Bool.not_eq_true'] at hf
          rw [← hx.clean hf.2]
          exact hview hf.1
    | none =>
      refine ⟨fun _ => Coin.isSpent_empty, fun h => ?_⟩
      simp only [Option.getD_none, Bool.false_or, Bool.and_eq_true, Bool.not_eq_true'] at h
      have := hpo h.1
      rwa [viewOf_cons, hfind] at this
  rw [if_neg (by
    intro h
    simp only [Bool.and_eq_true, Bool.not_eq_true'] at h
    rw [hentry.1 h.1] at h
    cases h.2)]
  refine ⟨_, rfl, ?_, ?_⟩
  · -- the new entry is `DIRTY`; it is `FRESH` only over no unspent coin
    refine hl.update k (fun k' hk => find?_insert_of_ne _ _ hk) (fun e he => ?_)
    rw [AssocMap.find?_insert, if_pos rfl] at he
    cases he
    exact ⟨fun h => by simp at h, hentry.2, fun h => absurd h (by simp [hcoin])⟩
  · rw [viewOf_cons_of_frame k (fun k' hk => find?_insert_of_ne _ _ hk), AssocMap.find?_insert,
      if_pos rfl]
    exact congrArg _ (Coin.unspent_of_not_spent hcoin)

/-- `SpendCoin` leaves no unspent coin at `k`, and keeps the invariant; an
    unspent coin is found and moved out. -/
theorem spendCoin_spec {db : CCoinsViewDB} (hdb : DBInv db) (l : CCoinsViewCache)
    (ps : List CCoinsViewCache) (hinv : LayersInv db (l :: ps)) (k : COutPoint)
    {ok : Bool} {moved : Option Coin} {l' : CCoinsViewCache} {ps' : List CCoinsViewCache}
    (h : spendCoin db l ps k = (ok, moved, l', ps')) :
    LayersInv db (l' :: ps') ∧ viewOf db (l' :: ps') = Function.update (viewOf db (l :: ps)) k none ∧
      ps'.length = ps.length ∧ ∀ c, viewOf db (l :: ps) k = some c → ok = true ∧ moved = some c := by
  have hf := fetchCoin_spec hdb l ps hinv k
  unfold spendCoin at h
  rcases hfc : fetchCoin db l ps k with ⟨e, l₁, ps₁⟩
  rw [hfc] at hf h
  cases e with
  | none =>
    -- nothing to spend: the view had no unspent coin at `k`
    cases h
    have hnone : viewOf db (l :: ps) k = none := hf.answer.symm
    refine ⟨hf.inv, ?_, hf.length, fun c hc => by rw [hnone] at hc; cases hc⟩
    rw [hf.view, Function.update_eq_self_iff.mpr hnone.symm]
  | some x =>
    dsimp only at h
    have hx : EntryInv x (viewOf db ps₁ k) := hf.inv.1 k x hf.entry
    have hmoved : ∀ c, viewOf db (l :: ps) k = some c → x.coin = c := fun c hc => by
      have := hf.answer
      rw [hc] at this
      exact (Coin.eq_of_unspent_eq_some this).1
    by_cases hfresh : x.fresh = true
    · -- a `FRESH` entry is erased: the parents had no unspent coin
      rw [if_pos hfresh] at h
      cases h
      refine ⟨⟨hf.inv.1.update k (fun k' hk => find?_erase_of_ne _ hk) (fun e he => ?_), hf.inv.2⟩,
        ?_, hf.length, fun c hc => ⟨rfl, by rw [hmoved c hc]⟩⟩
      · rw [AssocMap.find?_erase, if_pos rfl] at he
        cases he
      · rw [viewOf_cons_of_frame k (fun k' hk => find?_erase_of_ne _ hk), AssocMap.find?_erase,
          if_pos rfl, hf.view]
        exact congrArg _ (hx.fresh hfresh)
    · -- any other entry becomes the spent, `DIRTY` empty coin
      rw [if_neg hfresh] at h
      cases h
      refine ⟨⟨hf.inv.1.update k (fun k' hk => find?_insert_of_ne _ _ hk) (fun e he => ?_), hf.inv.2⟩,
        ?_, hf.length, fun c hc => ⟨rfl, by rw [hmoved c hc]⟩⟩
      · rw [AssocMap.find?_insert, if_pos rfl] at he
        cases he
        exact ⟨fun h => by simp at h, fun h => absurd h hfresh, fun _ => rfl⟩
      · rw [viewOf_cons_of_frame k (fun k' hk => find?_insert_of_ne _ _ hk), AssocMap.find?_insert,
          if_pos rfl, hf.view]
        rfl

/-- `Uncache` drops only entries that show what the parents show. -/
theorem uncache_spec {db : CCoinsViewDB} {l : CCoinsViewCache} {ps : List CCoinsViewCache}
    (hl : LayerInv db l ps) (k : COutPoint) :
    LayerInv db (l.uncache k) ps ∧ viewOf db (l.uncache k :: ps) = viewOf db (l :: ps) := by
  unfold CCoinsViewCache.uncache
  cases hfind : l.cacheCoins.find? k with
  | none => exact ⟨hl, rfl⟩
  | some e =>
    dsimp only
    by_cases hflags : (!e.dirty && !e.fresh) = true
    · rw [if_pos hflags]
      simp only [Bool.and_eq_true, Bool.not_eq_true'] at hflags
      refine ⟨hl.update k (fun k' hk => find?_erase_of_ne _ hk) (fun x hx => ?_), ?_⟩
      · rw [AssocMap.find?_erase, if_pos rfl] at hx
        cases hx
      · rw [viewOf_cons_of_frame k (fun k' hk => find?_erase_of_ne _ hk), AssocMap.find?_erase,
          if_pos rfl]
        -- the dropped entry was clean: the parents show the same
        have hclean := (hl k e hfind).clean hflags.1
        rw [Function.update_eq_self_iff, viewOf_cons, hfind]
        exact hclean.symm
    · rw [if_neg hflags]
      exact ⟨hl, rfl⟩

/-- One iteration of `BatchWrite` never throws on entries that keep their
    promises, and leaves the parent showing the child's coin. -/
theorem batchWriteEntry_spec (e : CCoinsCacheEntry) (q : Option CCoinsCacheEntry)
    (below : Option Coin) (he : EntryInv e (overView q below))
    (hq : ∀ x, q = some x → EntryInv x below) :
    ∃ r, batchWriteEntry e q = .ok r ∧ overView r below = e.coin.unspent ∧
      ∀ x, r = some x → EntryInv x below := by
  unfold batchWriteEntry
  by_cases hd : e.dirty = false
  · rw [if_pos (by rw [hd]; rfl)]
    exact ⟨q, rfl, (he.clean hd).symm, hq⟩
  rw [if_neg (by simpa using hd)]
  cases q with
  | none =>
    dsimp only
    by_cases hfs : (e.fresh && e.coin.isSpent) = true
    · -- spent and `FRESH`: nothing below to overwrite
      rw [if_pos hfs]
      simp only [Bool.and_eq_true] at hfs
      have hbelow : below = none := he.fresh hfs.1
      exact ⟨none, rfl, by rw [Coin.unspent_of_spent hfs.2]; exact hbelow,
        fun x hx => by cases hx⟩
    · rw [if_neg hfs]
      refine ⟨_, rfl, rfl, fun x hx => ?_⟩
      cases hx
      exact ⟨fun h => by simp at h, he.fresh, he.spent⟩
  | some p =>
    dsimp only
    have hp := hq p rfl
    -- `FRESH` over an unspent parent coin would break the child's promise
    have hnot : ¬ (e.fresh && !p.coin.isSpent) = true := by
      intro h
      simp only [Bool.and_eq_true, Bool.not_eq_true'] at h
      have := he.fresh h.1
      rw [overView, Coin.unspent_of_not_spent h.2] at this
      cases this
    rw [if_neg hnot]
    by_cases hps : (p.fresh && e.coin.isSpent) = true
    · rw [if_pos hps]
      simp only [Bool.and_eq_true] at hps
      exact ⟨none, rfl, by rw [Coin.unspent_of_spent hps.2]; exact hp.fresh hps.1,
        fun x hx => by cases hx⟩
    · rw [if_neg hps]
      refine ⟨_, rfl, rfl, fun x hx => ?_⟩
      cases hx
      exact ⟨fun h => by simp at h, hp.fresh, he.spent⟩

/-- `BatchWrite` of a cache into its parent never throws, and the parent
    then shows what the two showed together. -/
theorem batchWrite_spec {db : CCoinsViewDB} {l p : CCoinsViewCache} {ps : List CCoinsViewCache}
    (hl : LayerInv db l (p :: ps)) (hp : LayerInv db p ps) (h : Hash256) :
    ∃ p', p.batchWrite l.cacheCoins h = .ok p' ∧ LayerInv db p' ps ∧
      viewOf db (p' :: ps) = viewOf db (l :: p :: ps) := by
  have hent : ∀ k e, (k, e) ∈ l.cacheCoins.entries → ∃ r,
      batchWriteEntry e (p.cacheCoins.find? k) = .ok r ∧ overView r (viewOf db ps k) = e.coin.unspent ∧
        ∀ x, r = some x → EntryInv x (viewOf db ps k) := fun k e hke =>
    batchWriteEntry_spec e _ _ (hl k e ((AssocMap.find?_eq_some_iff _ _ _).mpr hke)) (hp k)
  obtain ⟨m', hfold, hout, hin⟩ := AssocMap.foldlM_alterStep (fun _ child q => batchWriteEntry child q)
    l.cacheCoins.entries l.cacheCoins.nodup p.cacheCoins (fun k e hke => (hent k e hke).imp fun _ h => h.1)
  -- each key of the parent ends up as its own iteration left it
  have hkey : ∀ k, (l.cacheCoins.find? k = none ∧ m'.find? k = p.cacheCoins.find? k) ∨
      ∃ e, l.cacheCoins.find? k = some e ∧ overView (m'.find? k) (viewOf db ps k) = e.coin.unspent ∧
        ∀ x, m'.find? k = some x → EntryInv x (viewOf db ps k) := by
    intro k
    cases hlk : l.cacheCoins.find? k with
    | none => exact Or.inl ⟨rfl, hout k ((AssocMap.find?_eq_none_iff _ _).mp hlk)⟩
    | some e =>
      have hke := (AssocMap.find?_eq_some_iff _ _ _).mp hlk
      obtain ⟨r, hr, hview, hinv⟩ := hent k e hke
      have hr' : m'.find? k = r := by
        have := (hin k e hke).symm.trans hr
        cases this
        rfl
      exact Or.inr ⟨e, rfl, hr' ▸ hview, hr' ▸ hinv⟩
  refine ⟨⟨h, m'⟩, by rw [CCoinsViewCache.batchWrite, hfold]; rfl, ?_, ?_⟩
  · intro k x hx
    rcases hkey k with ⟨_, hm⟩ | ⟨e, _, _, hinv⟩
    · rw [show m'.find? k = _ from hx] at hm
      exact hp k x hm.symm
    · exact hinv x hx
  · funext k
    rcases hkey k with ⟨hlk, hm⟩ | ⟨e, hlk, hview, _⟩
    · show overView (m'.find? k) _ = overView (l.cacheCoins.find? k) _
      rw [hm, hlk]
      rfl
    · show overView (m'.find? k) _ = overView (l.cacheCoins.find? k) _
      rw [hview, hlk]
      rfl

/-- `CCoinsViewDB::BatchWrite` of the last cache: the database then stores
    what the cache showed, and still no spent coin. -/
theorem dbBatchWrite_spec {db : CCoinsViewDB} (hdb : DBInv db) {l : CCoinsViewCache}
    (hl : LayerInv db l []) (h : Hash256) :
    DBInv (db.batchWrite l.cacheCoins h) ∧ viewOf (db.batchWrite l.cacheCoins h) [] = viewOf db [l] := by
  obtain ⟨hout, hin⟩ := AssocMap.foldl_update (fun _ e stored => dbWriteEntry e stored)
    l.cacheCoins.entries l.cacheCoins.nodup db.coins
  -- the stored coin of `k`, entry by entry
  have hkey : ∀ k, (l.cacheCoins.find? k = none ∧ (db.batchWrite l.cacheCoins h).coins k = db.coins k) ∨
      ∃ e, l.cacheCoins.find? k = some e ∧ (db.batchWrite l.cacheCoins h).coins k = dbWriteEntry e (db.coins k) := by
    intro k
    cases hlk : l.cacheCoins.find? k with
    | none => exact Or.inl ⟨rfl, hout k ((AssocMap.find?_eq_none_iff _ _).mp hlk)⟩
    | some e => exact Or.inr ⟨e, rfl, hin k e ((AssocMap.find?_eq_some_iff _ _ _).mp hlk)⟩
  refine ⟨fun k c hc => ?_, ?_⟩
  · rcases hkey k with ⟨_, hk⟩ | ⟨e, _, hk⟩
    · exact hdb k c (hk ▸ hc)
    · rw [hk, dbWriteEntry] at hc
      split at hc
      · split at hc
        · cases hc
        · cases hc
          rename_i hs
          simpa using hs
      · exact hdb k c hc
  · funext k
    rcases hkey k with ⟨hlk, hk⟩ | ⟨e, hlk, hk⟩
    · show ((db.batchWrite l.cacheCoins h).coins k).bind Coin.unspent = overView _ _
      rw [hk, hlk]
      rfl
    · show ((db.batchWrite l.cacheCoins h).coins k).bind Coin.unspent = overView _ _
      rw [hk, hlk, dbWriteEntry]
      show _ = e.coin.unspent
      split
      · rename_i hd
        by_cases hs : e.coin.isSpent = true
        · rw [if_pos hs, Coin.unspent_of_spent hs]
          rfl
        · rw [if_neg hs]
          rfl
      · -- a clean entry shows what the database stores
        rename_i hd
        exact (hl k e hlk).clean (by simpa using hd) |>.symm

/-- `Flush` of a cache never throws; the stack below then shows what the
    cache showed, and the cache is empty. -/
theorem flushCache_spec {db : CCoinsViewDB} (hdb : DBInv db) (l : CCoinsViewCache)
    (ps : List CCoinsViewCache) (hinv : LayersInv db (l :: ps)) :
    ∃ db' ls', flushCache db l ps = .ok (db', ls') ∧ DBInv db' ∧ LayersInv db' ls' ∧
      viewOf db' ls' = viewOf db (l :: ps) ∧ ls'.length = ps.length + 1 := by
  cases ps with
  | nil =>
    obtain ⟨hdb', hview⟩ := dbBatchWrite_spec hdb hinv.1 l.hashBlock
    exact ⟨_, [{ l with cacheCoins := .empty }], rfl, hdb', ⟨LayerInv.empty _ _ _ rfl, trivial⟩,
      by rw [viewOf_cleared, hview], rfl⟩
  | cons p ps =>
    obtain ⟨p', hp', hinv', hview⟩ := batchWrite_spec hinv.1 hinv.2.1 l.hashBlock
    refine ⟨db, { l with cacheCoins := .empty } :: p' :: ps, by rw [flushCache, hp']; rfl, hdb,
      ⟨LayerInv.empty _ _ _ rfl, hinv', hinv.2.2⟩,
      by rw [viewOf_cleared, hview], rfl⟩

theorem layersInv_drop {db : CCoinsViewDB} :
    ∀ {pre ls : List CCoinsViewCache}, LayersInv db (pre ++ ls) → LayersInv db ls
  | [], _, h => h
  | _ :: _, _, h => layersInv_drop h.2

/-! ## The same calls on the map -/

namespace CacheOp

/-- The calls allowed on a stack of `n` caches standing for `ref`: reads and
    writes through the top cache, an added coin unspent and
    `possible_overwrite` false only where `ref` has no unspent coin, and
    `Uncache`, `Flush` and `SetBestBlock` on any cache. -/
def Allowed (n : Nat) (ref : CoinsMap) : CacheOp → Prop
  | addCoin d k coin po => d = 0 ∧ 0 < n ∧ coin.isSpent = false ∧ (po = false → ref k = none)
  | spendCoin d _ | accessCoin d _ | getCoin d _ | haveCoin d _ => d = 0 ∧ 0 < n
  | uncache d _ | flush d | setBestBlock d _ => d < n

/-- What the call does to the map: the writes of the simulation test's
    reference map. -/
def apply (ref : CoinsMap) : CacheOp → CoinsMap
  | addCoin _ k coin _ =>
    if coin.out.scriptPubKey.isUnspendable then ref else Function.update ref k (some coin)
  | spendCoin _ k => Function.update ref k none
  | _ => ref

/-- What the call returns on the map. -/
def Answers (ref : CoinsMap) : CacheOp → CacheResult → Prop
  | getCoin _ k, r => r = .found (ref k)
  | haveCoin _ k, r => r = .flag (ref k).isSome
  | accessCoin _ k, r => r = .coin ((ref k).getD Coin.empty)
  | spendCoin _ k, r => ∀ c, ref k = some c → r = .spent true (some c)
  | flush _, r => r = .flag true
  | _, r => r = .none

def AllowedRun (n : Nat) : CoinsMap → List CacheOp → Prop
  | _, [] => True
  | ref, op :: ops => op.Allowed n ref ∧ AllowedRun n (op.apply ref) ops

def applyAll (ref : CoinsMap) (ops : List CacheOp) : CoinsMap := ops.foldl apply ref

def AnswersRun : CoinsMap → List CacheOp → List CacheResult → Prop
  | _, [], [] => True
  | ref, op :: ops, r :: rs => op.Answers ref r ∧ AnswersRun (op.apply ref) ops rs
  | _, _, _ => False

end CacheOp

/-! ## Calls and runs -/

namespace CoinsStack

/-- A call on the top cache. -/
theorem step_top (st : CoinsStack) (op : CacheOp) (hd : op.depth = 0) {l : CCoinsViewCache}
    {ps : List CCoinsViewCache} (hls : st.layers = l :: ps) :
    st.step op = (op.onCache st.db l ps).map fun r => (⟨r.1, r.2.1⟩, r.2.2) := by
  unfold step
  rw [hd, List.drop_zero, hls]
  rfl

/-- A call that keeps the view of the caches it sees keeps the view and the
    invariant of the whole stack: the caches above it see the same parents. -/
theorem step_below (st : CoinsStack) (hinv : st.Inv) (op : CacheOp) {l : CCoinsViewCache}
    {ps : List CCoinsViewCache} (hdrop : st.layers.drop op.depth = l :: ps)
    {db' : CCoinsViewDB} {ls' : List CCoinsViewCache} {r : CacheResult}
    (hon : op.onCache st.db l ps = .ok (db', ls', r)) (hdb' : DBInv db') (hls' : LayersInv db' ls')
    (hview : viewOf db' ls' = viewOf st.db (l :: ps)) (hlen : ls'.length = ps.length + 1) :
    ∃ st', st.step op = .ok (st', r) ∧ st'.Inv ∧ st'.view = st.view ∧
      st'.layers.length = st.layers.length := by
  have hsplit : st.layers = st.layers.take op.depth ++ (l :: ps) := by
    rw [← hdrop, List.take_append_drop]
  refine ⟨⟨db', st.layers.take op.depth ++ ls'⟩, ?_, ⟨hdb', ?_⟩, ?_, ?_⟩
  · unfold step
    rw [hdrop]
    show Except.map _ (op.onCache st.db l ps) = _
    rw [hon]
    rfl
  · have hall := hinv.layers
    rw [hsplit] at hall
    exact LayersInv.append_congr hview hls' _ hall
  · show viewOf db' (st.layers.take op.depth ++ ls') = viewOf st.db st.layers
    rw [viewOf_append_congr hview, ← hsplit]
  · show (st.layers.take op.depth ++ ls').length = st.layers.length
    rw [List.length_append, hlen]
    conv => rhs; rw [hsplit]
    rw [List.length_append, List.length_cons]

/-- Every allowed call keeps the invariant, never throws, and acts on the
    view as on the map. -/
theorem step_spec (st : CoinsStack) (hinv : st.Inv) (op : CacheOp)
    (hop : op.Allowed st.layers.length st.view) :
    ∃ st' r, st.step op = .ok (st', r) ∧ st'.Inv ∧ st'.view = op.apply st.view ∧
      st'.layers.length = st.layers.length ∧ op.Answers st.view r := by
  obtain ⟨hdb, hls⟩ := hinv
  -- the calls through the top cache
  have htop : ∀ d, d = 0 → 0 < st.layers.length →
      ∃ l ps, st.layers = l :: ps := fun _ _ hn => by
    cases h : st.layers with
    | nil => rw [h] at hn; cases hn
    | cons l ps => exact ⟨l, ps, rfl⟩
  cases op with
  | addCoin d k coin po =>
    obtain ⟨hd, hn, hcoin, hpo⟩ := hop
    obtain ⟨l, ps, hlp⟩ := htop d hd hn
    have hpo' : po = false → viewOf st.db (l :: ps) k = none := by
      rw [← hlp]
      exact hpo
    rw [hlp] at hls
    obtain ⟨l', hadd, hl', hview⟩ := addCoin_spec hls.1 k coin po hcoin hpo'
    refine ⟨⟨st.db, l' :: ps⟩, .none, ?_, ⟨hdb, hl', hls.2⟩, ?_, ?_, rfl⟩
    · rw [step_top st (.addCoin d k coin po) hd hlp]
      show ((l.addCoin k coin po).map _).map _ = _
      rw [hadd]
      rfl
    · show viewOf st.db (l' :: ps) = _
      rw [hview, CacheOp.apply, CoinsStack.view, hlp]
    · rw [hlp]
      rfl
  | spendCoin d k =>
    obtain ⟨hd, hn⟩ := hop
    obtain ⟨l, ps, hlp⟩ := htop d hd hn
    rw [hlp] at hls
    rcases hsp : spendCoin st.db l ps k with ⟨ok, moved, l', ps'⟩
    obtain ⟨hinv', hview, hlen, hmoved⟩ := spendCoin_spec hdb l ps hls k hsp
    refine ⟨⟨st.db, l' :: ps'⟩, .spent ok moved, ?_, ⟨hdb, hinv'⟩, ?_, ?_, ?_⟩
    · rw [step_top st (.spendCoin d k) hd hlp, CacheOp.onCache, hsp]
      rfl
    · show viewOf st.db (l' :: ps') = _
      rw [hview, CacheOp.apply, CoinsStack.view, hlp]
    · rw [hlp, List.length_cons, List.length_cons, hlen]
    · intro c hc
      rw [CoinsStack.view, hlp] at hc
      obtain ⟨rfl, rfl⟩ := hmoved c hc
      rfl
  | accessCoin d k =>
    obtain ⟨hd, hn⟩ := hop
    obtain ⟨l, ps, hlp⟩ := htop d hd hn
    rw [hlp] at hls
    obtain ⟨hans, hf⟩ := accessCoin_spec hdb l ps hls k
    refine ⟨⟨st.db, (accessCoin st.db l ps k).2.1 :: (accessCoin st.db l ps k).2.2⟩,
      .coin (accessCoin st.db l ps k).1, ?_, ⟨hdb, hf.inv⟩, ?_, ?_, ?_⟩
    · rw [step_top st (.accessCoin d k) hd hlp]
      rfl
    · show viewOf st.db (_ :: _) = _
      rw [hf.view, CoinsStack.view, hlp]
      rfl
    · rw [hlp, List.length_cons, List.length_cons, hf.length]
    · show CacheResult.coin _ = _
      rw [hans, CoinsStack.view, hlp]
  | getCoin d k =>
    obtain ⟨hd, hn⟩ := hop
    obtain ⟨l, ps, hlp⟩ := htop d hd hn
    rw [hlp] at hls
    obtain ⟨hans, hview, hinv', hlen⟩ := getCoin_spec hdb (l :: ps) hls k
    refine ⟨⟨st.db, (getCoin st.db (l :: ps) k).2⟩, .found (getCoin st.db (l :: ps) k).1, ?_, ⟨hdb, hinv'⟩,
      ?_, ?_, ?_⟩
    · rw [step_top st (.getCoin d k) hd hlp]
      rfl
    · show viewOf st.db _ = _
      rw [hview, CoinsStack.view, hlp]
      rfl
    · rw [hlp]
      exact hlen
    · show CacheResult.found _ = _
      rw [hans, CoinsStack.view, hlp]
  | haveCoin d k =>
    obtain ⟨hd, hn⟩ := hop
    obtain ⟨l, ps, hlp⟩ := htop d hd hn
    rw [hlp] at hls
    obtain ⟨hans, hf⟩ := haveCoin_spec hdb l ps hls k
    refine ⟨⟨st.db, (haveCoin st.db l ps k).2.1 :: (haveCoin st.db l ps k).2.2⟩,
      .flag (haveCoin st.db l ps k).1, ?_, ⟨hdb, hf.inv⟩, ?_, ?_, ?_⟩
    · rw [step_top st (.haveCoin d k) hd hlp]
      rfl
    · show viewOf st.db (_ :: _) = _
      rw [hf.view, CoinsStack.view, hlp]
      rfl
    · rw [hlp, List.length_cons, List.length_cons, hf.length]
    · show CacheResult.flag _ = _
      rw [hans, CoinsStack.view, hlp]
  | uncache d k =>
    -- the calls on any cache keep the view of the caches they see
    have hd : d < st.layers.length := hop
    obtain ⟨l, ps, hdrop⟩ : ∃ l ps, st.layers.drop d = l :: ps := by
      cases h : st.layers.drop d with
      | nil => rw [List.drop_eq_nil_iff] at h; omega
      | cons l ps => exact ⟨l, ps, rfl⟩
    have hinvd : LayersInv st.db (l :: ps) := by
      have hall := hls
      rw [← List.take_append_drop d st.layers, hdrop] at hall
      exact layersInv_drop hall
    obtain ⟨hl', hview⟩ := uncache_spec hinvd.1 k
    obtain ⟨st', hstep, hinv', hview', hlen⟩ := step_below st ⟨hdb, hls⟩ (.uncache d k) hdrop rfl hdb
      ⟨hl', hinvd.2⟩ hview rfl
    exact ⟨st', _, hstep, hinv', hview', hlen, rfl⟩
  | flush d =>
    have hd : d < st.layers.length := hop
    obtain ⟨l, ps, hdrop⟩ : ∃ l ps, st.layers.drop d = l :: ps := by
      cases h : st.layers.drop d with
      | nil => rw [List.drop_eq_nil_iff] at h; omega
      | cons l ps => exact ⟨l, ps, rfl⟩
    have hinvd : LayersInv st.db (l :: ps) := by
      have hall := hls
      rw [← List.take_append_drop d st.layers, hdrop] at hall
      exact layersInv_drop hall
    obtain ⟨db', ls', hflush, hdb', hls', hview, hlen⟩ := flushCache_spec hdb l ps hinvd
    obtain ⟨st', hstep, hinv', hview', hlen'⟩ := step_below st ⟨hdb, hls⟩ (.flush d) hdrop
      (by show (flushCache st.db l ps).map _ = _; rw [hflush]; rfl) hdb' hls' hview hlen
    exact ⟨st', _, hstep, hinv', hview', hlen', rfl⟩
  | setBestBlock d h =>
    have hd : d < st.layers.length := hop
    obtain ⟨l, ps, hdrop⟩ : ∃ l ps, st.layers.drop d = l :: ps := by
      cases h : st.layers.drop d with
      | nil => rw [List.drop_eq_nil_iff] at h; omega
      | cons l ps => exact ⟨l, ps, rfl⟩
    have hinvd : LayersInv st.db (l :: ps) := by
      have hall := hls
      rw [← List.take_append_drop d st.layers, hdrop] at hall
      exact layersInv_drop hall
    obtain ⟨st', hstep, hinv', hview', hlen⟩ := step_below st ⟨hdb, hls⟩ (.setBestBlock d h) hdrop
      rfl hdb hinvd rfl rfl
    exact ⟨st', _, hstep, hinv', hview', hlen, rfl⟩

end CoinsStack

namespace CoinsStack

/-- A run of allowed calls keeps the invariant in every state it passes,
    never throws, returns what the map returns, and leaves the view the map
    the same writes make.  The induction is on the calls, one `step_spec`
    each. -/
theorem run_spec (st : CoinsStack) (hinv : st.Inv) (ops : List CacheOp)
    (hops : CacheOp.AllowedRun st.layers.length st.view ops) :
    ∃ st' rs, st.run ops = .ok (st', rs) ∧ st'.Inv ∧ st'.view = CacheOp.applyAll st.view ops ∧
      st'.layers.length = st.layers.length ∧ CacheOp.AnswersRun st.view ops rs := by
  induction ops generalizing st with
  | nil => exact ⟨st, [], rfl, hinv, rfl, rfl, trivial⟩
  | cons op ops ih =>
    obtain ⟨hop, hrest⟩ := hops
    obtain ⟨st₁, r, hstep, hinv₁, hview₁, hlen₁, hans⟩ := step_spec st hinv op hop
    obtain ⟨st', rs, hrun, hinv', hview', hlen', hans'⟩ :=
      ih st₁ hinv₁ (by rw [hlen₁, hview₁]; exact hrest)
    refine ⟨st', r :: rs, ?_, hinv', ?_, hlen'.trans hlen₁, hans, ?_⟩
    · rw [run, hstep]
      show (st₁.run ops).map _ = _
      rw [hrun]
      rfl
    · rw [hview', hview₁]
      rfl
    · rw [← hview₁]
      exact hans'

/-- Empty caches over a database of unspent coins keep every promise and
    show the database. -/
theorem init_spec (db : CCoinsViewDB) (hdb : DBInv db) (n : Nat) :
    (CoinsStack.mk db (List.replicate n .init)).Inv ∧
      (CoinsStack.mk db (List.replicate n .init)).view = db.coins := by
  have hgo : ∀ n, LayersInv db (List.replicate n CCoinsViewCache.init) ∧
      viewOf db (List.replicate n CCoinsViewCache.init) = db.coins := by
    intro n
    induction n with
    | zero => exact ⟨trivial, funext (viewOf_nil_of_inv hdb)⟩
    | succ n ih =>
      refine ⟨⟨LayerInv.empty _ _ _ rfl, ih.1⟩, ?_⟩
      rw [List.replicate_succ, ← ih.2]
      exact viewOf_cleared db CCoinsViewCache.init _
  exact ⟨⟨hdb, (hgo n).1⟩, (hgo n).2⟩

end CoinsStack

def coinKey : COutPoint := ⟨0, 0⟩
def storedCoin : Coin := ⟨⟨5, []⟩, false, false, 1⟩
def addedCoin : Coin := ⟨⟨7, []⟩, false, false, 2⟩

/-- A database holding `storedCoin` under two empty caches. -/
def twoCaches : CoinsStack :=
  ⟨⟨fun k => if k = coinKey then some storedCoin else none, 0⟩, [.init, .init]⟩

theorem twoCaches_db : DBInv twoCaches.db := by
  intro k c hc
  unfold twoCaches at hc
  dsimp only at hc
  split at hc
  · cases hc
    rfl
  · cases hc

/-- Spend the coin, flush the top cache, add a new coin without overwrite,
    read it back and flush the cache below. -/
def spendReaddRun : List CacheOp :=
  [.spendCoin 0 coinKey, .flush 0, .addCoin 0 coinKey addedCoin false, .getCoin 0 coinKey, .flush 1]

theorem spendReaddRun_allowed : CacheOp.AllowedRun twoCaches.layers.length twoCaches.view spendReaddRun :=
  ⟨⟨rfl, Nat.two_pos⟩, Nat.two_pos, ⟨rfl, Nat.two_pos, rfl, fun _ => rfl⟩, ⟨rfl, Nat.two_pos⟩,
    Nat.one_lt_two, trivial⟩

/-- The entry of `coinKey` in the top cache after a run. -/
def topEntryAfter : Except String (CoinsStack × List CacheResult) → Option CCoinsCacheEntry
  | .ok (st, _) => st.layers.head?.bind fun l => l.cacheCoins.find? coinKey
  | .error _ => none

/-- The database's coin under `coinKey` after a run. -/
def dbCoinAfter : Except String (CoinsStack × List CacheResult) → Option Coin
  | .ok (st, _) => st.db.coins coinKey
  | .error _ => none

/-- The answers of a run. -/
def resultsAfter : Except String (CoinsStack × List CacheResult) → Option (List CacheResult)
  | .ok (_, rs) => some rs
  | .error _ => none

/-- Spend the stored coin, flush the top cache and add a new coin at the
    same outpoint without `possible_overwrite`. -/
def respendRun : List CacheOp :=
  [.spendCoin 0 coinKey, .flush 0, .addCoin 0 coinKey addedCoin false]

end Revo
