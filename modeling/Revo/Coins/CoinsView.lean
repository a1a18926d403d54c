/-
  Revo.Coins.CoinsView

  The coin views of `coins.{h,cpp}`: caches (`CCoinsViewCache`) stacked over
  a coin database.

    * A cache holds `CCoinsCacheEntry`s, a coin with its `DIRTY` and `FRESH`
      flags.  `FetchCoin` asks the parent's `GetCoin` for a coin the cache
      does not hold and keeps the answer, so a read through the top cache
      fills every cache below it that had to ask.
    * `AddCoin`, `SpendCoin`, `Uncache` and `BatchWrite` change one cache;
      `Flush` writes a cache into its parent with the parent's `BatchWrite`
      and empties it.
    * The database (`CCoinsViewDB`) returns the coin it stores; its
      `BatchWrite` erases the spent coins of the dirty entries and writes the
      others.

  A stack is a list of caches with the top first; the parent of each cache
  is the next one, and the database is the parent of the last.  `CacheOp`
  lists the calls a user of the stack makes, and `CoinsStack.run` runs a
  sequence of them.  An `Except` error is an exception of the source (the
  two `std::logic_error`s) or a failed `assert`.  Memory accounting
  (`cachedCoinsUsage`) is left out.
-/

import Revo.Coins.Coin
import Revo.Script.Interpreter
import Revo.Lib.AssocMap

namespace Revo

/-- `CScript::IsUnspendable`. -/
def CScript.isUnspendable (s : CScript) : Bool :=
  (s.length > 0 && s.head? == some OP_RETURN) || s.length > MAX_SCRIPT_SIZE

/-- The coin a view shows for a cached coin: none when it is spent. -/
def Coin.unspent (c : Coin) : Option Coin := if c.isSpent then none else some c

/-- `Coin(out, nHeight, fCoinBase, fCoinStake)`: the height is kept in 30 bits. -/
def Coin.ofOut (out : CTxOut) (nHeight : Nat) (fCoinBase fCoinStake : Bool) : Coin :=
  ⟨out, fCoinBase, fCoinStake, ⟨nHeight % 2 ^ 30, Nat.mod_lt _ (by decide)⟩⟩

/-- `CCoinsCacheEntry`: the cached coin, `DIRTY` (it may differ from the
    parent's) and `FRESH` (the parent has no unspent coin for it). -/
structure CCoinsCacheEntry where
  coin : Coin
  dirty : Bool
  fresh : Bool
  deriving DecidableEq, Repr

/-- `CCoinsMap`, an `std::unordered_map`. -/
abbrev CCoinsMap := AssocMap COutPoint CCoinsCacheEntry

/-- The members of `CCoinsViewCache` the model keeps. -/
structure CCoinsViewCache where
  hashBlock : Hash256
  cacheCoins : CCoinsMap

/-- `CCoinsViewCache(base)`: no entries and a null best block. -/
def CCoinsViewCache.init : CCoinsViewCache := ⟨0, .empty⟩

/-- `CCoinsViewDB`: the stored coins and the best block. -/
structure CCoinsViewDB where
  coins : COutPoint → Option Coin
  bestBlock : Hash256

/-- Caches over a database, the top first. -/
structure CoinsStack where
  db : CCoinsViewDB
  layers : List CCoinsViewCache

def noCache : String := "no cache at this depth"

/-! ## Reads -/

/-- The part of `FetchCoin` after the parent's `GetCoin`: a coin it returns
    is kept, `FRESH` when it is spent. -/
def CCoinsViewCache.fetchMiss (l : CCoinsViewCache) (k : COutPoint) :
    Option Coin → Option CCoinsCacheEntry × CCoinsViewCache
  | none => (none, l)
  | some c =>
    let e : CCoinsCacheEntry := ⟨c, false, c.isSpent⟩
    (some e, { l with cacheCoins := l.cacheCoins.insert k e })

/-- `GetCoin` of the view made of `layers` over `db`: the coin when it
    returns true, and the layers as the read leaves them. -/
def getCoin (db : CCoinsViewDB) : List CCoinsViewCache → COutPoint →
    Option Coin × List CCoinsViewCache
  | [], k => (db.coins k, [])
  | l :: ps, k =>
    match l.cacheCoins.find? k with
    | some e => (e.coin.unspent, l :: ps)
    | none =>
      match getCoin db ps k with
      | (r, ps') =>
        match l.fetchMiss k r with
        | (e, l') => (e.bind fun e => e.coin.unspent, l' :: ps')

/-- `FetchCoin` on the cache `l` over the parents `ps`: the entry it finds
    or fetches, the cache and the parents after it. -/
def fetchCoin (db : CCoinsViewDB) (l : CCoinsViewCache) (ps : List CCoinsViewCache)
    (k : COutPoint) : Option CCoinsCacheEntry × CCoinsViewCache × List CCoinsViewCache :=
  match l.cacheCoins.find? k with
  | some e => (some e, l, ps)
  | none =>
    match getCoin db ps k with
    | (r, ps') =>
      match l.fetchMiss k r with
      | (e, l') => (e, l', ps')

/-- `AccessCoin`: the coin found, or `coinEmpty`. -/
def accessCoin (db : CCoinsViewDB) (l : CCoinsViewCache) (ps : List CCoinsViewCache)
    (k : COutPoint) : Coin × CCoinsViewCache × List CCoinsViewCache :=
  match fetchCoin db l ps k with
  | (e, l', ps') => ((e.map CCoinsCacheEntry.coin).getD Coin.empty, l', ps')

/-- `HaveCoin`: an entry that is not spent. -/
def haveCoin (db : CCoinsViewDB) (l : CCoinsViewCache) (ps : List CCoinsViewCache)
    (k : COutPoint) : Bool × CCoinsViewCache × List CCoinsViewCache :=
  match fetchCoin db l ps k with
  | (e, l', ps') => ((e.map fun e => !e.coin.isSpent).getD false, l', ps')

/-- `HaveCoinInCache`: the same, without asking the parent. -/
def CCoinsViewCache.haveCoinInCache (l : CCoinsViewCache) (k : COutPoint) : Bool :=
  ((l.cacheCoins.find? k).map fun e => !e.coin.isSpent).getD false

/-- `MAX_OUTPUTS_PER_BLOCK`: `dgpMaxBlockWeight` (8000000 when `coins.cpp` is
    initialised) over four times the 9 bytes of `CTxOut()`. -/
def MAX_OUTPUTS_PER_BLOCK : Nat := 8000000 / (4 * 9)

/-- The loop of `AccessByTxid` from output `n` on, with `fuel` outputs left. -/
def accessByTxidLoop (db : CCoinsViewDB) (txid : Hash256) :
    Nat → Nat → CCoinsViewCache → List CCoinsViewCache → Coin × CCoinsViewCache × List CCoinsViewCache
  | 0, _, l, ps => (Coin.empty, l, ps)
  | fuel + 1, n, l, ps =>
    match accessCoin db l ps ⟨txid, n⟩ with
    | (c, l', ps') => if !c.isSpent then (c, l', ps') else accessByTxidLoop db txid fuel (n + 1) l' ps'

/-- `AccessByTxid`: the first unspent output of `txid`, or `coinEmpty`. -/
def accessByTxid (db : CCoinsViewDB) (l : CCoinsViewCache) (ps : List CCoinsViewCache)
    (txid : Hash256) : Coin × CCoinsViewCache × List CCoinsViewCache :=
  accessByTxidLoop db txid MAX_OUTPUTS_PER_BLOCK 0 l ps

/-! ## Writes -/

/-- The entry `emplace` finds or inserts: `CCoinsCacheEntry()` has the empty coin and no flags. -/
def CCoinsViewCache.entryOrEmpty (l : CCoinsViewCache) (k : COutPoint) : CCoinsCacheEntry :=
  (l.cacheCoins.find? k).getD ⟨Coin.empty, false, false⟩

/-- `AddCoin(outpoint, coin, possible_overwrite)`. -/
def CCoinsViewCache.addCoin (l : CCoinsViewCache) (k : COutPoint) (coin : Coin)
    (possibleOverwrite : Bool) : Except String CCoinsViewCache :=
  if coin.isSpent then .error "assertion !coin.IsSpent() failed"
  else if coin.out.scriptPubKey.isUnspendable then .ok l
  else
    let e := l.entryOrEmpty k
    if !possibleOverwrite && !e.coin.isSpent then
      .error "Attempted to overwrite an unspent coin (when possible_overwrite is false)"
    else
      -- a spent entry that is still `DIRTY` must not become `FRESH`: its
      -- spentness has not reached the parent yet
      let fresh := !possibleOverwrite && !e.dirty
      .ok { l with cacheCoins := l.cacheCoins.insert k ⟨coin, true, e.fresh || fresh⟩ }

/-- `SpendCoin(outpoint, moveout)`: whether an entry was found, the coin
    moved out of it, and the stack after it.  A `FRESH` entry is erased; any
    other becomes a spent `DIRTY` one. -/
def spendCoin (db : CCoinsViewDB) (l : CCoinsViewCache) (ps : List CCoinsViewCache)
    (k : COutPoint) : Bool × Option Coin × CCoinsViewCache × List CCoinsViewCache :=
  match fetchCoin db l ps k with
  | (none, l', ps') => (false, none, l', ps')
  | (some e, l', ps') =>
    if e.fresh then (true, some e.coin, { l' with cacheCoins := l'.cacheCoins.erase k }, ps')
    else (true, some e.coin, { l' with cacheCoins := l'.cacheCoins.insert k ⟨Coin.empty, true, e.fresh⟩ }, ps')

/-- `Uncache`: an entry with no flags is dropped. -/
def CCoinsViewCache.uncache (l : CCoinsViewCache) (k : COutPoint) : CCoinsViewCache :=
  match l.cacheCoins.find? k with
  | some e => if !e.dirty && !e.fresh then { l with cacheCoins := l.cacheCoins.erase k } else l
  | none => l

def CCoinsViewCache.setBestBlock (l : CCoinsViewCache) (h : Hash256) : CCoinsViewCache :=
  { l with hashBlock := h }

/-- One iteration of `CCoinsViewCache::BatchWrite`: what the parent's entry
    becomes for a child entry. -/
def batchWriteEntry (child : CCoinsCacheEntry) (parent : Option CCoinsCacheEntry) :
    Except String (Option CCoinsCacheEntry) :=
  -- entries that are not `DIRTY` are skipped
  if !child.dirty then .ok parent
  else
    match parent with
    | none =>
      -- a spent `FRESH` child entry is never written
      if child.fresh && child.coin.isSpent then .ok none
      else .ok (some ⟨child.coin, true, child.fresh⟩)
    | some p =>
      if child.fresh && !p.coin.isSpent then
        .error "FRESH flag misapplied to coin that exists in parent cache"
      -- the grandparent has no entry: a spent coin is dropped
      else if p.fresh && child.coin.isSpent then .ok none
      else .ok (some ⟨child.coin, true, p.fresh⟩)

/-- `CCoinsViewCache::BatchWrite(mapCoins, hashBlock)` on the cache `parent`.
    Each iteration touches the parent's entry of its own key only. -/
def CCoinsViewCache.batchWrite (parent : CCoinsViewCache) (mapCoins : CCoinsMap)
    (hashBlockIn : Hash256) : Except String CCoinsViewCache :=
  (mapCoins.entries.foldlM (AssocMap.alterStep fun _ child p => batchWriteEntry child p)
    parent.cacheCoins).map fun m => ⟨hashBlockIn, m⟩

/-- What `CCoinsViewDB::BatchWrite` stores for an entry: a dirty spent coin
    is erased, a dirty unspent one written. -/
def dbWriteEntry (e : CCoinsCacheEntry) (stored : Option Coin) : Option Coin :=
  if e.dirty then (if e.coin.isSpent then none else some e.coin) else stored

/-- `CCoinsViewDB::BatchWrite`, with the head-block bookkeeping left out. -/
def CCoinsViewDB.batchWrite (db : CCoinsViewDB) (mapCoins : CCoinsMap) (hashBlock : Hash256) :
    CCoinsViewDB :=
  ⟨mapCoins.entries.foldl (fun f e => Function.update f e.1 (dbWriteEntry e.2 (f e.1))) db.coins,
    hashBlock⟩

/-- `Flush` of the cache `l` over the parents `ps`: the parent's
    `BatchWrite` of its entries, after which it is empty. -/
def flushCache (db : CCoinsViewDB) (l : CCoinsViewCache) :
    List CCoinsViewCache → Except String (CCoinsViewDB × List CCoinsViewCache)
  | [] => .ok (db.batchWrite l.cacheCoins l.hashBlock, [{ l with cacheCoins := .empty }])
  | p :: ps =>
    (p.batchWrite l.cacheCoins l.hashBlock).map fun p' => (db, { l with cacheCoins := .empty } :: p' :: ps)

/-! ## Runs -/

/-- The calls on a stack, each on the cache at depth `d` (the top is at 0). -/
inductive CacheOp
  | addCoin (d : Nat) (k : COutPoint) (coin : Coin) (possibleOverwrite : Bool)
  | spendCoin (d : Nat) (k : COutPoint)
  | accessCoin (d : Nat) (k : COutPoint)
  | getCoin (d : Nat) (k : COutPoint)
  | haveCoin (d : Nat) (k : COutPoint)
  | uncache (d : Nat) (k : COutPoint)
  | flush (d : Nat)
  | setBestBlock (d : Nat) (h : Hash256)
  deriving DecidableEq, Repr

/-- What a call returns. -/
inductive CacheResult
  | none
  | flag (b : Bool)
  | coin (c : Coin)
  | found (r : Option Coin)
  | spent (ok : Bool) (moved : Option Coin)
  deriving DecidableEq, Repr

namespace CacheOp

def depth : CacheOp → Nat
  | addCoin d .. | spendCoin d .. | accessCoin d .. | getCoin d .. | haveCoin d ..
  | uncache d .. | flush d | setBestBlock d .. => d

/-- The call on the cache `l` over the parents `ps`: the database, the
    caches from `l` down, and the result, after it. -/
def onCache (db : CCoinsViewDB) (l : CCoinsViewCache) (ps : List CCoinsViewCache) :
    CacheOp → Except String (CCoinsViewDB × List CCoinsViewCache × CacheResult)
  | addCoin _ k coin possibleOverwrite =>
    (l.addCoin k coin possibleOverwrite).map fun l' => (db, l' :: ps, .none)
  | spendCoin _ k =>
    match Revo.spendCoin db l ps k with
    | (ok, moved, l', ps') => .ok (db, l' :: ps', .spent ok moved)
  | accessCoin _ k =>
    match Revo.accessCoin db l ps k with
    | (c, l', ps') => .ok (db, l' :: ps', .coin c)
  | getCoin _ k =>
    match Revo.getCoin db (l :: ps) k with
    | (r, ls) => .ok (db, ls, .found r)
  | haveCoin _ k =>
    match Revo.haveCoin db l ps k with
    | (b, l', ps') => .ok (db, l' :: ps', .flag b)
  | uncache _ k => .ok (db, l.uncache k :: ps, .none)
  -- `Flush` returns what the parent's `BatchWrite` returns, which is true
  | flush _ => (flushCache db l ps).map fun r => (r.1, r.2, .flag true)
  | setBestBlock _ h => .ok (db, l.setBestBlock h :: ps, .none)

end CacheOp

namespace CoinsStack

/-- One call: it sees its cache and the ones below, and leaves the caches
    above it as they are. -/
def step (st : CoinsStack) (op : CacheOp) : Except String (CoinsStack × CacheResult) :=
  match st.layers.drop op.depth with
  | [] => .error noCache
  | l :: ps =>
    (op.onCache st.db l ps).map fun r => (⟨r.1, st.layers.take op.depth ++ r.2.1⟩, r.2.2)

/-- A sequence of calls, with what each returns. -/
def run (st : CoinsStack) : List CacheOp → Except String (CoinsStack × List CacheResult)
  | [] => .ok (st, [])
  | op :: ops =>
    (st.step op).bind fun r => (run r.1 ops).map fun r' => (r'.1, r.2 :: r'.2)

end CoinsStack

/-! ## `AddCoins` -/

/-- The loop of `AddCoins` over the outputs from index `i` on. -/
def addCoinsLoop (db : CCoinsViewDB) (txid : Hash256) (nHeight : Nat)
    (fCoinbase fCoinstake checkForOverwrite : Bool) :
    Nat → List CTxOut → CCoinsViewCache → List CCoinsViewCache →
      Except String (CCoinsViewCache × List CCoinsViewCache)
  | _, [], l, ps => .ok (l, ps)
  | i, out :: outs, l, ps =>
    -- coinbases may always be overwritten (the duplicate coinbases before BIP30)
    let (overwrite, l, ps) :=
      if checkForOverwrite then haveCoin db l ps ⟨txid, i⟩ else (fCoinbase, l, ps)
    (l.addCoin ⟨txid, i⟩ (Coin.ofOut out nHeight fCoinbase fCoinstake) overwrite).bind fun l =>
      addCoinsLoop db txid nHeight fCoinbase fCoinstake checkForOverwrite (i + 1) outs l ps

/-- `AddCoins(cache, tx, nHeight, check_for_overwrite)` for a transaction with hash `txid`. -/
def addCoins (db : CCoinsViewDB) (l : CCoinsViewCache) (ps : List CCoinsViewCache)
    (tx : CTransaction) (txid : Hash256) (nHeight : Nat) (checkForOverwrite : Bool) :
    Except String (CCoinsViewCache × List CCoinsViewCache) :=
  addCoinsLoop db txid nHeight tx.isCoinBase tx.isCoinStake checkForOverwrite 0 tx.vout l ps

end Revo
