/-
  Revo.Bloom.RollingBloomProofs

  The rolling bloom filter keeps every key of the current generation and
  of the two before it, and none of its accesses is past the end of
  `data`.

    * `cellsOf`: the positions as cells of two bits over pairs of words
      (`TwoBitCells`).  `setPosition`, the generation wipe and the test of
      `contains` act on them as `Function.update`, `Generations.wipe` and a
      test for an empty cell (`setPosition_spec`, `wipeGeneration_spec`,
      `containsPositions_eq`).
    * `Shape`: an even number of words, at least two and fewer than
      `2 ^ 32`; every position a hash selects is then inside `data`.
    * `Holds s st`: the filter `s` refines the abstract store `st` of
      `Generations`, its counters and its cells; `Frame` is what every
      insert keeps.  `insert_holds` is one insert, `insertAll_holds` a
      sequence, and `Store.run_recent` then says which keys are found.
-/

import Revo.Bloom.RollingBloom
import Revo.Lib.Bits
import Revo.Lib.TwoBitCells
import Revo.Lib.Generations
import Mathlib

namespace Revo

/-! ## Positions -/

/-- `FastMod` lands below `n`, as the product does not wrap. -/
theorem fastMod_lt (x : UInt32) {n : Nat} (h0 : 0 < n) (hn : n < 2 ^ 32) : (fastMod x n).toNat < n := by
  have hx := x.toNat_lt
  have hprod : x.toNat * n < 2 ^ 64 := by
    calc x.toNat * n < 2 ^ 32 * 2 ^ 32 := Nat.mul_lt_mul'' hx hn
      _ = 2 ^ 64 := by rw [← Nat.pow_add]
  have hmul : (x.toUInt64 * UInt64.ofNat n).toNat = x.toNat * n := by
    rw [UInt64.toNat_mul, UInt32.toNat_toUInt64, UInt64.toNat_ofNat_of_lt' (lt_of_lt_of_le hn (by decide)),
      Nat.mod_eq_of_lt hprod]
  have hdiv : x.toNat * n / 2 ^ 32 < n := by
    rw [Nat.div_lt_iff_lt_mul (by decide), Nat.mul_comm n]
    exact Nat.mul_lt_mul_of_pos_right hx h0
  rw [fastMod, UInt64.toNat_toUInt32, UInt64.toNat_shiftRight, hmul, show UInt64.toNat 32 % 64 = 32 from rfl,
    Nat.shiftRight_eq_div_pow, Nat.mod_eq_of_lt (by omega)]
  exact hdiv

theorem lowWord_eq (pos : UInt32) : lowWord pos = 2 * (pos.toNat / 2) := Bits.and_not_one_toNat pos

theorem highWord_eq (pos : UInt32) : highWord pos = 2 * (pos.toNat / 2) + 1 := Bits.or_one_toNat pos

/-- `h & 0x3F` is a bit of a word. -/
theorem bit_lt (h : UInt32) : (h &&& 0x3F).toUInt64.toNat < 64 := by
  rw [UInt32.toNat_toUInt64, UInt32.toNat_and, show (0x3F : UInt32).toNat = 2 ^ 6 - 1 from rfl,
    Nat.and_two_pow_sub_one_eq_mod]
  omega

/-- The words of every filter: pairs, at least one, fewer than `2 ^ 32`. -/
structure Shape (data : List UInt64) : Prop where
  even : data.length % 2 = 0
  two_le : 2 ≤ data.length
  lt : data.length < 2 ^ 32

/-- Both words of the position a hash selects are inside `data`. -/
theorem Shape.highWord_lt {data : List UInt64} (h : Shape data) (x : UInt32) :
    highWord (fastMod x data.length) < data.length := by
  have hpos := fastMod_lt x (by have := h.two_le; omega) h.lt
  have heven := h.even
  rw [highWord_eq]
  omega

theorem Shape.lowWord_lt {data : List UInt64} (h : Shape data) (x : UInt32) :
    lowWord (fastMod x data.length) < data.length := by
  have hhigh := h.highWord_lt x
  rw [highWord_eq] at hhigh
  rw [lowWord_eq]
  omega

/-! ## Cells -/

/-- The cells of the filter: cell `(i, b)` is bit `b` of the words `2 * i`
    and `2 * i + 1`. -/
def cellsOf (data : List UInt64) (c : Nat × Nat) : Nat :=
  TwoBitCells.cell (data.getD (2 * c.1) 0) (data.getD (2 * c.1 + 1) 0) c.2

/-- The cell a hash value selects in a filter of `L` words. -/
def hashCell (L : Nat) (h : UInt32) : Nat × Nat := ((fastMod h L).toNat / 2, (h &&& 0x3F).toUInt64.toNat)

/-- The cells of a key, one for each hash function. -/
def keyCells (murmurHash3 : UInt32 → List UInt8 → UInt32) (s : CRollingBloomFilter) (vKey : List UInt8) :
    List (Nat × Nat) :=
  (List.range s.nHashFuncs).map fun n => hashCell s.data.length (rollingBloomHash murmurHash3 n s.nTweak vKey)

theorem getElem?_eq_some_getD {l : List UInt64} {i : Nat} (h : i < l.length) : l[i]? = some (l.getD i 0) := by
  rw [List.getD_eq_getElem _ _ h, List.getElem?_eq_getElem h]

theorem getD_set_self {l : List UInt64} {i : Nat} (h : i < l.length) (a : UInt64) : (l.set i a).getD i 0 = a := by
  rw [List.getD_eq_getElem?_getD, List.getElem?_set_self h]
  rfl

theorem getD_set_of_ne {l : List UInt64} {i j : Nat} (h : i ≠ j) (a : UInt64) :
    (l.set i a).getD j 0 = l.getD j 0 := by
  rw [List.getD_eq_getElem?_getD, List.getElem?_set_ne h, ← List.getD_eq_getElem?_getD]

/-- The two assignments of a position, once both words are inside
    `data`. -/
theorem setPosition_eq {data : List UInt64} {pos : UInt32} (bit : UInt64) (g : Nat) (h1 : lowWord pos < data.length)
    (h2 : highWord pos < data.length) (hne : lowWord pos ≠ highWord pos) :
    setPosition data pos bit g =
      some ((data.set (lowWord pos)
        ((data.getD (lowWord pos) 0 &&& ~~~((1 : UInt64) <<< bit)) ||| (UInt64.ofNat (g &&& 1) <<< bit))).set
          (highWord pos)
          ((data.getD (highWord pos) 0 &&& ~~~((1 : UInt64) <<< bit)) ||| (UInt64.ofNat (g >>> 1) <<< bit))) := by
  rw [setPosition, getElem?_eq_some_getD h1, Option.bind_eq_bind, Option.bind_some]
  dsimp only
  rw [List.getElem?_set_ne hne, getElem?_eq_some_getD h2, Option.bind_some]
  rfl

/-- One position written: its cell gets `g`, every other cell is kept. -/
theorem setPosition_spec {data : List UInt64} (hL : Shape data) (x : UInt32) {bit : UInt64} (hb : bit.toNat < 64)
    {g : Nat} (hg : g < 4) :
    ∃ data', setPosition data (fastMod x data.length) bit g = some data' ∧ data'.length = data.length ∧
      cellsOf data' = Function.update (cellsOf data) ((fastMod x data.length).toNat / 2, bit.toNat) g := by
  have h1 := hL.lowWord_lt x
  have h2 := hL.highWord_lt x
  have hlow := lowWord_eq (fastMod x data.length)
  have hhigh := highWord_eq (fastMod x data.length)
  refine ⟨_, setPosition_eq bit g h1 h2 (by omega), by rw [List.length_set, List.length_set], ?_⟩
  funext c
  obtain ⟨i, b⟩ := c
  rw [Function.update_apply, cellsOf, cellsOf]
  dsimp only
  by_cases hi : i = (fastMod x data.length).toNat / 2
  · -- the cell's own pair: both words are the new ones
    rw [show 2 * i + 1 = highWord (fastMod x data.length) by omega, show 2 * i = lowWord (fastMod x data.length) by omega,
      getD_set_of_ne (by omega), getD_set_self h1, getD_set_self (by rw [List.length_set]; exact h2),
      TwoBitCells.cell_setBits _ _ _ hb hg]
    by_cases hbit : b = bit.toNat
    · rw [if_pos hbit, if_pos (by rw [hi, hbit])]
    · rw [if_neg hbit, if_neg (fun h => hbit (Prod.mk.inj h).2)]
  · -- another pair: both words are kept
    rw [getD_set_of_ne (by omega), getD_set_of_ne (by omega), getD_set_of_ne (by omega), getD_set_of_ne (by omega),
      if_neg (fun h => hi (Prod.mk.inj h).1)]

theorem cellsOf_cons_cons_zero (p1 p2 : UInt64) (rest : List UInt64) (b : Nat) :
    cellsOf (p1 :: p2 :: rest) (0, b) = TwoBitCells.cell p1 p2 b := rfl

theorem cellsOf_cons_cons_succ (p1 p2 : UInt64) (rest : List UInt64) (i b : Nat) :
    cellsOf (p1 :: p2 :: rest) (i + 1, b) = cellsOf rest (i, b) := by
  have h : 2 * (i + 1) = 2 * i + 1 + 1 := by omega
  simp only [cellsOf, h, List.getD_cons_succ]

/-- The words after a reset: every cell empty. -/
theorem cellsOf_replicate (n : Nat) (c : Nat × Nat) : cellsOf (List.replicate n 0) c = 0 := by
  have hzero : ∀ i, (List.replicate n (0 : UInt64)).getD i 0 = 0 := by
    intro i
    rw [List.getD_eq_getElem?_getD, List.getElem?_replicate]
    split <;> rfl
  rw [cellsOf, hzero, hzero, TwoBitCells.cell_zero_zero]

/-- The generation wipe over every pair of words.  Induction on the words,
    two at a time. -/
theorem wipeGeneration_spec {g : Nat} (hg : g < 4) :
    ∀ data : List UInt64, data.length % 2 = 0 →
      ∃ data', wipeGeneration ((0 : UInt64) - UInt64.ofNat (g &&& 1)) ((0 : UInt64) - UInt64.ofNat (g >>> 1)) data =
        some data' ∧ data'.length = data.length ∧ ∀ c, cellsOf data' c = if cellsOf data c = g then 0 else cellsOf data c
  | [], _ => ⟨[], rfl, rfl, fun c => by
    have h0 : cellsOf [] c = 0 := cellsOf_replicate 0 c
    rw [h0]
    split <;> rfl⟩
  | [_], h => absurd h (by simp)
  | p1 :: p2 :: rest, h => by
    obtain ⟨rest', hrest, hlen, hcells⟩ := wipeGeneration_spec hg rest (by rw [List.length_cons, List.length_cons] at h; omega)
    refine ⟨_, by rw [wipeGeneration, hrest, Option.map_some], by rw [List.length_cons, List.length_cons, hlen]; rfl, ?_⟩
    rintro ⟨i, b⟩
    cases i with
    | zero => rw [cellsOf_cons_cons_zero, cellsOf_cons_cons_zero, TwoBitCells.cell_wipe _ _ hg]
    | succ i => rw [cellsOf_cons_cons_succ, cellsOf_cons_cons_succ, hcells]

theorem Shape.of_length {data data' : List UInt64} (h : Shape data) (hl : data'.length = data.length) :
    Shape data' :=
  ⟨by rw [hl]; exact h.even, by rw [hl]; exact h.two_le, by rw [hl]; exact h.lt⟩

/-- The test of `contains` at a hash value reads its cell. -/
theorem test_eq_zero_iff (data : List UInt64) (x : UInt32) :
    ((data.getD (lowWord (fastMod x data.length)) 0 ||| data.getD (highWord (fastMod x data.length)) 0) >>>
        (x &&& 0x3F).toUInt64) &&& 1 = 0 ↔ cellsOf data (hashCell data.length x) = 0 := by
  rw [cellsOf, hashCell]
  dsimp only
  rw [← highWord_eq, ← lowWord_eq]
  exact TwoBitCells.cell_eq_zero_iff _ _ _ (bit_lt x)

/-! ## Contains -/

section Hash

variable (murmurHash3 : UInt32 → List UInt8 → UInt32)

/-- `contains` tests exactly whether every cell of the key is set. -/
theorem containsPositions_eq (s : CRollingBloomFilter) (hL : Shape s.data) (vKey : List UInt8) :
    ∀ ns : List Nat, s.containsPositions murmurHash3 vKey ns =
      some (decide (∀ c ∈ ns.map fun n => hashCell s.data.length (rollingBloomHash murmurHash3 n s.nTweak vKey),
        cellsOf s.data c ≠ 0))
  | [] => by simp [CRollingBloomFilter.containsPositions]
  | n :: ns => by
    have h1 := hL.lowWord_lt (rollingBloomHash murmurHash3 n s.nTweak vKey)
    have h2 := hL.highWord_lt (rollingBloomHash murmurHash3 n s.nTweak vKey)
    have hzero := test_eq_zero_iff s.data (rollingBloomHash murmurHash3 n s.nTweak vKey)
    rw [CRollingBloomFilter.containsPositions, getElem?_eq_some_getD h1, Option.bind_eq_bind, Option.bind_some, getElem?_eq_some_getD h2,
      Option.bind_some]
    by_cases hz : cellsOf s.data (hashCell s.data.length (rollingBloomHash murmurHash3 n s.nTweak vKey)) = 0
    · -- an empty cell: `false` at once
      rw [if_pos (hzero.mpr hz)]
      simp [hz]
    · rw [if_neg (fun h => hz (hzero.mp h)), containsPositions_eq s hL vKey ns]
      simp [hz]

theorem contains_eq (s : CRollingBloomFilter) (hL : Shape s.data) (vKey : List UInt8) :
    s.contains murmurHash3 vKey = some (decide (∀ c ∈ keyCells murmurHash3 s vKey, cellsOf s.data c ≠ 0)) :=
  containsPositions_eq murmurHash3 s hL vKey _

/-! ## Insert -/

/-- The loop of `insert` stamps every cell of the key with the generation. -/
theorem insertPositions_spec (s : CRollingBloomFilter) (vKey : List UInt8) {t : Nat}
    (hgen : s.nGeneration = Generations.stamp t) :
    ∀ (ns : List Nat) (data : List UInt64), Shape data →
      ∃ data', s.insertPositions murmurHash3 vKey data ns = some data' ∧ data'.length = data.length ∧
        cellsOf data' = Generations.write (cellsOf data) t
          (ns.map fun n => hashCell data.length (rollingBloomHash murmurHash3 n s.nTweak vKey))
  | [], data, _ => ⟨data, rfl, rfl, rfl⟩
  | n :: ns, data, hL => by
    have hg : s.nGeneration < 4 := by rw [hgen]; exact Generations.stamp_lt t
    obtain ⟨data1, hset, hlen1, hcells1⟩ := setPosition_spec hL (rollingBloomHash murmurHash3 n s.nTweak vKey)
      (bit_lt _) hg
    obtain ⟨data', hrest, hlen', hcells'⟩ := insertPositions_spec s vKey hgen ns data1 (hL.of_length hlen1)
    refine ⟨data', ?_, by rw [hlen', hlen1], ?_⟩
    · rw [CRollingBloomFilter.insertPositions, hset]
      exact hrest
    · -- the first cell is the first update of `write`
      rw [hcells', hcells1, hlen1, hgen]
      rfl

/-- The start of a new generation wipes its number. -/
theorem nextGeneration_spec {s : CRollingBloomFilter} (hL : Shape s.data) {t : Nat}
    (hgen : s.nGeneration = Generations.stamp t) :
    ∃ data', s.nextGeneration =
        some { s with nEntriesThisGeneration := 0, nGeneration := Generations.stamp (t + 1), data := data' } ∧
      data'.length = s.data.length ∧ cellsOf data' = Generations.wipe (cellsOf s.data) (t + 1) := by
  have hnext : (if s.nGeneration + 1 = 4 then 1 else s.nGeneration + 1) = Generations.stamp (t + 1) := by
    rw [hgen, ← Generations.next_stamp]
    rfl
  obtain ⟨data', hwipe, hlen, hcells⟩ := wipeGeneration_spec (Generations.stamp_lt (t + 1)) s.data hL.even
  refine ⟨data', ?_, hlen, funext hcells⟩
  rw [CRollingBloomFilter.nextGeneration, hnext, hwipe]
  rfl

/-- What every insert keeps: everything the cells of a key depend on. -/
structure Frame (s s' : CRollingBloomFilter) : Prop where
  perGeneration : s'.nEntriesPerGeneration = s.nEntriesPerGeneration
  tweak : s'.nTweak = s.nTweak
  hashFuncs : s'.nHashFuncs = s.nHashFuncs
  length : s'.data.length = s.data.length

theorem Frame.refl (s : CRollingBloomFilter) : Frame s s := ⟨rfl, rfl, rfl, rfl⟩

theorem Frame.trans {s s' s'' : CRollingBloomFilter} (h : Frame s s') (h' : Frame s' s'') : Frame s s'' :=
  ⟨h'.perGeneration.trans h.perGeneration, h'.tweak.trans h.tweak, h'.hashFuncs.trans h.hashFuncs,
    h'.length.trans h.length⟩

theorem keyCells_of_frame {s s' : CRollingBloomFilter} (h : Frame s s') :
    keyCells murmurHash3 s' = keyCells murmurHash3 s := by
  funext vKey
  rw [keyCells, keyCells, h.tweak, h.hashFuncs, h.length]

/-- The filter `s` holds the abstract store `st`: the same counters, the
    generation as its number, and the same cells. -/
structure Holds (s : CRollingBloomFilter) (st : Generations.Store (Nat × Nat)) : Prop where
  shape : Shape s.data
  entries : s.nEntriesThisGeneration = st.entries
  generation : s.nGeneration = Generations.stamp st.gen
  cells : cellsOf s.data = st.cells

/-- The part of `insert` after the generation check, from the filter `s1`
    it has left. -/
theorem holds_of_step (s s1 : CRollingBloomFilter) {st' : Generations.Store (Nat × Nat)}
    (vKey : List UInt8)
    (hins : s.insert murmurHash3 vKey =
      ((({ s1 with nEntriesThisGeneration := s1.nEntriesThisGeneration + 1 } : CRollingBloomFilter)).insertPositions
        murmurHash3 vKey s1.data (List.range s1.nHashFuncs)).bind fun data =>
          some { s1 with nEntriesThisGeneration := s1.nEntriesThisGeneration + 1, data := data })
    (hL : Shape s1.data) (hf : Frame s s1) (hentries : s1.nEntriesThisGeneration + 1 = st'.entries)
    (hgen : s1.nGeneration = Generations.stamp st'.gen)
    (hcells : Generations.write (cellsOf s1.data) st'.gen (keyCells murmurHash3 s vKey) = st'.cells) :
    ∃ s', s.insert murmurHash3 vKey = some s' ∧ Holds s' st' ∧ Frame s s' := by
  obtain ⟨data', hpos, hlen, hcells'⟩ := insertPositions_spec murmurHash3
    { s1 with nEntriesThisGeneration := s1.nEntriesThisGeneration + 1 } vKey hgen (List.range s1.nHashFuncs) s1.data hL
  refine ⟨{ s1 with nEntriesThisGeneration := s1.nEntriesThisGeneration + 1, data := data' }, ?_,
    ⟨hL.of_length hlen, hentries, hgen, ?_⟩, hf.trans ⟨rfl, rfl, rfl, hlen⟩⟩
  · rw [hins, hpos]
    rfl
  · rw [hcells', ← hcells, ← keyCells_of_frame murmurHash3 hf]
    rfl

/-- One insert refines the insert of the store, with the cells of the key. -/
theorem insert_holds {s : CRollingBloomFilter} {st : Generations.Store (Nat × Nat)} (h : Holds s st)
    (vKey : List UInt8) :
    ∃ s', s.insert murmurHash3 vKey = some s' ∧
      Holds s' (st.insert s.nEntriesPerGeneration (keyCells murmurHash3 s vKey)) ∧ Frame s s' := by
  by_cases he : s.nEntriesThisGeneration = s.nEntriesPerGeneration
  · -- a new generation first: the store starts one too
    have hst : st.entries = s.nEntriesPerGeneration := by rw [← h.entries]; exact he
    obtain ⟨data1, hnext, hlen1, hcells1⟩ := nextGeneration_spec h.shape h.generation
    apply holds_of_step murmurHash3 s
      { s with nEntriesThisGeneration := 0, nGeneration := Generations.stamp (st.gen + 1), data := data1 } vKey
      (by rw [CRollingBloomFilter.insert, if_pos he, hnext]; rfl) (h.shape.of_length hlen1) ⟨rfl, rfl, rfl, hlen1⟩
    · rw [Generations.Store.insert, if_pos hst]
    · rw [Generations.Store.insert, if_pos hst]
    · rw [Generations.Store.insert, if_pos hst]
      dsimp only
      rw [hcells1, h.cells]
  · have hst : st.entries ≠ s.nEntriesPerGeneration := by rw [← h.entries]; exact he
    apply holds_of_step murmurHash3 s s vKey (by rw [CRollingBloomFilter.insert, if_neg he]; rfl) h.shape (Frame.refl s)
    · rw [Generations.Store.insert, if_neg hst, h.entries]
    · rw [Generations.Store.insert, if_neg hst, h.generation]
    · rw [Generations.Store.insert, if_neg hst]
      dsimp only
      rw [h.cells]

/-- The run lemma: a sequence of inserts refines the run of the store.
    Induction on the keys, from any filter holding any store. -/
theorem insertAll_holds {s : CRollingBloomFilter} {st : Generations.Store (Nat × Nat)} (h : Holds s st)
    (keys : List (List UInt8)) :
    ∃ s', s.insertAll murmurHash3 keys = some s' ∧
      Holds s' (st.run s.nEntriesPerGeneration (keys.map (keyCells murmurHash3 s))) ∧ Frame s s' := by
  induction keys generalizing s st with
  | nil => exact ⟨s, rfl, h, Frame.refl s⟩
  | cons vKey keys ih =>
    obtain ⟨s1, h1, hh1, hf1⟩ := insert_holds murmurHash3 h vKey
    obtain ⟨s', h', hh', hf'⟩ := ih hh1
    refine ⟨s', ?_, ?_, hf1.trans hf'⟩
    · rw [CRollingBloomFilter.insertAll, List.foldlM_cons, h1]
      exact h'
    · rw [hf1.perGeneration, keyCells_of_frame murmurHash3 hf1] at hh'
      exact hh'

/-- A reset starts the empty store. -/
theorem reset_holds {s : CRollingBloomFilter} (hL : Shape s.data) (nTweak : UInt32) :
    Holds (s.reset nTweak) Generations.Store.empty :=
  ⟨hL.of_length List.length_replicate, rfl, rfl, funext (cellsOf_replicate _)⟩

theorem contains_of_recent {s : CRollingBloomFilter} {st : Generations.Store (Nat × Nat)} (h : Holds s st)
    {T t : Nat} {vKey : List UInt8} (hrec : Generations.Recent st.cells T t (keyCells murmurHash3 s vKey)) :
    s.contains murmurHash3 vKey = some true := by
  rw [contains_eq murmurHash3 s h.shape, h.cells, decide_eq_true hrec.ne_zero]

/-- After any sequence of inserts since a reset, every key of the current
    generation or of the two before it is found. -/
theorem insertAll_contains {s : CRollingBloomFilter} (h : Holds s Generations.Store.empty)
    (keys : List (List UInt8)) :
    ∃ s', s.insertAll murmurHash3 keys = some s' ∧ Frame s s' ∧ ∀ i (hi : i < keys.length),
      (Generations.counters s.nEntriesPerGeneration keys.length).2 ≤
          (Generations.counters s.nEntriesPerGeneration (i + 1)).2 + 2 →
        s'.contains murmurHash3 keys[i] = some true := by
  obtain ⟨s', hs, hh, hf⟩ := insertAll_holds murmurHash3 h keys
  refine ⟨s', hs, hf, fun i hi hrec => ?_⟩
  have hi' : i < (keys.map (keyCells murmurHash3 s)).length := by rw [List.length_map]; exact hi
  have hrecent := Generations.Store.run_recent s.nEntriesPerGeneration (keys.map (keyCells murmurHash3 s)) i hi'
    (by rw [List.length_map]; exact hrec)
  have hkey : keyCells murmurHash3 s keys[i] = keyCells murmurHash3 s' keys[i] := by
    rw [keyCells_of_frame murmurHash3 hf]
  rw [List.getElem_map, hkey] at hrecent
  exact contains_of_recent murmurHash3 hh hrecent

end Hash

/-! ## The constructor -/

/-- The data of every constructed filter is pairs of words, fewer than
    `2 ^ 32`. -/
theorem new_holds (nElements : UInt32) (nHashFuncs : Nat) (nFilterBits nTweak : UInt32)
    (hdata : 2 ≤ (CRollingBloomFilter.new nElements nHashFuncs nFilterBits nTweak).data.length) :
    Holds (CRollingBloomFilter.new nElements nHashFuncs nFilterBits nTweak) Generations.Store.empty := by
  have hlen : (CRollingBloomFilter.new nElements nHashFuncs nFilterBits nTweak).data.length =
      (((nFilterBits + 63) / 64) <<< 1).toNat := by
    rw [CRollingBloomFilter.new, CRollingBloomFilter.reset, List.length_replicate, List.length_replicate]
  have hshift : (((nFilterBits + 63) / 64) <<< 1).toNat = ((nFilterBits + 63) / 64).toNat * 2 % 2 ^ 32 := by
    rw [UInt32.toNat_shiftLeft, show (1 : UInt32).toNat % 32 = 1 from rfl, Nat.shiftLeft_eq, Nat.pow_one]
  have hshape : Shape (List.replicate (((nFilterBits + 63) / 64) <<< 1).toNat (0 : UInt64)) := by
    rw [hlen] at hdata
    refine ⟨?_, ?_, ?_⟩ <;> rw [List.length_replicate]
    · rw [hshift]
      omega
    · exact hdata
    · exact UInt32.toNat_lt _
  show Holds (CRollingBloomFilter.reset _ nTweak) _
  exact reset_holds hshape nTweak

/-- `(nElements + 1) / 2` entries a generation: the last `nElements`
    inserts are of the current generation or of the two before it (all of
    them when `nElements + 1` wraps to `0`). -/
theorem last_inserts_recent (nElements : UInt32) {i n : Nat} (hi : i < n) (hn : n ≤ i + nElements.toNat) :
    (Generations.counters ((nElements + 1) / 2).toNat n).2 ≤
      (Generations.counters ((nElements + 1) / 2).toNat (i + 1)).2 + 2 := by
  have hE : ((nElements + 1) / 2).toNat = (nElements.toNat + 1) % 2 ^ 32 / 2 := by
    rw [UInt32.toNat_div, UInt32.toNat_add, show (1 : UInt32).toNat = 1 from rfl, show (2 : UInt32).toNat = 2 from rfl]
  have hlt := nElements.toNat_lt
  by_cases hwrap : nElements.toNat + 1 = 2 ^ 32
  · -- no generation ever ends after the first
    rw [hE, hwrap, Nat.mod_self, Nat.zero_div]
    obtain ⟨m, rfl⟩ : ∃ m, n = m + 1 := ⟨n - 1, by omega⟩
    rw [Generations.counters_zero_succ, Generations.counters_zero_succ]
    omega
  · apply Generations.counters_gen_le_add_two _ hi
    rw [hE]
    omega

/-! ## Recent keys are kept -/

/-- The rolling bloom filter never forgets a recent key.  From any filter
    the constructor builds, with any hash function in place of
    `MurmurHash3`: no insert reads or writes past the end of `data`, and
    after the last `reset()` every key of the current generation or of the
    two before it, and so every one of the last `nElements` keys, is found. -/
theorem rollingBloom_keeps_recent (murmurHash3 : UInt32 → List UInt8 → UInt32) (nElements : UInt32)
    (nHashFuncs : Nat) (nFilterBits nTweak : UInt32)
    (hdata : 2 ≤ (CRollingBloomFilter.new nElements nHashFuncs nFilterBits nTweak).data.length)
    (history : List (List UInt8)) (nTweak' : UInt32) (keys : List (List UInt8)) :
    ∃ s0, (CRollingBloomFilter.new nElements nHashFuncs nFilterBits nTweak).insertAll murmurHash3 history = some s0 ∧
      ∃ s, (s0.reset nTweak').insertAll murmurHash3 keys = some s ∧
        (∀ i (hi : i < keys.length),
          (Generations.counters ((nElements + 1) / 2).toNat keys.length).2 ≤
              (Generations.counters ((nElements + 1) / 2).toNat (i + 1)).2 + 2 →
            s.contains murmurHash3 keys[i] = some true) ∧
        (∀ i (hi : i < keys.length), keys.length ≤ i + nElements.toNat →
          s.contains murmurHash3 keys[i] = some true) := by
  have hnew := new_holds nElements nHashFuncs nFilterBits nTweak hdata
  obtain ⟨s0, h0, hf0, -⟩ := insertAll_contains murmurHash3 hnew history
  have hreset := reset_holds (hnew.shape.of_length hf0.length) nTweak'
  obtain ⟨s, hs, -, hkeep⟩ := insertAll_contains murmurHash3 hreset keys
  -- a reset keeps the entries a generation the constructor chose
  have hE : (s0.reset nTweak').nEntriesPerGeneration = ((nElements + 1) / 2).toNat := hf0.perGeneration
  rw [hE] at hkeep
  exact ⟨s0, h0, s, hs, hkeep, fun i hi hlast => hkeep i hi (last_inserts_recent nElements hi hlast)⟩

theorem rollingBloom_keeps_recent_three :
    ∃ s, ((CRollingBloomFilter.new 2 1 64 7).reset 9).insertAll (fun seed _ => seed) [[1], [2], [3]] = some s ∧
      s.contains (fun seed _ => seed) [1] = some true ∧ s.contains (fun seed _ => seed) [3] = some true := by
  obtain ⟨s0, h0, s, hs, hrecent, hlast⟩ :=
    rollingBloom_keeps_recent (fun seed _ => seed) 2 1 64 7 (by decide) [] 9 [[1], [2], [3]]
  have hs0 : s0 = CRollingBloomFilter.new 2 1 64 7 := (Option.some.inj h0).symm
  subst hs0
  exact ⟨s, hs, hrecent 0 (by decide) (by decide), hlast 2 (by decide) (by decide)⟩

end Revo
