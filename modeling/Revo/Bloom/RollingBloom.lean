/-
  Revo.Bloom.RollingBloom

  `CRollingBloomFilter` (`bloom.cpp`): a filter of the keys inserted in the
  last two to three generations.  Position `P` has two bits, bit `P & 63`
  of the words `data[(P >> 6) * 2]` and `data[(P >> 6) * 2 + 1]`; it is
  unset when both are `0`, and otherwise holds the number (`1`, `2` or
  `3`) of the generation that set it last.  A new generation first wipes
  the positions that hold its own number.

  `MurmurHash3` is a parameter, any function of the seed and the key.  The
  floating-point sizing of the constructor is not modelled: the number of
  hash functions and of filter bits are its arguments.  The `int` counters
  are `Nat`, exact while `nEntriesThisGeneration` stays at most
  `nEntriesPerGeneration`.  Every read and write of `data` is checked:
  `none` stands for an access past its end.
-/

import Mathlib.Data.BitVec

namespace Revo

/-- The fields of a `CRollingBloomFilter`. -/
structure CRollingBloomFilter where
  nEntriesPerGeneration : Nat
  nEntriesThisGeneration : Nat
  nGeneration : Nat
  data : List UInt64
  nTweak : UInt32
  nHashFuncs : Nat

/-- `RollingBloomHash(nHashNum, nTweak, vDataToHash)`. -/
def rollingBloomHash (murmurHash3 : UInt32 → List UInt8 → UInt32) (nHashNum : Nat) (nTweak : UInt32)
    (vDataToHash : List UInt8) : UInt32 :=
  murmurHash3 (UInt32.ofNat nHashNum * 0xFBA4C795 + nTweak) vDataToHash

/-- `FastMod(x, n)`: `x * n >> 32` on 64 bits. -/
def fastMod (x : UInt32) (n : Nat) : UInt32 := ((x.toUInt64 * UInt64.ofNat n) >>> 32).toUInt32

/-- The index `pos & ~1` of the first word of a position. -/
def lowWord (pos : UInt32) : Nat := (pos &&& ~~~1).toNat

/-- The index `pos | 1` of the second word of a position. -/
def highWord (pos : UInt32) : Nat := (pos ||| 1).toNat

/-- The two assignments of `insert` to one position: bit `bit` of the two
    words gets the two bits of the generation. -/
def setPosition (data : List UInt64) (pos : UInt32) (bit : UInt64) (nGeneration : Nat) : Option (List UInt64) := do
  let w ← data[lowWord pos]?
  let data := data.set (lowWord pos)
    ((w &&& ~~~((1 : UInt64) <<< bit)) ||| (UInt64.ofNat (nGeneration &&& 1) <<< bit))
  let w ← data[highWord pos]?
  pure (data.set (highWord pos) ((w &&& ~~~((1 : UInt64) <<< bit)) ||| (UInt64.ofNat (nGeneration >>> 1) <<< bit)))

/-- The loop `for (uint32_t p = 0; p < data.size(); p += 2)` of the
    generation wipe, on the words from `p` on. -/
def wipeGeneration (nGenerationMask1 nGenerationMask2 : UInt64) : List UInt64 → Option (List UInt64)
  | [] => some []
  | [_] => none  -- `data[p + 1]` past the end
  | p1 :: p2 :: rest =>
    let mask := (p1 ^^^ nGenerationMask1) ||| (p2 ^^^ nGenerationMask2)
    (wipeGeneration nGenerationMask1 nGenerationMask2 rest).map fun rest => (p1 &&& mask) :: (p2 &&& mask) :: rest

namespace CRollingBloomFilter

variable (murmurHash3 : UInt32 → List UInt8 → UInt32)

/-- The start of a new generation in `insert`: the next number, and the
    positions holding it wiped. -/
def nextGeneration (s : CRollingBloomFilter) : Option CRollingBloomFilter := do
  let nGeneration := s.nGeneration + 1
  let nGeneration := if nGeneration = 4 then 1 else nGeneration
  let nGenerationMask1 := (0 : UInt64) - UInt64.ofNat (nGeneration &&& 1)
  let nGenerationMask2 := (0 : UInt64) - UInt64.ofNat (nGeneration >>> 1)
  let data ← wipeGeneration nGenerationMask1 nGenerationMask2 s.data
  pure { s with nEntriesThisGeneration := 0, nGeneration := nGeneration, data := data }

/-- The loop `for (int n = 0; n < nHashFuncs; n++)` of `insert`. -/
def insertPositions (s : CRollingBloomFilter) (vKey : List UInt8) (data : List UInt64) :
    List Nat → Option (List UInt64)
  | [] => some data
  | n :: ns => do
    let h := rollingBloomHash murmurHash3 n s.nTweak vKey
    let data ← setPosition data (fastMod h data.length) (h &&& 0x3F).toUInt64 s.nGeneration
    insertPositions s vKey data ns

/-- `insert(vKey)`. -/
def insert (s : CRollingBloomFilter) (vKey : List UInt8) : Option CRollingBloomFilter := do
  let s ← if s.nEntriesThisGeneration = s.nEntriesPerGeneration then s.nextGeneration else pure s
  let s := { s with nEntriesThisGeneration := s.nEntriesThisGeneration + 1 }
  let data ← insertPositions murmurHash3 s vKey s.data (List.range s.nHashFuncs)
  pure { s with data := data }

/-- The loop over the hash functions of `contains`: `false` at the first
    unset position. -/
def containsPositions (s : CRollingBloomFilter) (vKey : List UInt8) : List Nat → Option Bool
  | [] => some true
  | n :: ns => do
    let h := rollingBloomHash murmurHash3 n s.nTweak vKey
    let bit : UInt64 := (h &&& 0x3F).toUInt64
    let pos := fastMod h s.data.length
    let w1 ← s.data[lowWord pos]?
    let w2 ← s.data[highWord pos]?
    if ((w1 ||| w2) >>> bit) &&& 1 = 0 then some false else containsPositions s vKey ns

/-- `contains(vKey)`. -/
def contains (s : CRollingBloomFilter) (vKey : List UInt8) : Option Bool :=
  containsPositions murmurHash3 s vKey (List.range s.nHashFuncs)

/-- `reset()`, with the random tweak as an argument. -/
def reset (s : CRollingBloomFilter) (nTweak : UInt32) : CRollingBloomFilter :=
  { s with
    nTweak := nTweak
    nEntriesThisGeneration := 0
    nGeneration := 1
    data := List.replicate s.data.length 0 }

/-- The constructor `CRollingBloomFilter(nElements, fpRate)`, given the
    number of hash functions and `nFilterBits` its floating-point sizing
    computes, and the tweak `reset()` draws. -/
def new (nElements : UInt32) (nHashFuncs : Nat) (nFilterBits nTweak : UInt32) : CRollingBloomFilter :=
  reset ⟨((nElements + 1) / 2).toNat, 0, 0, List.replicate (((nFilterBits + 63) / 64) <<< 1).toNat 0, 0, nHashFuncs⟩
    nTweak

/-- A sequence of `insert` calls. -/
def insertAll (s : CRollingBloomFilter) (keys : List (List UInt8)) : Option CRollingBloomFilter :=
  keys.foldlM (fun s vKey => s.insert murmurHash3 vKey) s

end CRollingBloomFilter

end Revo
