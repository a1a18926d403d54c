/-
  Revo.Filter.BlockFilter

  `MapIntoRange` of `blockfilter.cpp`: a hash, uniform on `[0, 2^64)`, sent
  to `[0, n)` as the high 64 bits of `x * n`.  The source has two bodies,
  chosen by the preprocessor: with `__int128` the product is taken on 128
  bits, and without it from the four products of the 32-bit halves.  Both
  are modelled, on the source's own widths.

  Then `GCSFilter`, the Golomb-coded set of BIP 158.  The filter built from
  an element set holds the CompactSize of `N` and then the Golomb-Rice codes
  of the differences between the sorted hashes; reading it back decodes `N`
  codes and refuses bytes left over, and `MatchInternal` walks the decoded
  values against sorted queries in one merge.  An `ElementSet`, an
  `unordered_set`, is its elements in the order the set iterates them.
  `CSipHasher(k0, k1).Write(e).Finalize()` is the keyed hash `sipHash k0 k1
  e`, a parameter of the section; `HashToRange` uses the `__int128` body of
  `MapIntoRange`.  A failed `assert` is an error naming the assertion.
-/

import Revo.Serialize.Serialize
import Revo.Serialize.BitStream

namespace Revo

/-- `MapIntoRange(x, n)` where `__SIZEOF_INT128__` is defined: the 128-bit
    product shifted down by 64, returned as a `uint64_t`. -/
def mapIntoRangeInt128 (x n : UInt64) : UInt64 :=
  UInt64.ofBitVec (((x.toBitVec.setWidth 128 * n.toBitVec.setWidth 128) >>> 64).setWidth 64)

/-- `MapIntoRange(x, n)` without `__int128`: the product assembled from the
    32-bit halves on 64-bit words. -/
def mapIntoRangePortable (x n : UInt64) : UInt64 :=
  let x_hi := x >>> 32
  let x_lo := x &&& 0xFFFFFFFF
  let n_hi := n >>> 32
  let n_lo := n &&& 0xFFFFFFFF
  let ac := x_hi * n_hi
  let ad := x_hi * n_lo
  let bc := x_lo * n_hi
  let bd := x_lo * n_lo
  let mid34 := (bd >>> 32) + (bc &&& 0xFFFFFFFF) + (ad &&& 0xFFFFFFFF)
  let upper64 := ac + (bc >>> 32) + (ad >>> 32) + (mid34 >>> 32)
  upper64

/-! ## Golomb-coded sets -/

/-- `GCSFilter::ElementSet`: the elements in iteration order, none twice. -/
structure ElementSet where
  elems : List (List UInt8)
  nodup : elems.Nodup

/-- `GCSFilter::Params`. -/
structure GCSParams where
  m_siphash_k0 : UInt64
  m_siphash_k1 : UInt64
  m_P : UInt8
  m_M : UInt32
  deriving DecidableEq, Repr

structure GCSFilter where
  m_params : GCSParams
  m_N : UInt32
  m_F : UInt64
  m_encoded : List UInt8
  deriving DecidableEq, Repr

namespace GCSFilter

/-- `GCSFilter(params)`: the empty filter, whose encoding is the
    CompactSize of zero. -/
def empty (params : GCSParams) : GCSFilter := ⟨params, 0, 0, [0]⟩

/-- The loop of `GCSFilter(params, elements)` over the sorted hashes, with
    `last_value` the hash before. -/
def encodeDeltas (P : UInt8) (last_value : UInt64) : List UInt64 → BitStreamWriter → Except String BitStreamWriter
  | [], w => .ok w
  | value :: values, w => do
    let w ← golombRiceEncode w P (value - last_value)
    encodeDeltas P value values w

/-- The `for` loop of `GCSFilter(params, encoded_filter)`: `n` more codes
    decoded and dropped. -/
def decodeLoop (P : UInt8) : Nat → BitStreamReader → Except String BitStreamReader
  | 0, r => .ok r
  | n + 1, r => do
    let (_, r) ← golombRiceDecode r P
    decodeLoop P n r

/-- `GCSFilter(params, encoded_filter)`. -/
def ofEncoded (params : GCSParams) (encoded_filter : List UInt8) : Except String GCSFilter := do
  let (N, stream) ← readCompactSize true encoded_filter
  let m_N := UInt32.ofNat N
  if m_N.toNat ≠ N then throw "N must be <2^32"
  let m_F := m_N.toUInt64 * params.m_M.toUInt64
  -- exactly `N` codes, then nothing left in the stream
  let bitreader ← decodeLoop params.m_P m_N.toNat (BitStreamReader.new stream)
  if bitreader.m_istream ≠ [] then throw "encoded_filter contains excess data"
  pure ⟨params, m_N, m_F, encoded_filter⟩

/-- The inner `while (true)` of `MatchInternal` at the decoded `value`, over
    the queries from `hashes_index` on: `.inl` returns, `.inr` breaks with
    the queries left. -/
def matchScan (value : UInt64) : List UInt64 → Bool ⊕ List UInt64
  | [] => .inl false
  | h :: hs => if h = value then .inl true else if h > value then .inr (h :: hs) else matchScan value hs

/-- The `for` loop of `MatchInternal`, `n` codes still to decode. -/
def matchLoop (P : UInt8) : Nat → UInt64 → List UInt64 → BitStreamReader → Except String Bool
  | 0, _, _, _ => .ok false
  | n + 1, value, hashes, r => do
    let (delta, r) ← golombRiceDecode r P
    let value := value + delta
    match matchScan value hashes with
    | .inl b => .ok b
    | .inr hashes => matchLoop P n value hashes r

/-- `MatchInternal(element_hashes, size)`. -/
def matchInternal (f : GCSFilter) (element_hashes : List UInt64) : Except String Bool := do
  let (N, stream) ← readCompactSize true f.m_encoded
  if N ≠ f.m_N.toNat then throw "assert(N == m_N)"
  matchLoop f.m_params.m_P f.m_N.toNat 0 element_hashes (BitStreamReader.new stream)

section Hashing

variable (sipHash : UInt64 → UInt64 → List UInt8 → UInt64)

/-- `HashToRange(element)`. -/
def hashToRange (f : GCSFilter) (element : List UInt8) : UInt64 :=
  mapIntoRangeInt128 (sipHash f.m_params.m_siphash_k0 f.m_params.m_siphash_k1 element) f.m_F

/-- `BuildHashedSet(elements)`, sorted by `std::sort`. -/
def buildHashedSet (f : GCSFilter) (elements : ElementSet) : List UInt64 :=
  (elements.elems.map (hashToRange sipHash f)).mergeSort fun a b => decide (a ≤ b)

/-- `GCSFilter(params, elements)`. -/
def ofElements (params : GCSParams) (elements : ElementSet) : Except String GCSFilter :=
  let N := elements.elems.length
  let m_N := UInt32.ofNat N
  if m_N.toNat ≠ N then .error "N must be <2^32"
  else
    let m_F := m_N.toUInt64 * params.m_M.toUInt64
    let f : GCSFilter := ⟨params, m_N, m_F, writeCompactSize m_N.toNat⟩
    if elements.elems.isEmpty then .ok f
    else
      match encodeDeltas params.m_P 0 (buildHashedSet sipHash f elements) (BitStreamWriter.new f.m_encoded) with
      | .error e => .error e
      | .ok bitwriter => .ok { f with m_encoded := bitwriter.flush.m_ostream }

/-- `Match(element)`. -/
def matchElement (f : GCSFilter) (element : List UInt8) : Except String Bool :=
  let query := hashToRange sipHash f element
  f.matchInternal [query]

/-- `MatchAny(elements)`. -/
def matchAny (f : GCSFilter) (elements : ElementSet) : Except String Bool :=
  let queries := buildHashedSet sipHash f elements
  f.matchInternal queries

end Hashing

end GCSFilter

end Revo
