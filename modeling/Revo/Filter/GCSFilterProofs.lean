/-
  Revo.Filter.GCSFilterProofs

  The Golomb-coded set against the bits it holds.  The filter built from a
  set of `N` elements holds the CompactSize of `N` and then bytes whose bits
  are `deltaBits P 0 hs`, the Golomb-Rice codes of the differences of the
  sorted hashes `hs`, padded with fewer than eight zeros (`Encodes`,
  established by `ofElements_encodes`).  From that:

    * the `GCSFilter(params, encoded)` constructor takes the encoding back
      (`ofEncoded_of_encodes`): `N` codes decode and the padding leaves no
      byte in the stream;
    * the running sums of the decoded differences are `hs`
      (`decodeValues_bits`);
    * `MatchInternal` against sorted queries answers whether one of them is
      a hash of the set (`matchLoop_bits`, by the merge invariant of
      `matchScan_inl` and `matchScan_inr`), so that `Match` and `MatchAny`
      have no false negatives.

  All of it needs the CompactSize of `N` to pass the range check of
  `ReadCompactSize`, that is `N ≤ MAX_SIZE`; a larger set is built but not
  read back (`ofElements_refused_of_max_size_lt`).
-/

import Revo.Filter.BlockFilter
import Revo.Serialize.BitStreamProofs
import Revo.Serialize.SerializeProofs
import Mathlib

namespace Revo

open BitList

namespace GCSFilter

/-- The Golomb-Rice codes of the differences of `values`, the first taken
    from `last`. -/
def deltaBits (P : Nat) : UInt64 → List UInt64 → List Bool
  | _, [] => []
  | last, v :: vs => riceBits P (v - last).toNat ++ deltaBits P v vs

/-- The values `MatchInternal` walks: `n` codes decoded, each difference
    added to the value before. -/
def decodeValues (P : UInt8) : Nat → UInt64 → BitStreamReader → Except String (List UInt64 × BitStreamReader)
  | 0, _, r => .ok ([], r)
  | n + 1, value, r => do
    let (delta, r) ← golombRiceDecode r P
    let (values, r) ← decodeValues P n (value + delta) r
    .ok ((value + delta) :: values, r)

/-! ## The codes of the differences -/

section Codes

variable {P : UInt8} (hP : P.toNat < 64)
include hP

/-- The encoding loop appends the code of each difference. -/
theorem encodeDeltas_bits {w : BitStreamWriter} (hc : w.Clean) (last : UInt64) (values : List UInt64) :
    ∃ w', encodeDeltas P last values w = .ok w' ∧ w'.Clean ∧ w'.bits = w.bits ++ deltaBits P.toNat last values := by
  induction values generalizing last w with
  | nil => exact ⟨w, rfl, hc, by rw [deltaBits, List.append_nil]⟩
  | cons v vs ih =>
    obtain ⟨w1, hw1, hc1, hb1⟩ := golombRiceEncode_bits hc hP (v - last)
    obtain ⟨w', hw', hc', hb'⟩ := ih hc1 v
    refine ⟨w', ?_, hc', ?_⟩
    · rw [encodeDeltas]
      simp only [hw1, bind, Except.bind]
      exact hw'
    · rw [hb', hb1, deltaBits, List.append_assoc]

/-- One code off the front: the next difference, and the reader at the
    codes after it. -/
theorem golombRiceDecode_deltaBits {r : BitStreamReader} {last v : UInt64} {vs : List UInt64}
    {rest : List Bool} (hr : r.bits = deltaBits P.toNat last (v :: vs) ++ rest) :
    ∃ r', golombRiceDecode r P = .ok (v - last, r') ∧ r'.bits = deltaBits P.toNat v vs ++ rest := by
  rw [deltaBits, List.append_assoc] at hr
  exact golombRiceDecode_riceBits hP hr

/-- The decoding loop of the constructor reads one code per value. -/
theorem decodeLoop_bits {last : UInt64} {values : List UInt64} {r : BitStreamReader} {rest : List Bool}
    (hr : r.bits = deltaBits P.toNat last values ++ rest) :
    ∃ r', decodeLoop P values.length r = .ok r' ∧ r'.bits = rest := by
  induction values generalizing last r with
  | nil => exact ⟨r, rfl, by rw [hr, deltaBits, List.nil_append]⟩
  | cons v vs ih =>
    obtain ⟨r1, hd, hb1⟩ := golombRiceDecode_deltaBits hP hr
    obtain ⟨r', hl, hb'⟩ := ih hb1
    refine ⟨r', ?_, hb'⟩
    rw [List.length_cons, decodeLoop]
    simp only [hd, bind, Except.bind]
    exact hl

/-- The running sums of the decoded differences are the values coded. -/
theorem decodeValues_bits {last : UInt64} {values : List UInt64} {r : BitStreamReader} {rest : List Bool}
    (hr : r.bits = deltaBits P.toNat last values ++ rest) :
    ∃ r', decodeValues P values.length last r = .ok (values, r') ∧ r'.bits = rest := by
  induction values generalizing last r with
  | nil => exact ⟨r, rfl, by rw [hr, deltaBits, List.nil_append]⟩
  | cons v vs ih =>
    obtain ⟨r1, hd, hb1⟩ := golombRiceDecode_deltaBits hP hr
    obtain ⟨r', hl, hb'⟩ := ih hb1
    refine ⟨r', ?_, hb'⟩
    rw [List.length_cons, decodeValues]
    simp only [hd, bind, Except.bind, add_sub_cancel, hl]

end Codes

/-! ## The merge of `MatchInternal` -/

section Scan

variable {v : UInt64} {vs : List UInt64}

/-- A query below the smallest decoded value is none of them. -/
theorem not_mem_of_lt (hvs : (v :: vs).Pairwise (· ≤ ·)) {q : UInt64} (hq : q < v) : q ∉ v :: vs := by
  intro hmem
  rcases List.mem_cons.mp hmem with heq | hin
  · exact UInt64.lt_irrefl q (heq ▸ hq)
  · exact UInt64.not_le.mpr hq (List.rel_of_pairwise_cons hvs hin)

/-- The scan returns `true` on a query equal to the value, and `false` when
    the queries run out; either answers whether a query is a decoded value. -/
theorem matchScan_inl (hvs : (v :: vs).Pairwise (· ≤ ·)) {hashes : List UInt64}
    (hh : hashes.Pairwise (· ≤ ·)) {b : Bool} (h : matchScan v hashes = .inl b) :
    b = true ↔ ∃ q ∈ hashes, q ∈ v :: vs := by
  induction hashes with
  | nil =>
    rw [matchScan] at h
    cases h
    simp
  | cons q qs ih =>
    rw [matchScan] at h
    by_cases hqv : q = v
    · rw [if_pos hqv] at h
      cases h
      exact ⟨fun _ => ⟨q, List.mem_cons_self, hqv ▸ List.mem_cons_self⟩, fun _ => rfl⟩
    rw [if_neg hqv] at h
    by_cases hgt : q > v
    · rw [if_pos hgt] at h
      cases h
    rw [if_neg hgt] at h
    -- `q` is below `v`, so below every decoded value
    have hlt : q < v := UInt64.lt_of_le_of_ne (UInt64.not_lt.mp hgt) hqv
    rw [ih hh.of_cons h, List.exists_mem_cons_iff]
    exact ⟨Or.inr, fun h' => h'.resolve_left (not_mem_of_lt hvs hlt)⟩

/-- The scan breaks at the first query above the value: the queries it
    skipped are below the value and so none of the values, and the query it
    stops at and those after it are above the value, so the value is none
    of them. -/
theorem matchScan_inr (hvs : (v :: vs).Pairwise (· ≤ ·)) {hashes : List UInt64}
    (hh : hashes.Pairwise (· ≤ ·)) {hs : List UInt64} (h : matchScan v hashes = .inr hs) :
    hs.Pairwise (· ≤ ·) ∧ ((∃ q ∈ hs, q ∈ vs) ↔ ∃ q ∈ hashes, q ∈ v :: vs) := by
  induction hashes with
  | nil =>
    rw [matchScan] at h
    cases h
  | cons q qs ih =>
    rw [matchScan] at h
    by_cases hqv : q = v
    · rw [if_pos hqv] at h
      cases h
    rw [if_neg hqv] at h
    by_cases hgt : q > v
    · rw [if_pos hgt] at h
      cases h
      refine ⟨hh, fun ⟨x, hx, hxs⟩ => ⟨x, hx, List.mem_cons_of_mem v hxs⟩, fun ⟨x, hx, hxs⟩ => ⟨x, hx, ?_⟩⟩
      -- every query from `q` on is above `v`
      have hvx : v < x := by
        rcases List.mem_cons.mp hx with rfl | hin
        · exact hgt
        · exact UInt64.lt_of_lt_of_le hgt (List.rel_of_pairwise_cons hh hin)
      rcases List.mem_cons.mp hxs with rfl | hin
      · exact absurd hvx (UInt64.lt_irrefl x)
      · exact hin
    rw [if_neg hgt] at h
    have hlt : q < v := UInt64.lt_of_le_of_ne (UInt64.not_lt.mp hgt) hqv
    obtain ⟨hsort, hiff⟩ := ih hh.of_cons h
    refine ⟨hsort, ?_⟩
    rw [hiff, List.exists_mem_cons_iff]
    exact ⟨Or.inr, fun h' => h'.resolve_left (not_mem_of_lt hvs hlt)⟩

end Scan

/-- The loop of `MatchInternal` over the codes of sorted values answers
    whether a sorted query is one of them; the induction is on the values,
    the merge invariant of the scan carrying each step. -/
theorem matchLoop_bits {P : UInt8} (hP : P.toNat < 64) {value : UInt64} {values hashes : List UInt64}
    {r : BitStreamReader} {rest : List Bool} (hv : values.Pairwise (· ≤ ·)) (hh : hashes.Pairwise (· ≤ ·))
    (hr : r.bits = deltaBits P.toNat value values ++ rest) :
    ∃ b, matchLoop P values.length value hashes r = .ok b ∧ (b = true ↔ ∃ q ∈ hashes, q ∈ values) := by
  induction values generalizing value hashes r with
  | nil => exact ⟨false, rfl, by simp⟩
  | cons v vs ih =>
    obtain ⟨r1, hd, hb1⟩ := golombRiceDecode_deltaBits hP hr
    cases hs : matchScan v hashes with
    | inl b =>
      refine ⟨b, ?_, matchScan_inl hv hh hs⟩
      rw [List.length_cons, matchLoop]
      simp only [hd, bind, Except.bind, add_sub_cancel, hs]
    | inr hs' =>
      obtain ⟨hsort, hiff⟩ := matchScan_inr hv hh hs
      obtain ⟨b, hb, hbiff⟩ := ih hv.of_cons hsort hb1
      refine ⟨b, ?_, hbiff.trans hiff⟩
      rw [List.length_cons, matchLoop]
      simp only [hd, bind, Except.bind, add_sub_cancel, hs]
      exact hb

/-! ## Filters built from a set -/

section Hashing

variable (sipHash : UInt64 → UInt64 → List UInt8 → UInt64)

theorem length_buildHashedSet (f : GCSFilter) (S : ElementSet) :
    (buildHashedSet sipHash f S).length = S.elems.length := by
  rw [buildHashedSet, List.length_mergeSort, List.length_map]

theorem sorted_buildHashedSet (f : GCSFilter) (S : ElementSet) :
    (buildHashedSet sipHash f S).Pairwise (· ≤ ·) := by
  have h := @List.pairwise_mergeSort UInt64 (fun a b => decide (a ≤ b))
    (fun a b c hab hbc => decide_eq_true (UInt64.le_trans (of_decide_eq_true hab) (of_decide_eq_true hbc)))
    (fun a b => by rcases UInt64.le_total a b with h | h <;> simp [h])
    (S.elems.map (hashToRange sipHash f))
  exact h.imp of_decide_eq_true

theorem mem_buildHashedSet (f : GCSFilter) {S : ElementSet} {e : List UInt8} (he : e ∈ S.elems) :
    hashToRange sipHash f e ∈ buildHashedSet sipHash f S := by
  rw [buildHashedSet, (List.mergeSort_perm _ _).mem_iff]
  exact List.mem_map_of_mem he

/-- What a filter built from `elements` holds: `N` is their count, `F` is
    `N * M`, and the encoding is the CompactSize of `N` and then bytes whose
    bits are the codes of the sorted hashes' differences and fewer than
    eight zeros of padding. -/
structure Encodes (f : GCSFilter) (elements : ElementSet) : Prop where
  count : f.m_N.toNat = elements.elems.length
  range : f.m_F = f.m_N.toUInt64 * f.m_params.m_M.toUInt64
  encoded : ∃ t pad, f.m_encoded = writeCompactSize f.m_N.toNat ++ t ∧
    ofBytes t = deltaBits f.m_params.m_P.toNat 0 (buildHashedSet sipHash f elements) ++ List.replicate pad false ∧
    pad < 8

/-- `GCSFilter(params, elements)` builds a filter that holds the codes of
    the set, for every set of fewer than `2 ^ 32` elements. -/
theorem ofElements_encodes (params : GCSParams) (hP : params.m_P.toNat < 64) (S : ElementSet)
    (hN : S.elems.length < 2 ^ 32) :
    ∃ f, ofElements sipHash params S = .ok f ∧ f.m_params = params ∧ Encodes sipHash f S := by
  have hN' : (UInt32.ofNat S.elems.length).toNat = S.elems.length := UInt32.toNat_ofNat_of_lt' hN
  -- the filter before the encoding loop, with only the CompactSize written
  let f0 : GCSFilter := ⟨params, UInt32.ofNat S.elems.length,
    (UInt32.ofNat S.elems.length).toUInt64 * params.m_M.toUInt64,
    writeCompactSize (UInt32.ofNat S.elems.length).toNat⟩
  -- past the count check, `ofElements` is the branch on `elements.empty()`
  have hcount : ¬(UInt32.ofNat S.elems.length).toNat ≠ S.elems.length := not_not.mpr hN'
  by_cases he : S.elems.isEmpty
  · -- `elements.empty()`: the CompactSize alone
    refine ⟨f0, by rw [ofElements, if_neg hcount, if_pos he], rfl, hN', rfl, ⟨[], 0, ?_, ?_, by omega⟩⟩
    · exact (List.append_nil _).symm
    · have hnil : buildHashedSet sipHash f0 S = [] := by
        rw [← List.length_eq_zero_iff, length_buildHashedSet, List.length_eq_zero_iff]
        exact List.isEmpty_iff.mp he
      rw [hnil, deltaBits, ofBytes_nil, List.replicate_zero, List.append_nil]
  · obtain ⟨w, hw, hc, hbits⟩ := encodeDeltas_bits hP (BitStreamWriter.clean_new f0.m_encoded) 0
      (buildHashedSet sipHash f0 S)
    -- the flushed stream starts with the CompactSize bytes
    have hflush := BitStreamWriter.flush_bits hc
    rw [hbits, BitStreamWriter.bits_new, List.append_assoc] at hflush
    obtain ⟨t, ht, hbt⟩ := ofBytes_eq_append hflush
    refine ⟨{ f0 with m_encoded := w.flush.m_ostream }, ?_, rfl, hN', rfl, ⟨t, _, ?_, hbt, Nat.mod_lt _ (by omega)⟩⟩
    · rw [ofElements, if_neg hcount, if_neg he, hw]
    · exact ht

/-- The encoding of a filter that holds a set of at most `MAX_SIZE`
    elements: the CompactSize of `N` reads back, and the reader after it
    holds the codes of the sorted hashes and the padding. -/
theorem Encodes.stream {f : GCSFilter} {S : ElementSet} (hE : Encodes sipHash f S) (hmax : f.m_N.toNat ≤ MAX_SIZE) :
    ∃ t pad, readCompactSize true f.m_encoded = .ok (f.m_N.toNat, t) ∧
      (BitStreamReader.new t).bits = deltaBits f.m_params.m_P.toNat 0 (buildHashedSet sipHash f S) ++
        List.replicate pad false ∧ pad < 8 := by
  obtain ⟨t, pad, henc, hbits, hpad⟩ := hE.encoded
  refine ⟨t, pad, ?_, hbits, hpad⟩
  rw [henc]
  exact readCompactSize_writeCompactSize true (by have := f.m_N.toNat_lt; omega) (fun _ => hmax) t

/-- The `GCSFilter(params, encoded_filter)` constructor takes back the
    encoding of a filter built from a set of at most `MAX_SIZE` elements. -/
theorem ofEncoded_of_encodes {f : GCSFilter} {S : ElementSet} (hP : f.m_params.m_P.toNat < 64)
    (hE : Encodes sipHash f S) (hmax : f.m_N.toNat ≤ MAX_SIZE) :
    ofEncoded f.m_params f.m_encoded = .ok f := by
  obtain ⟨t, pad, hread, hbits, hpad⟩ := hE.stream sipHash hmax
  obtain ⟨r', hloop, hr'⟩ := decodeLoop_bits hP hbits
  have hlen : (buildHashedSet sipHash f S).length = f.m_N.toNat := by
    rw [length_buildHashedSet, hE.count]
  -- the padding is less than a byte, so the stream is empty
  have hnil : r'.m_istream = [] :=
    BitStreamReader.istream_eq_nil (by rw [hr', List.length_replicate]; exact hpad)
  rw [hlen] at hloop
  rw [ofEncoded]
  simp only [hread, UInt32.ofNat_toNat, ne_eq, not_true_eq_false, if_false, hloop, hnil, bind, Except.bind]
  rw [← hE.range]
  rfl

/-- `MatchInternal` on a filter built from a set of at most `MAX_SIZE`
    elements answers whether one of the sorted queries is a hash of the
    set. -/
theorem matchInternal_of_encodes {f : GCSFilter} {S : ElementSet} (hP : f.m_params.m_P.toNat < 64)
    (hE : Encodes sipHash f S) (hmax : f.m_N.toNat ≤ MAX_SIZE) {queries : List UInt64}
    (hq : queries.Pairwise (· ≤ ·)) :
    ∃ b, f.matchInternal queries = .ok b ∧ (b = true ↔ ∃ q ∈ queries, q ∈ buildHashedSet sipHash f S) := by
  obtain ⟨t, pad, hread, hbits, -⟩ := hE.stream sipHash hmax
  obtain ⟨b, hloop, hb⟩ := matchLoop_bits hP (sorted_buildHashedSet sipHash f S) hq hbits
  have hlen : (buildHashedSet sipHash f S).length = f.m_N.toNat := by
    rw [length_buildHashedSet, hE.count]
  rw [hlen] at hloop
  refine ⟨b, ?_, hb⟩
  rw [matchInternal]
  simp only [hread, ne_eq, not_true_eq_false, if_false, bind, Except.bind]
  exact hloop

/-- `Match(e)` is true for every element of the set. -/
theorem matchElement_of_mem {f : GCSFilter} {S : ElementSet} (hP : f.m_params.m_P.toNat < 64)
    (hE : Encodes sipHash f S) (hmax : f.m_N.toNat ≤ MAX_SIZE) {e : List UInt8} (he : e ∈ S.elems) :
    matchElement sipHash f e = .ok true := by
  obtain ⟨b, hm, hb⟩ := matchInternal_of_encodes sipHash hP hE hmax (List.pairwise_singleton _ (hashToRange sipHash f e))
  have htrue : b = true := hb.mpr ⟨_, List.mem_singleton_self _, mem_buildHashedSet sipHash f he⟩
  rw [matchElement, hm, htrue]

/-- `MatchAny(Q)` is true for every `Q` with an element of the set. -/
theorem matchAny_of_inter {f : GCSFilter} {S : ElementSet} (hP : f.m_params.m_P.toNat < 64)
    (hE : Encodes sipHash f S) (hmax : f.m_N.toNat ≤ MAX_SIZE) {Q : ElementSet}
    (hQ : ∃ e ∈ Q.elems, e ∈ S.elems) :
    matchAny sipHash f Q = .ok true := by
  obtain ⟨e, heQ, heS⟩ := hQ
  obtain ⟨b, hm, hb⟩ := matchInternal_of_encodes sipHash hP hE hmax (sorted_buildHashedSet sipHash f Q)
  have htrue : b = true := hb.mpr ⟨_, mem_buildHashedSet sipHash f heQ, mem_buildHashedSet sipHash f heS⟩
  rw [matchAny, hm, htrue]

/-- Above `MAX_SIZE` elements the CompactSize of `N` fails the range check
    of `ReadCompactSize`. -/
theorem Encodes.refused {f : GCSFilter} {S : ElementSet} (hE : Encodes sipHash f S)
    (hmax : MAX_SIZE < f.m_N.toNat) :
    readCompactSize true f.m_encoded = .error "ReadCompactSize(): size too large" := by
  obtain ⟨t, -, henc, -, -⟩ := hE.encoded
  have hread := @readCompactSize_writeCompactSize false f.m_N.toNat (by have := f.m_N.toNat_lt; omega)
    (fun h => absurd h Bool.false_ne_true) t
  rw [henc]
  exact readCompactSize_range hread hmax

/-- Compact block filters have no false negatives and read back, for sets
    of at most `MAX_SIZE` elements and `P < 64`: the filter built from `S`
    is taken back by the `GCSFilter(params, encoded_filter)` constructor,
    `Match` is true on every element of `S` and `MatchAny` on every set that
    meets `S`, the running sums of the decoded differences are the sorted
    hashed set, and `GolombRiceDecode` reads back every value from the code
    `GolombRiceEncode` writes. -/
theorem gcsFilter_no_false_negatives (params : GCSParams) (hP : params.m_P.toNat < 64) (S : ElementSet)
    (hS : S.elems.length ≤ MAX_SIZE) :
    ∃ f, ofElements sipHash params S = .ok f ∧ ofEncoded params f.m_encoded = .ok f ∧
      (∀ e ∈ S.elems, matchElement sipHash f e = .ok true) ∧
      (∀ Q : ElementSet, (∃ e ∈ Q.elems, e ∈ S.elems) → matchAny sipHash f Q = .ok true) ∧
      (∃ t r, readCompactSize true f.m_encoded = .ok (S.elems.length, t) ∧
        decodeValues params.m_P S.elems.length 0 (BitStreamReader.new t) = .ok (buildHashedSet sipHash f S, r)) ∧
      ∀ x : UInt64, ∃ w, golombRiceEncode (BitStreamWriter.new []) params.m_P x = .ok w ∧
        ∃ r, golombRiceDecode (BitStreamReader.new w.flush.m_ostream) params.m_P = .ok (x, r) := by
  obtain ⟨f, hf, hparams, hE⟩ := ofElements_encodes sipHash params hP S (lt_of_le_of_lt hS (by decide))
  subst hparams
  have hmax : f.m_N.toNat ≤ MAX_SIZE := hE.count ▸ hS
  obtain ⟨t, pad, hread, hbits, -⟩ := hE.stream sipHash hmax
  obtain ⟨r, hvals, -⟩ := decodeValues_bits hP hbits
  rw [length_buildHashedSet] at hvals
  rw [hE.count] at hread
  exact ⟨f, hf, ofEncoded_of_encodes sipHash hP hE hmax, fun e he => matchElement_of_mem sipHash hP hE hmax he,
    fun Q hQ => matchAny_of_inter sipHash hP hE hmax hQ, ⟨t, r, hread, hvals⟩,
    golombRiceDecode_golombRiceEncode hP⟩

/-- A set of more than `MAX_SIZE` and fewer than `2 ^ 32` elements builds a
    filter, but the `GCSFilter(params, encoded_filter)` constructor refuses
    its encoding and `Match` throws. -/
theorem ofElements_refused_of_max_size_lt (params : GCSParams) (hP : params.m_P.toNat < 64) (S : ElementSet)
    (hmax : MAX_SIZE < S.elems.length) (hN : S.elems.length < 2 ^ 32) :
    ∃ f, ofElements sipHash params S = .ok f ∧
      ofEncoded params f.m_encoded = .error "ReadCompactSize(): size too large" ∧
      ∀ e, matchElement sipHash f e = .error "ReadCompactSize(): size too large" := by
  obtain ⟨f, hf, -, hE⟩ := ofElements_encodes sipHash params hP S hN
  have hN' : MAX_SIZE < f.m_N.toNat := hE.count ▸ hmax
  refine ⟨f, hf, ?_, fun e => ?_⟩
  · rw [ofEncoded, hE.refused sipHash hN']
    rfl
  · rw [matchElement, matchInternal, hE.refused sipHash hN']
    rfl

end Hashing

/-- `n` distinct elements: the strings of `0` to `n - 1` zero bytes. -/
def zeroStrings (n : Nat) : ElementSet :=
  ⟨(List.range n).map fun i => List.replicate i 0,
    List.nodup_range.map fun i j h => by simpa using congrArg List.length h⟩

theorem length_zeroStrings (n : Nat) : (zeroStrings n).elems.length = n := by
  rw [zeroStrings, List.length_map, List.length_range]

theorem mem_zeroStrings {n i : Nat} (h : i < n) : List.replicate i 0 ∈ (zeroStrings n).elems :=
  List.mem_map.mpr ⟨i, List.mem_range.mpr h, rfl⟩

theorem gcsFilter_no_false_negatives_basic :
    let sipHash : UInt64 → UInt64 → List UInt8 → UInt64 := fun k0 k1 e => k0 + k1 + UInt64.ofNat e.length
    let params : GCSParams := ⟨0, 0, 19, 784931⟩
    params.m_P.toNat < 64 ∧ (zeroStrings 3).elems.length ≤ MAX_SIZE ∧
    ∃ f, ofElements sipHash params (zeroStrings 3) = .ok f ∧ ofEncoded params f.m_encoded = .ok f ∧
      (∀ e ∈ (zeroStrings 3).elems, matchElement sipHash f e = .ok true) ∧
      (∀ Q : ElementSet, (∃ e ∈ Q.elems, e ∈ (zeroStrings 3).elems) → matchAny sipHash f Q = .ok true) ∧
      (∃ t r, readCompactSize true f.m_encoded = .ok ((zeroStrings 3).elems.length, t) ∧
        decodeValues params.m_P (zeroStrings 3).elems.length 0 (BitStreamReader.new t) =
          .ok (buildHashedSet sipHash f (zeroStrings 3), r)) ∧
      ∀ x : UInt64, ∃ w, golombRiceEncode (BitStreamWriter.new []) params.m_P x = .ok w ∧
        ∃ r, golombRiceDecode (BitStreamReader.new w.flush.m_ostream) params.m_P = .ok (x, r) :=
  ⟨by decide, by rw [length_zeroStrings]; decide,
    gcsFilter_no_false_negatives _ _ (by decide) _ (by rw [length_zeroStrings]; decide)⟩

/-- `MAX_SIZE + 1` distinct elements, fewer than `2 ^ 32`: with the basic
    filter's parameters the filter is built, but its encoding is refused and
    `Match` throws on an element of the set. -/
theorem ofElements_refused_above_max_size :
    (zeroStrings (MAX_SIZE + 1)).elems.length < 2 ^ 32 ∧ [] ∈ (zeroStrings (MAX_SIZE + 1)).elems ∧
    ∃ f, ofElements (fun _ _ _ => 0) ⟨0, 0, 19, 784931⟩ (zeroStrings (MAX_SIZE + 1)) = .ok f ∧
      ofEncoded ⟨0, 0, 19, 784931⟩ f.m_encoded = .error "ReadCompactSize(): size too large" ∧
      matchElement (fun _ _ _ => 0) f [] = .error "ReadCompactSize(): size too large" := by
  have hlen := length_zeroStrings (MAX_SIZE + 1)
  have hbound : (zeroStrings (MAX_SIZE + 1)).elems.length < 2 ^ 32 := by
    rw [hlen]
    decide
  obtain ⟨f, hf, henc, hmatch⟩ := ofElements_refused_of_max_size_lt (fun _ _ _ => 0) ⟨0, 0, 19, 784931⟩
    (by decide) _ (by rw [hlen]; omega) hbound
  exact ⟨hbound, @mem_zeroStrings (MAX_SIZE + 1) 0 (by omega), f, hf, henc, hmatch []⟩

end GCSFilter

end Revo
