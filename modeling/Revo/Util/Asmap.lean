/-
  Revo.Util.Asmap

  The ASN map of `util/asmap`: a bit program mapping an IP address to the
  number of the autonomous system that announces it.  An instruction is a
  type (`RETURN`, `JUMP`, `MATCH`, `DEFAULT`) followed by its argument, each
  a variable-length integer read by `DecodeBits`: an exponent in unary over
  a table of bit sizes, then a mantissa of the chosen size.  `Interpret`
  follows one path through the program, steered by the bits of the address;
  `SanityCheckASMap` walks the program once, in order, keeping a stack of
  the targets of the jumps it has passed.

  An iterator into the map is the rest of the map from it on, so `pos` is a
  suffix of `asmap`, the offset `pos - begin` is `asmap.length - pos.length`
  and `endpos - pos` is `pos.length`.  The decoders' values stay below
  `2 ^ 26` and offsets below the map's size, so the `uint32_t` arithmetic
  is exact and is computed on `Nat`.  The jump stack is a list whose head is
  `jumps.back()`.  The `assert(false)` at the end of `Interpret` is `none`.
  Both loops consume at least one bit an iteration, and are defined by
  recursion on what is left of the map.
-/

import Mathlib

namespace Revo

namespace Asmap

-- ============================================================================
-- Decoding
-- ============================================================================

/-- `INVALID`: the value the decoders return at the end of the map. -/
def INVALID : Nat := 0xFFFFFFFF

/-- The mantissa loop of `DecodeBits`: `k` bits still to read, the most
    significant first. -/
def decodeMantissa : Nat → Nat → List Bool → Nat × List Bool
  | val, 0, bitpos => (val, bitpos)
  | _, _ + 1, [] => (INVALID, [])
  | val, k + 1, bit :: bitpos => decodeMantissa (val + (bit.toNat <<< k)) k bitpos

/-- `DecodeBits(bitpos, endpos, minval, bit_sizes)` from `val = minval`: the
    value, and where `bitpos` ends.  Every size but the last is taken on a
    one bit; the last is taken without reading one. -/
def decodeBits : Nat → List Nat → List Bool → Nat × List Bool
  | _, [], bitpos => (INVALID, bitpos)
  | val, [size], bitpos => decodeMantissa val size bitpos
  | _, _ :: _ :: _, [] => (INVALID, [])
  | val, size :: sizes@(_ :: _), bit :: bitpos =>
    if bit then decodeBits (val + (1 <<< size)) sizes bitpos else decodeMantissa val size bitpos

theorem decodeMantissa_suffix (val k : Nat) (bitpos : List Bool) : (decodeMantissa val k bitpos).2 <:+ bitpos := by
  induction bitpos generalizing val k with
  | nil => cases k <;> exact List.suffix_refl _
  | cons bit bitpos ih =>
    cases k with
    | zero => exact List.suffix_refl _
    | succ k => exact (ih _ k).trans (List.suffix_cons bit bitpos)

theorem decodeBits_suffix (val : Nat) (sizes : List Nat) (bitpos : List Bool) :
    (decodeBits val sizes bitpos).2 <:+ bitpos := by
  induction bitpos generalizing val sizes with
  | nil =>
    match sizes with
    | [] => exact List.suffix_refl _
    | [size] => exact decodeMantissa_suffix val size []
    | _ :: _ :: _ => exact List.suffix_refl _
  | cons bit bitpos ih =>
    match sizes with
    | [] => exact List.suffix_refl _
    | [size] => exact decodeMantissa_suffix val size _
    | size :: s :: sizes =>
      rw [decodeBits]
      split
      · exact (ih _ _).trans (List.suffix_cons bit bitpos)
      · exact (decodeMantissa_suffix val size bitpos).trans (List.suffix_cons bit bitpos)

/-- `enum class Instruction`. -/
inductive Instruction where
  | RETURN
  | JUMP
  | MATCH
  | DEFAULT
  deriving DecidableEq, Repr

/-- `Instruction(v)`: `none` for a value that is no instruction. -/
def Instruction.ofNat? : Nat → Option Instruction
  | 0 => some .RETURN
  | 1 => some .JUMP
  | 2 => some .MATCH
  | 3 => some .DEFAULT
  | _ => none

def TYPE_BIT_SIZES : List Nat := [0, 0, 1]

/-- `DecodeType`. -/
def decodeType (bitpos : List Bool) : Option Instruction × List Bool :=
  let r := decodeBits 0 TYPE_BIT_SIZES bitpos
  (Instruction.ofNat? r.1, r.2)

def ASN_BIT_SIZES : List Nat := [15, 16, 17, 18, 19, 20, 21, 22, 23, 24]

/-- `DecodeASN`. -/
def decodeASN (bitpos : List Bool) : Nat × List Bool := decodeBits 1 ASN_BIT_SIZES bitpos

def MATCH_BIT_SIZES : List Nat := [1, 2, 3, 4, 5, 6, 7, 8]

/-- `DecodeMatch`. -/
def decodeMatch (bitpos : List Bool) : Nat × List Bool := decodeBits 2 MATCH_BIT_SIZES bitpos

def JUMP_BIT_SIZES : List Nat :=
  [5, 6, 7, 8, 9, 10, 11, 12, 13, 14, 15, 16, 17, 18, 19, 20, 21, 22, 23, 24, 25, 26, 27, 28, 29, 30]

/-- `DecodeJump`. -/
def decodeJump (bitpos : List Bool) : Nat × List Bool := decodeBits 17 JUMP_BIT_SIZES bitpos

/-- The type of an instruction takes at least its first bit. -/
theorem decodeType_cons_suffix (bit : Bool) (bitpos : List Bool) : (decodeType (bit :: bitpos)).2 <:+ bitpos := by
  rw [decodeType, TYPE_BIT_SIZES, decodeBits]
  split
  · exact decodeBits_suffix _ _ bitpos
  · exact decodeMantissa_suffix 0 0 bitpos

/-- `CountBits(x)` of `crypto/common.h`: the number of bits of `x`. -/
def countBits (x : Nat) : Nat := if x = 0 then 0 else x.log2 + 1

-- ============================================================================
-- Interpret
-- ============================================================================

/-- The `for (bit = 0; bit < matchlen; bit++)` loop of the `MATCH` case, `k`
    bits of `match` still to compare: the input bits left when all of them
    match, `none` when one differs (`Interpret` then returns
    `default_asn`). -/
def matchLoop (ip : List Bool) (m : Nat) : Nat → Nat → Option Nat
  | 0, bits => some bits
  | k + 1, bits =>
    if (ip.getD (ip.length - bits) false).toNat ≠ (m >>> k) &&& 1 then none
    else matchLoop ip m k (bits - 1)

/-- The `while (pos != endpos)` loop of `Interpret`, with `bits` input bits
    left and the current `default_asn`: `some` the value returned, `none`
    for `assert(false)`. -/
def interpretLoop (ip : List Bool) (pos : List Bool) (bits default_asn : Nat) : Option Nat :=
  match pos with
  | [] => none
  | bit :: rest =>
    let opcode := decodeType (bit :: rest)
    match opcode.1 with
    | some .RETURN =>
      let asn := decodeASN opcode.2
      if asn.1 = INVALID then none else some asn.1
    | some .JUMP =>
      let jump := decodeJump opcode.2
      if jump.1 = INVALID then none
      else if bits = 0 then none
      else if jump.1 ≥ jump.2.length then none
      else if ip.getD (ip.length - bits) false then interpretLoop ip (jump.2.drop jump.1) (bits - 1) default_asn
      else interpretLoop ip jump.2 (bits - 1) default_asn
    | some .MATCH =>
      let m := decodeMatch opcode.2
      if m.1 = INVALID then none
      else
        let matchlen := countBits m.1 - 1
        if bits < matchlen then none
        else
          match matchLoop ip m.1 matchlen bits with
          | none => some default_asn
          | some bits' => interpretLoop ip m.2 bits' default_asn
    | some .DEFAULT =>
      let asn := decodeASN opcode.2
      if asn.1 = INVALID then none else interpretLoop ip asn.2 bits asn.1
    | none => none
termination_by pos.length
decreasing_by
  all_goals
    have htype := decodeType_cons_suffix bit rest
    simp only [List.length_cons]
  · exact Nat.lt_succ_of_le (((List.drop_suffix _ _).trans ((decodeBits_suffix _ _ _).trans htype)).length_le)
  · exact Nat.lt_succ_of_le (((decodeBits_suffix _ _ _).trans htype).length_le)
  · exact Nat.lt_succ_of_le (((decodeBits_suffix _ _ _).trans htype).length_le)
  · exact Nat.lt_succ_of_le (((decodeBits_suffix _ _ _).trans htype).length_le)

/-- `Interpret(asmap, ip)`: `uint8_t bits = ip.size()`. -/
def interpret (asmap ip : List Bool) : Option Nat := interpretLoop ip asmap (ip.length % 256) 0

-- ============================================================================
-- SanityCheckASMap
-- ============================================================================

/-- The variables of the `while (pos != endpos)` loop of `SanityCheckASMap`. -/
structure SanityState where
  pos : List Bool
  jumps : List (Nat × Nat)
  bits : Nat
  prevopcode : Instruction
  had_incomplete_match : Bool

/-- `!jumps.empty() && offset >= jumps.back().first`. -/
def pastNextJump (jumps : List (Nat × Nat)) (offset : Nat) : Bool :=
  match jumps with
  | [] => false
  | (target, _) :: _ => decide (offset ≥ target)

/-- One pass of the loop of `SanityCheckASMap`: `.inl` what it returns,
    or `.inr` the variables for the next pass. -/
def sanityStep (asmap : List Bool) (s : SanityState) : Bool ⊕ SanityState :=
  -- a jump into the middle of the previous instruction
  if pastNextJump s.jumps (asmap.length - s.pos.length) then .inl false
  else
    let opcode := decodeType s.pos
    match opcode.1 with
    | some .RETURN =>
      if s.prevopcode = .DEFAULT then .inl false
      else
        let asn := decodeASN opcode.2
        if asn.1 = INVALID then .inl false
        else
          match s.jumps with
          | [] =>
            -- excessive or nonzero padding
            if asn.2.length > 7 then .inl false else .inl (asn.2.all (!·))
          | (target, bits) :: jumps =>
            -- unreachable code, or continue as if the next jump were taken
            if asmap.length - asn.2.length ≠ target then .inl false
            else .inr { s with pos := asn.2, jumps := jumps, bits := bits, prevopcode := .JUMP }
    | some .JUMP =>
      let jump := decodeJump opcode.2
      if jump.1 = INVALID then .inl false
      else if jump.1 > jump.2.length then .inl false
      else if s.bits = 0 then .inl false
      else
        let jump_offset := asmap.length - jump.2.length + jump.1
        -- intersecting jumps
        if pastNextJump s.jumps jump_offset then .inl false
        else
          .inr { s with pos := jump.2, jumps := (jump_offset, s.bits - 1) :: s.jumps, bits := s.bits - 1,
                        prevopcode := .JUMP }
    | some .MATCH =>
      let m := decodeMatch opcode.2
      if m.1 = INVALID then .inl false
      else
        let matchlen := countBits m.1 - 1
        let had_incomplete_match := if s.prevopcode ≠ .MATCH then false else s.had_incomplete_match
        if matchlen < 8 ∧ had_incomplete_match = true then .inl false
        else if s.bits < matchlen then .inl false
        else
          .inr { pos := m.2, jumps := s.jumps, bits := s.bits - matchlen, prevopcode := .MATCH,
                 had_incomplete_match := decide (matchlen < 8) }
    | some .DEFAULT =>
      if s.prevopcode = .DEFAULT then .inl false
      else
        let asn := decodeASN opcode.2
        if asn.1 = INVALID then .inl false
        else .inr { s with pos := asn.2, prevopcode := .DEFAULT }
    | none => .inl false

/-- A pass that goes on leaves less of the map, all of it after what the
    pass read. -/
theorem sanityStep_suffix {asmap : List Bool} {s s' : SanityState} (h : sanityStep asmap s = .inr s') :
    ∃ bit rest, s.pos = bit :: rest ∧ s'.pos <:+ rest := by
  rcases hpos : s.pos with _ | ⟨bit, rest⟩
  · -- at the end of the map there is no instruction to read
    have hnone : (decodeType s.pos).1 = none := by rw [hpos]; rfl
    revert h
    simp only [sanityStep, hnone]
    split <;> simp
  · refine ⟨bit, rest, rfl, ?_⟩
    have htype := decodeType_cons_suffix bit rest
    rw [← hpos] at htype
    simp only [sanityStep] at h
    repeat' split at h
    all_goals first
      | (cases h; exact (decodeBits_suffix _ _ _).trans htype)
      | cases h

/-- `SanityCheckASMap`'s `while (pos != endpos)` loop. -/
def sanityLoop (asmap : List Bool) (s : SanityState) : Bool :=
  match s.pos with
  | [] => false
  | _ :: _ =>
    match _hstep : sanityStep asmap s with
    | .inl r => r
    | .inr s' => sanityLoop asmap s'
termination_by s.pos.length
decreasing_by
  obtain ⟨bit, rest, hpos, hsuf⟩ := sanityStep_suffix _hstep
  rw [hpos, List.length_cons]
  exact Nat.lt_succ_of_le hsuf.length_le

/-- `SanityCheckASMap(asmap, bits)`. -/
def sanityCheckASMap (asmap : List Bool) (bits : Nat) : Bool :=
  sanityLoop asmap { pos := asmap, jumps := [], bits := bits, prevopcode := .JUMP, had_incomplete_match := false }

end Asmap

end Revo
