/-
  Revo.Script.ScriptNum

  `CScriptNum` (`script/script.h`): script numbers are little-endian, with
  the top bit of the last byte as sign.  The contract outputs carry their
  gas limit, gas price and VM version as such numbers, and the converter
  reads them with `vch_to_uint64`, which accepts at most eight bytes and
  throws on a set sign bit: every value it returns is below `2 ^ 63`.
-/

import Revo.Script.Script

namespace Revo

namespace CScriptNum

/-- `CScriptNum::vch_to_uint64`; `none` is a thrown `scriptnum_error`.  The
    loop ORs byte `i` in at bit `8 * i`; the bytes do not overlap, so the
    result is their little-endian value. -/
def vchToUint64 (vch : Valtype) : Option Nat :=
  if vch.length > 8 then none
  else match vch.getLast? with
    | none => some 0
    | some b => if b &&& 0x80 ≠ 0 then none else some (leNat vch)

/-- A byte has its top bit clear exactly when it is below `0x80`. -/
theorem and_0x80_eq_zero_iff (b : UInt8) : b &&& 0x80 = 0 ↔ b.toNat < 128 := by
  -- the statement is about the 256 bytes only, so the kernel checks them all
  have hall : ∀ x : Fin 256, (UInt8.ofNat x.val &&& 0x80 = 0 ↔ x.val < 128) := by decide +kernel
  have := hall ⟨b.toNat, b.toNat_lt⟩
  rwa [UInt8.ofNat_toNat] at this

/-- What `vch_to_uint64` returns fits in an `int64_t`. -/
theorem vchToUint64_lt {vch : Valtype} {n : Nat} (h : vchToUint64 vch = some n) : n < 2 ^ 63 := by
  unfold vchToUint64 at h
  by_cases hlen : vch.length > 8
  · rw [if_pos hlen] at h
    cases h
  rw [if_neg hlen] at h
  -- split off the last byte, whose top bit is clear
  rcases List.eq_nil_or_concat vch with rfl | ⟨init, b, rfl⟩
  · simp only [List.getLast?_nil, Option.some.injEq] at h
    rw [← h]
    decide
  rw [List.concat_eq_append] at h hlen
  simp only [List.getLast?_concat] at h
  by_cases hb : b &&& 0x80 ≠ 0
  · rw [if_pos hb] at h
    cases h
  rw [if_neg hb] at h
  cases h
  have hb' := (and_0x80_eq_zero_iff b).mp (not_not.mp hb)
  have hinit := leNat_lt init
  have hlen' : init.length ≤ 7 := by
    rw [List.length_append, List.length_singleton] at hlen
    omega
  have hpow : 256 ^ init.length ≤ 256 ^ 7 := Nat.pow_le_pow_right (by decide) hlen'
  rw [leNat_append, leNat, leNat, Nat.mul_zero, Nat.add_zero]
  -- `init` and the last byte stand below `256 ^ |init|` and `128 * 256 ^ |init|`
  calc leNat init + 256 ^ init.length * b.toNat
      < 256 ^ init.length + 256 ^ init.length * 127 := by
        have := Nat.mul_le_mul_left (256 ^ init.length) (Nat.le_of_lt_succ hb')
        omega
    _ = 256 ^ init.length * 128 := by omega
    _ ≤ 256 ^ 7 * 128 := Nat.mul_le_mul_right 128 hpow
    _ = 2 ^ 63 := by decide

/-! ## `serialize` -/

/-- The loop of `serialize`: the bytes of `n`, least significant first, until
    nothing is left; a `uint64_t` has at most `fuel = 8` of them. -/
def minimalLE : Nat → Nat → List UInt8
  | 0, _ => []
  | fuel + 1, n => if n = 0 then [] else UInt8.ofNat (n % 256) :: minimalLE fuel (n / 256)

/-- `CScriptNum::serialize`: the magnitude in little-endian bytes, the sign in
    the top bit of the last byte, which gets a byte of its own when the
    magnitude already uses that bit. -/
def serialize (value : Int) : Valtype :=
  if value = 0 then [] else
  match (minimalLE 8 value.natAbs).getLast? with
  | none => minimalLE 8 value.natAbs
  | some b =>
    if b &&& 0x80 ≠ 0 then minimalLE 8 value.natAbs ++ [if value < 0 then 0x80 else 0]
    else if value < 0 then (minimalLE 8 value.natAbs).dropLast ++ [b ||| 0x80]
    else minimalLE 8 value.natAbs

/-- `CScriptNum::set_vch`: the little-endian value, negated when the top bit
    of the last byte is set, with that bit cleared. -/
def setVch (vch : Valtype) : Int :=
  match vch.getLast? with
  | none => 0
  | some last =>
    -- `result & ~(0x80ULL << (8 * (vch.size() - 1)))` clears the top bit of the last byte
    if last &&& 0x80 ≠ 0 then -(leNat (vch.dropLast ++ [last &&& 0x7f]) : Int)
    else (leNat vch : Int)

/-- `CScriptNum(vch, fRequireMinimal, nMaxNumSize)`; an error is a thrown
    `scriptnum_error`.  With `fRequireMinimal` a last byte that is zero but
    for the sign bit is refused unless the byte before it has its top bit
    set. -/
def ofVch (vch : Valtype) (fRequireMinimal : Bool) (nMaxNumSize : Nat) : Except String Int :=
  if vch.length > nMaxNumSize then .error "script number overflow"
  else if fRequireMinimal = true ∧ vch.length > 0 ∧ vch.getLast?.getD 0 &&& 0x7f = 0 ∧
      (vch.length ≤ 1 ∨ vch.getD (vch.length - 2) 0 &&& 0x80 = 0) then
    .error "non-minimally encoded script number"
  else .ok (setVch vch)

theorem leNat_minimalLE {fuel n : Nat} (h : n < 256 ^ fuel) : leNat (minimalLE fuel n) = n := by
  induction fuel generalizing n with
  | zero =>
    rw [Nat.pow_zero] at h
    rw [minimalLE, leNat]
    omega
  | succ fuel ih =>
    by_cases hn : n = 0
    · rw [minimalLE, if_pos hn, leNat, hn]
    rw [minimalLE, if_neg hn, leNat, ih (by rw [Nat.pow_succ] at h; omega), UInt8.toNat_ofNat',
      Nat.mod_mod_of_dvd _ (by decide)]
    omega

/-- `n` takes at most `k` bytes when it is below `256 ^ k`. -/
theorem minimalLE_length_le {fuel n k : Nat} (h : n < 256 ^ k) : (minimalLE fuel n).length ≤ k := by
  induction fuel generalizing n k with
  | zero => exact Nat.zero_le _
  | succ fuel ih =>
    by_cases hn : n = 0
    · rw [minimalLE, if_pos hn]
      exact Nat.zero_le _
    rw [minimalLE, if_neg hn, List.length_cons]
    cases k with
    | zero => omega
    | succ k =>
      have := @ih (n / 256) k (by rw [Nat.pow_succ] at h; omega)
      omega

theorem minimalLE_length_le_fuel (fuel n : Nat) : (minimalLE fuel n).length ≤ fuel := by
  induction fuel generalizing n with
  | zero => exact Nat.le_refl 0
  | succ fuel ih =>
    unfold minimalLE
    split
    · exact Nat.zero_le _
    · rw [List.length_cons]
      exact Nat.succ_le_succ (ih _)

/-- The last byte of `n`'s bytes weighs `256 ^ (length - 1)`. -/
theorem last_le_of_minimalLE {fuel n : Nat} {xs : List UInt8} {b : UInt8}
    (hn : n < 256 ^ fuel) (h : minimalLE fuel n = xs ++ [b]) : 256 ^ xs.length * b.toNat ≤ n := by
  have hval := leNat_minimalLE hn
  rw [h, leNat_append, leNat, leNat, Nat.mul_zero, Nat.add_zero] at hval
  omega

/-- A non-negative number below `128 * 256 ^ k` serializes to at most `k + 1`
    bytes, little-endian, with the sign bit of the last byte clear. -/
theorem serialize_natCast (v k : Nat) (hk : k ≤ 7) (hv : v < 128 * 256 ^ k) :
    (serialize v).length ≤ k + 1 ∧ leNat (serialize v) = v ∧
      ∀ b, (serialize v).getLast? = some b → b.toNat < 128 := by
  by_cases h0 : v = 0
  · subst h0
    refine ⟨Nat.zero_le _, rfl, fun b hb => ?_⟩
    cases hb
  have hpow : 128 * 256 ^ k ≤ 256 ^ 8 := by
    have := Nat.pow_le_pow_right (show 0 < 256 by decide) hk
    have h8 : 256 ^ 8 = 256 * 256 ^ 7 := by rw [Nat.pow_succ, Nat.mul_comm]
    omega
  have hval : leNat (minimalLE 8 v) = v := leNat_minimalLE (by omega)
  have hne : minimalLE 8 v ≠ [] := by
    rw [minimalLE, if_neg h0]
    exact List.cons_ne_nil _ _
  obtain ⟨xs, b, hxs⟩ := (List.eq_nil_or_concat (minimalLE 8 v)).resolve_left hne
  rw [List.concat_eq_append] at hxs
  have hlast := last_le_of_minimalLE (by omega) hxs
  have hser : serialize v = if b &&& 0x80 ≠ 0 then minimalLE 8 v ++ [0] else minimalLE 8 v := by
    have hneg : ¬ ((v : Int) < 0) := Int.not_lt.mpr (Int.natCast_nonneg v)
    rw [serialize, if_neg (by omega), Int.natAbs_natCast, hxs, List.getLast?_concat]
    dsimp only
    by_cases hb : b &&& 0x80 ≠ 0
    · rw [if_pos hb, if_pos hb, if_neg hneg]
    · rw [if_neg hb, if_neg hb, if_neg hneg]
  by_cases hb : b &&& 0x80 ≠ 0
  case pos =>
    -- the top bit is taken: a zero byte is appended, and it still fits
    have hb128 : 128 ≤ b.toNat := Nat.not_lt.mp (fun h => hb ((and_0x80_eq_zero_iff b).mpr h))
    have hlen : xs.length < k := by
      have : 256 ^ xs.length * 128 < 256 ^ k * 128 := by
        have := Nat.mul_le_mul_left (256 ^ xs.length) hb128
        omega
      exact (Nat.pow_lt_pow_iff_right (by decide)).mp (Nat.lt_of_mul_lt_mul_right this)
    rw [hser, if_pos hb, hxs]
    refine ⟨?_, ?_, fun c hc => ?_⟩
    · rw [List.length_append, List.length_append, List.length_singleton, List.length_singleton]
      omega
    · rw [leNat_append, ← hxs, hval, leNat, leNat]
      rfl
    · rw [List.getLast?_concat] at hc
      cases hc
      decide
  case neg =>
    rw [hser, if_neg hb]
    refine ⟨minimalLE_length_le (by rw [Nat.pow_succ]; omega), hval, fun c hc => ?_⟩
    rw [hxs, List.getLast?_concat] at hc
    cases hc
    exact (and_0x80_eq_zero_iff _).mp (not_not.mp hb)

/-- `vch_to_uint64` reads back what `serialize` wrote, for every `int64_t` that
    is not negative. -/
theorem vchToUint64_serialize (v : Nat) (hv : v < 2 ^ 63) :
    vchToUint64 (serialize v) = some v := by
  obtain ⟨hlen, hval, hlast⟩ := serialize_natCast v 7 (Nat.le_refl 7) (by omega)
  unfold vchToUint64
  rw [if_neg (by omega)]
  cases h : (serialize v).getLast? with
  | none =>
    rw [List.getLast?_eq_none_iff] at h
    rw [← hval, h]
    rfl
  | some b =>
    have hb := hlast b h
    dsimp only
    rw [if_neg (fun hne => hne ((and_0x80_eq_zero_iff b).mpr hb)), hval]

end CScriptNum

end Revo
