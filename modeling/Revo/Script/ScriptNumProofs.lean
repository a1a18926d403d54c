/-
  Revo.Script.ScriptNumProofs

  Script numbers and pushes read back what was written.

    * `MinimalNum v x` says that `v` is the shortest script-number encoding
      of `x`, an `int64_t` other than `INT64_MIN`.  Its five forms are the
      ways `serialize` can end: no bytes for `0`; a last byte whose top bit
      is free and carries the sign; or, when the magnitude needs that bit,
      a byte `0x00` or `0x80` after it.  `CScriptNum(vch, true, 8)` accepts
      exactly these (`ofVch_of_minimalNum`, `minimalNum_of_ofVch`) and
      `serialize` writes exactly these (`minimalNum_serialize`,
      `serialize_of_minimalNum`).
    * `script << b` is read back by `GetScriptOp` as one push of `b`, and
      `CheckMinimalPush` accepts it unless `b` is a byte a small-number
      opcode pushes.
-/

import Revo.Lib.Bits
import Revo.Script.Interpreter

namespace Revo

namespace CScriptNum

/-! ## Bytes of the magnitude -/

theorem byte_ne_zero_iff (c : UInt8) : c ≠ 0 ↔ c.toNat ≠ 0 :=
  not_congr (UInt8.toNat_inj.symm.trans (by rfl))

theorem leNat_concat_pos (u : List UInt8) {c : UInt8} (hc : c ≠ 0) : 0 < leNat (u ++ [c]) := by
  have hc' := (byte_ne_zero_iff c).mp hc
  have hpow : 0 < 256 ^ u.length := Nat.pow_pos (by decide)
  rw [leNat_append, leNat, leNat, Nat.mul_zero, Nat.add_zero]
  exact Nat.lt_of_lt_of_le (Nat.mul_pos hpow (Nat.pos_of_ne_zero hc')) (Nat.le_add_left _ _)

/-- A trailing zero byte adds nothing. -/
theorem leNat_append_zero (u : List UInt8) : leNat (u ++ [0]) = leNat u := by
  rw [leNat_append, leNat, leNat]
  rfl

theorem minimalLE_zero (fuel : Nat) : minimalLE fuel 0 = [] := by
  cases fuel <;> rfl

theorem minimalLE_cons (fuel : Nat) (b : UInt8) (n : Nat) (h : b.toNat + 256 * n ≠ 0) :
    minimalLE (fuel + 1) (b.toNat + 256 * n) = b :: minimalLE fuel n := by
  have hb := b.toNat_lt
  rw [minimalLE, if_neg h, show (b.toNat + 256 * n) % 256 = b.toNat by omega,
    show (b.toNat + 256 * n) / 256 = n by omega, UInt8.ofNat_toNat]

/-- Bytes whose last one is not zero are the bytes of their value. -/
theorem minimalLE_leNat {fuel : Nat} (u : List UInt8) {c : UInt8} (hc : c ≠ 0)
    (hlen : u.length < fuel) : minimalLE fuel (leNat (u ++ [c])) = u ++ [c] := by
  obtain ⟨f, rfl⟩ : ∃ f, fuel = f + 1 := ⟨fuel - 1, by omega⟩
  induction u generalizing f with
  | nil =>
    have hc' := (byte_ne_zero_iff c).mp hc
    show minimalLE (f + 1) (c.toNat + 256 * leNat []) = [c]
    rw [minimalLE_cons f c _ (by omega), leNat, minimalLE_zero]
  | cons b u ih =>
    have hpos := leNat_concat_pos u hc
    rw [List.length_cons] at hlen
    obtain ⟨g, rfl⟩ : ∃ g, f = g + 1 := ⟨f - 1, by omega⟩
    rw [List.cons_append, leNat, minimalLE_cons _ b _ (by omega), ih g (by omega)]

/-- The bytes of a non-zero value end in a byte that is not zero. -/
theorem minimalLE_eq_concat {fuel m : Nat} (hm : m < 256 ^ fuel) (h0 : m ≠ 0) :
    ∃ u c, c ≠ 0 ∧ minimalLE fuel m = u ++ [c] := by
  induction fuel generalizing m with
  | zero =>
    rw [Nat.pow_zero] at hm
    omega
  | succ f ih =>
    have hlow : (UInt8.ofNat (m % 256)).toNat = m % 256 := by
      rw [UInt8.toNat_ofNat']
      omega
    rw [minimalLE, if_neg h0]
    by_cases hhigh : m / 256 = 0
    · -- one byte: the value itself
      refine ⟨[], UInt8.ofNat (m % 256), (byte_ne_zero_iff _).mpr (by omega), ?_⟩
      rw [hhigh, minimalLE_zero]
      rfl
    · obtain ⟨u, c, hc, hu⟩ := @ih (m / 256) (by rw [Nat.pow_succ] at hm; omega) hhigh
      exact ⟨UInt8.ofNat (m % 256) :: u, c, hc, by rw [hu, List.cons_append]⟩

/-! ## The sign byte -/

theorem and_0x80_of_lt {c : UInt8} (h : c.toNat < 128) : c &&& 0x80 = 0 :=
  (and_0x80_eq_zero_iff c).mpr h

theorem and_0x80_ne_of_le {c : UInt8} (h : 128 ≤ c.toNat) : c &&& 0x80 ≠ 0 :=
  fun h0 => Nat.not_lt.mpr h ((and_0x80_eq_zero_iff c).mp h0)

/-- A byte with the sign bit set, read without it. -/
theorem or_0x80_and_0x7f {c : UInt8} (h : c.toNat < 128) : (c ||| 0x80) &&& 0x7f = c := by
  apply UInt8.toNat_inj.mp
  rw [Bits.byte_and_0x7f, Bits.byte_or_0x80 h]
  omega

/-- A byte whose sign bit is set is its low bits with the sign bit set. -/
theorem and_0x7f_or_0x80 {c : UInt8} (h : 128 ≤ c.toNat) : (c &&& 0x7f) ||| 0x80 = c := by
  have hc := c.toNat_lt
  have hlow : (c &&& 0x7f).toNat < 128 := by
    rw [Bits.byte_and_0x7f]
    omega
  apply UInt8.toNat_inj.mp
  rw [Bits.byte_or_0x80 hlow, Bits.byte_and_0x7f]
  omega

/-! ## `serialize` and `set_vch` on the last byte -/

/-- `serialize` decided by the last byte of the magnitude. -/
theorem serialize_eq {value : Int} (h0 : value ≠ 0) {u : List UInt8} {c : UInt8}
    (h : minimalLE 8 value.natAbs = u ++ [c]) :
    serialize value =
      if c &&& 0x80 ≠ 0 then u ++ [c, if value < 0 then 0x80 else 0]
      else if value < 0 then u ++ [c ||| 0x80] else u ++ [c] := by
  rw [serialize, if_neg h0, h, List.getLast?_concat]
  dsimp only
  by_cases hc : c &&& 0x80 ≠ 0
  · rw [if_pos hc, if_pos hc, List.append_assoc, List.singleton_append]
  · rw [if_neg hc, if_neg hc, List.dropLast_concat]

theorem setVch_concat (u : List UInt8) (c : UInt8) :
    setVch (u ++ [c]) =
      if c &&& 0x80 ≠ 0 then -(leNat (u ++ [c &&& 0x7f]) : Int) else (leNat (u ++ [c]) : Int) := by
  rw [setVch, List.getLast?_concat]
  dsimp only
  rw [List.dropLast_concat]

/-! ## Minimal encodings -/

/-- `v` is the shortest script-number encoding of `x`, an `int64_t` other
    than `INT64_MIN`. -/
inductive MinimalNum : Valtype → Int → Prop
  | zero : MinimalNum [] 0
  | pos (u : List UInt8) (c : UInt8) (hc : c ≠ 0) (htop : c.toNat < 128) (hlen : u.length < 8) :
      MinimalNum (u ++ [c]) (leNat (u ++ [c]))
  | neg (u : List UInt8) (c : UInt8) (hc : c ≠ 0) (htop : c.toNat < 128) (hlen : u.length < 8) :
      MinimalNum (u ++ [c ||| 0x80]) (-(leNat (u ++ [c]) : Int))
  | posPad (u : List UInt8) (c : UInt8) (htop : 128 ≤ c.toNat) (hlen : u.length < 7) :
      MinimalNum (u ++ [c, 0x00]) (leNat (u ++ [c]))
  | negPad (u : List UInt8) (c : UInt8) (htop : 128 ≤ c.toNat) (hlen : u.length < 7) :
      MinimalNum (u ++ [c, 0x80]) (-(leNat (u ++ [c]) : Int))

/-- The constructor reads every vector of at most eight bytes that passes
    the minimal-encoding check with `set_vch`. -/
theorem ofVch_eq_setVch {v : Valtype} (hlen : v.length ≤ 8)
    (hmin : ¬(v.length > 0 ∧ v.getLast?.getD 0 &&& 0x7f = 0 ∧
      (v.length ≤ 1 ∨ v.getD (v.length - 2) 0 &&& 0x80 = 0))) :
    ofVch v true 8 = .ok (setVch v) := by
  rw [ofVch, if_neg (by omega), if_neg (fun h => hmin h.2)]

theorem ofVch_of_minimalNum {v : Valtype} {x : Int} (h : MinimalNum v x) : ofVch v true 8 = .ok x := by
  cases h with
  | zero => rfl
  | pos u c hc htop hlen =>
    -- the last byte is not zero without its sign bit
    have hlow : c &&& 0x7f ≠ 0 := by
      rw [byte_ne_zero_iff, Bits.byte_and_0x7f]
      have := (byte_ne_zero_iff c).mp hc
      omega
    rw [ofVch_eq_setVch (by simp only [List.length_append, List.length_singleton]; omega)
      (by rw [List.getLast?_concat]; exact fun h => hlow h.2.1), setVch_concat, if_neg (not_not.mpr (and_0x80_of_lt htop))]
  | neg u c hc htop hlen =>
    have hlow : (c ||| 0x80) &&& 0x7f ≠ 0 := by
      rw [or_0x80_and_0x7f htop]
      exact hc
    have hsign : (c ||| 0x80) &&& 0x80 ≠ 0 := and_0x80_ne_of_le (by rw [Bits.byte_or_0x80 htop]; omega)
    rw [ofVch_eq_setVch (by simp only [List.length_append, List.length_singleton]; omega)
      (by rw [List.getLast?_concat]; exact fun h => hlow h.2.1), setVch_concat, if_pos hsign,
      or_0x80_and_0x7f htop]
  | posPad u c htop hlen =>
    -- the padding byte is allowed: the byte before it has its top bit set
    have hprev : (u ++ [c, 0x00]).getD ((u ++ [c, 0x00]).length - 2) 0 = c := by
      simp
    rw [ofVch_eq_setVch (by simp only [List.length_append, List.length_cons, List.length_nil]; omega)
      (by rw [hprev]; exact fun h => (h.2.2.resolve_left (by simp)) |> and_0x80_ne_of_le htop),
      ← List.singleton_append, ← List.append_assoc, setVch_concat, if_neg (by decide),
      leNat_append_zero]
  | negPad u c htop hlen =>
    have hprev : (u ++ [c, 0x80]).getD ((u ++ [c, 0x80]).length - 2) 0 = c := by
      simp
    rw [ofVch_eq_setVch (by simp only [List.length_append, List.length_cons, List.length_nil]; omega)
      (by rw [hprev]; exact fun h => (h.2.2.resolve_left (by simp)) |> and_0x80_ne_of_le htop),
      ← List.singleton_append, ← List.append_assoc, setVch_concat, if_pos (by decide),
      show (0x80 : UInt8) &&& 0x7f = 0 by decide, leNat_append_zero]

/-- What the constructor accepts with `fRequireMinimal` and eight bytes is
    a minimal encoding.  The cases are on the last byte: without its sign
    bit it is either not zero, or zero after a byte whose top bit is set. -/
theorem minimalNum_of_ofVch {v : Valtype} {x : Int} (h : ofVch v true 8 = .ok x) : MinimalNum v x := by
  unfold ofVch at h
  by_cases hlen : v.length > 8
  · rw [if_pos hlen] at h
    cases h
  rw [if_neg hlen] at h
  by_cases hmin : true = true ∧ v.length > 0 ∧ v.getLast?.getD 0 &&& 0x7f = 0 ∧
      (v.length ≤ 1 ∨ v.getD (v.length - 2) 0 &&& 0x80 = 0)
  · rw [if_pos hmin] at h
    cases h
  rw [if_neg hmin] at h
  cases h
  rcases List.eq_nil_or_concat v with rfl | ⟨u, last, rfl⟩
  · exact MinimalNum.zero
  rw [List.concat_eq_append] at hlen hmin ⊢
  rw [List.length_append, List.length_singleton] at hlen
  have hl := last.toNat_lt
  have hgetLast : (u ++ [last]).getLast?.getD 0 = last := by
    rw [List.getLast?_concat]
    rfl
  rw [setVch_concat]
  by_cases hlow : last &&& 0x7f = 0
  · -- a padding byte: the byte before it carries the top bit of the magnitude
    rcases List.eq_nil_or_concat u with rfl | ⟨u', c, rfl⟩
    · exact absurd ⟨rfl, by simp, by rw [hgetLast]; exact hlow, Or.inl (by simp)⟩ hmin
    rw [List.concat_eq_append] at hlen hgetLast hmin ⊢
    rw [List.length_append, List.length_singleton] at hlen
    have hprev : (u' ++ [c] ++ [last]).getD ((u' ++ [c] ++ [last]).length - 2) 0 = c := by simp
    have htop : 128 ≤ c.toNat := by
      by_contra hlt
      exact hmin ⟨rfl, by simp, by rw [hgetLast]; exact hlow,
        Or.inr (by rw [hprev]; exact and_0x80_of_lt (Nat.lt_of_not_le hlt))⟩
    -- the last byte is `0x00` or `0x80`
    have hlast : last = 0x00 ∨ last = 0x80 := by
      have h7 := congrArg UInt8.toNat hlow
      rw [Bits.byte_and_0x7f] at h7
      have h7' : last.toNat % 128 = 0 := h7
      rcases (show last.toNat = 0 ∨ last.toNat = 128 by omega) with h0 | h128
      · exact Or.inl (UInt8.toNat_inj.mp h0)
      · exact Or.inr (UInt8.toNat_inj.mp h128)
    rcases hlast with rfl | rfl
    · rw [if_neg (by decide), leNat_append_zero, List.append_assoc, List.singleton_append]
      exact MinimalNum.posPad u' c htop (by omega)
    · rw [if_pos (by decide), show (0x80 : UInt8) &&& 0x7f = 0 by decide, leNat_append_zero,
        List.append_assoc, List.singleton_append]
      exact MinimalNum.negPad u' c htop (by omega)
  · by_cases hsign : last &&& 0x80 ≠ 0
    · -- a negative number: the last byte is its low bits with the sign bit set
      have htop : 128 ≤ last.toNat := by
        by_contra hlt
        exact hsign (and_0x80_of_lt (Nat.lt_of_not_le hlt))
      have hlow' : (last &&& 0x7f).toNat < 128 := by
        rw [Bits.byte_and_0x7f]
        omega
      rw [if_pos hsign]
      conv => lhs; rw [← and_0x7f_or_0x80 htop]
      exact MinimalNum.neg u (last &&& 0x7f) hlow hlow' (by omega)
    · rw [if_neg hsign]
      have htop : last.toNat < 128 := (and_0x80_eq_zero_iff last).mp (not_not.mp hsign)
      have hne : last ≠ 0 := fun h0 => hlow (by rw [h0]; rfl)
      exact MinimalNum.pos u last hne htop (by omega)

/-- `serialize` writes every minimal encoding of its value. -/
theorem serialize_of_minimalNum {v : Valtype} {x : Int} (h : MinimalNum v x) : serialize x = v := by
  cases h with
  | zero => rfl
  | pos u c hc htop hlen =>
    have hpos := leNat_concat_pos u hc
    rw [serialize_eq (by omega) (by rw [Int.natAbs_natCast]; exact minimalLE_leNat u hc hlen),
      if_neg (not_not.mpr (and_0x80_of_lt htop)), if_neg (by omega)]
  | neg u c hc htop hlen =>
    have hpos := leNat_concat_pos u hc
    rw [serialize_eq (by omega) (by rw [Int.natAbs_neg, Int.natAbs_natCast]; exact minimalLE_leNat u hc hlen),
      if_neg (not_not.mpr (and_0x80_of_lt htop)), if_pos (by omega)]
  | posPad u c htop hlen =>
    have hc : c ≠ 0 := fun h0 => by rw [h0] at htop; exact absurd htop (by decide)
    have hpos := leNat_concat_pos u hc
    rw [serialize_eq (by omega) (by rw [Int.natAbs_natCast]; exact minimalLE_leNat u hc (by omega)),
      if_pos (and_0x80_ne_of_le htop), if_neg (by omega)]
  | negPad u c htop hlen =>
    have hc : c ≠ 0 := fun h0 => by rw [h0] at htop; exact absurd htop (by decide)
    have hpos := leNat_concat_pos u hc
    rw [serialize_eq (by omega) (by rw [Int.natAbs_neg, Int.natAbs_natCast]; exact minimalLE_leNat u hc (by omega)),
      if_pos (and_0x80_ne_of_le htop), if_pos (by omega)]

/-- `serialize` of an `int64_t` other than `INT64_MIN` is a minimal
    encoding of it. -/
theorem minimalNum_serialize {n : Int} (hlo : -2 ^ 63 < n) (hhi : n < 2 ^ 63) :
    MinimalNum (serialize n) n := by
  by_cases h0 : n = 0
  · rw [h0]
    exact MinimalNum.zero
  have hm : n.natAbs < 256 ^ 8 := by omega
  obtain ⟨u, c, hc, hu⟩ := minimalLE_eq_concat hm (by omega)
  have hval : leNat (u ++ [c]) = n.natAbs := by
    rw [← hu]
    exact leNat_minimalLE hm
  have hlen : u.length < 8 := by
    have := minimalLE_length_le_fuel 8 n.natAbs
    rw [hu, List.length_append, List.length_singleton] at this
    omega
  rw [serialize_eq h0 hu]
  by_cases htop : c.toNat < 128
  · rw [if_neg (not_not.mpr (and_0x80_of_lt htop))]
    by_cases hneg : n < 0
    · rw [if_pos hneg]
      have hx : n = -(leNat (u ++ [c]) : Int) := by omega
      conv => rhs; rw [hx]
      exact MinimalNum.neg u c hc htop hlen
    · rw [if_neg hneg]
      have hx : n = (leNat (u ++ [c]) : Int) := by omega
      conv => rhs; rw [hx]
      exact MinimalNum.pos u c hc htop hlen
  · -- the top bit of the magnitude is taken, so it is below `256 ^ 7` bytes long
    have htop' : 128 ≤ c.toNat := Nat.le_of_not_lt htop
    have hlen7 : u.length < 7 := by
      have hlast := last_le_of_minimalLE hm hu
      have hpow : 256 ^ u.length * 128 < 256 ^ 7 * 128 := by
        have := Nat.mul_le_mul_left (256 ^ u.length) htop'
        omega
      exact (Nat.pow_lt_pow_iff_right (by decide)).mp (Nat.lt_of_mul_lt_mul_right hpow)
    rw [if_pos (and_0x80_ne_of_le htop')]
    by_cases hneg : n < 0
    · rw [if_pos hneg]
      have hx : n = -(leNat (u ++ [c]) : Int) := by omega
      conv => rhs; rw [hx]
      exact MinimalNum.negPad u c htop' hlen7
    · rw [if_neg hneg]
      have hx : n = (leNat (u ++ [c]) : Int) := by omega
      conv => rhs; rw [hx]
      exact MinimalNum.posPad u c htop' hlen7

theorem setVch_of_ofVch {v : Valtype} {fRequireMinimal : Bool} {nMaxNumSize : Nat} {x : Int}
    (h : ofVch v fRequireMinimal nMaxNumSize = .ok x) : x = setVch v := by
  unfold ofVch at h
  split at h
  · cases h
  split at h
  · cases h
  cases h
  rfl

end CScriptNum

/-! ## Pushes -/

/-- `GetScriptOp` returns the opcode it read first. -/
theorem getOp_fst {o : Opcode} {r rest : List UInt8} {op : Opcode} {vch : Valtype}
    (h : getOp (o :: r) = some (op, vch, rest)) : op = o := by
  rw [getOp] at h
  by_cases ho : o ≤ OP_PUSHDATA4
  · rw [if_pos ho] at h
    cases hp : pushSize o r with
    | none =>
      rw [hp] at h
      cases h
    | some p =>
      obtain ⟨n, r'⟩ := p
      rw [hp] at h
      dsimp only [Option.bind] at h
      by_cases hn : r'.length < n
      · rw [if_pos hn] at h
        cases h
      · rw [if_neg hn] at h
        cases h
        rfl
  · rw [if_neg ho] at h
    cases h
    rfl

theorem pushPrefix_cons (b : Valtype) : ∃ op tail, CScript.pushPrefix b = op :: tail := by
  unfold CScript.pushPrefix
  split
  · exact ⟨_, _, rfl⟩
  split
  · exact ⟨_, _, rfl⟩
  split
  · exact ⟨_, _, rfl⟩
  · exact ⟨_, _, rfl⟩

/-- A one-byte push of what `OP_1` to `OP_16` or `OP_1NEGATE` push is not
    minimal, whichever push opcode made it. -/
theorem checkMinimalPush_small {b : Valtype} {op : Opcode} (hop : op ≤ OP_PUSHDATA4)
    (hsmall : b.length = 1 ∧ (1 ≤ b.getD 0 0 ∧ b.getD 0 0 ≤ 16 ∨ b.getD 0 0 = 0x81)) :
    checkMinimalPush b op = .ok false := by
  obtain ⟨h1, hbyte | hbyte⟩ := hsmall
  · rw [checkMinimalPush, if_neg (not_not.mpr hop), if_neg (by omega), if_pos ⟨h1, hbyte⟩]
  · have hnum : ¬(b.length = 1 ∧ 1 ≤ b.getD 0 0 ∧ b.getD 0 0 ≤ 16) := fun h' =>
      absurd h'.2.2 (by rw [hbyte]; decide)
    rw [checkMinimalPush, if_neg (not_not.mpr hop), if_neg (by omega), if_neg hnum, if_pos ⟨h1, hbyte⟩]

/-- Every other push that `script << b` writes is minimal: the writer and
    `CheckMinimalPush` switch widths at the same sizes. -/
theorem checkMinimalPush_pushPrefix {b : Valtype} {op : Opcode} {tail : List UInt8}
    (h : CScript.pushPrefix b = op :: tail)
    (hsmall : ¬(b.length = 1 ∧ (1 ≤ b.getD 0 0 ∧ b.getD 0 0 ≤ 16 ∨ b.getD 0 0 = 0x81))) :
    checkMinimalPush b op = .ok true := by
  have hnum : ¬(b.length = 1 ∧ 1 ≤ b.getD 0 0 ∧ b.getD 0 0 ≤ 16) := fun h' => hsmall ⟨h'.1, Or.inl h'.2⟩
  have hneg : ¬(b.length = 1 ∧ b.getD 0 0 = 0x81) := fun h' => hsmall ⟨h'.1, Or.inr h'.2⟩
  have h76 : OP_PUSHDATA1.toNat = 76 := rfl
  unfold CScript.pushPrefix at h
  by_cases h1 : b.length < OP_PUSHDATA1.toNat
  · -- a direct push: the opcode is the length
    rw [if_pos h1, List.cons.injEq] at h
    obtain ⟨rfl, -⟩ := h
    have hop : (UInt8.ofNat b.length).toNat = b.length := by
      rw [UInt8.toNat_ofNat']
      omega
    have hle : UInt8.ofNat b.length ≤ OP_PUSHDATA4 :=
      UInt8.le_iff_toNat_le.mpr (by rw [hop]; show b.length ≤ 78; omega)
    rw [checkMinimalPush, if_neg (not_not.mpr hle)]
    by_cases h0 : b.length = 0
    · rw [if_pos h0, h0]
      rfl
    · rw [if_neg h0, if_neg hnum, if_neg hneg, if_pos (by omega), hop, beq_self_eq_true]
  rw [if_neg h1] at h
  by_cases h2 : b.length ≤ 0xff
  · rw [if_pos h2, List.cons.injEq] at h
    obtain ⟨rfl, -⟩ := h
    rw [checkMinimalPush, if_neg (by decide), if_neg (by omega), if_neg hnum, if_neg hneg,
      if_neg (by omega), if_pos h2]
    rfl
  rw [if_neg h2] at h
  by_cases h3 : b.length ≤ 0xffff
  · rw [if_pos h3, List.cons.injEq] at h
    obtain ⟨rfl, -⟩ := h
    rw [checkMinimalPush, if_neg (by decide), if_neg (by omega), if_neg hnum, if_neg hneg,
      if_neg (by omega), if_neg h2, if_pos h3]
    rfl
  · rw [if_neg h3, List.cons.injEq] at h
    obtain ⟨rfl, -⟩ := h
    rw [checkMinimalPush, if_neg (by decide), if_neg (by omega), if_neg hnum, if_neg hneg,
      if_neg (by omega), if_neg h2, if_neg h3]

/-- `CScript() << b` is read back by `GetScriptOp` as one push of `b`,
    which `CheckMinimalPush` accepts unless `b` is a byte that `OP_1` to
    `OP_16` or `OP_1NEGATE` push. -/
theorem getOp_pushData_minimal (b : Valtype) (hb : b.length < 2 ^ 32) :
    ∃ op, op ≤ OP_PUSHDATA4 ∧ getOp (CScript.pushData [] b) = some (op, b, []) ∧
      (checkMinimalPush b op = .ok true ↔
        ¬(b.length = 1 ∧ (1 ≤ b.getD 0 0 ∧ b.getD 0 0 ≤ 16 ∨ b.getD 0 0 = 0x81))) := by
  obtain ⟨op, hop, hget⟩ := getOp_push b [] hb
  obtain ⟨o, tail, hpre⟩ := pushPrefix_cons b
  have hpush : CScript.pushData [] b = CScript.pushPrefix b ++ b ++ [] := by
    rw [CScript.pushData_eq, List.nil_append, List.append_nil]
  -- the opcode `GetScriptOp` returns is the first byte of the push
  have ho : op = o := by
    rw [hpre, List.cons_append, List.cons_append] at hget
    exact getOp_fst hget
  subst ho
  refine ⟨op, hop, by rw [hpush]; exact hget, fun hok hsmall => ?_,
    checkMinimalPush_pushPrefix hpre⟩
  have hfalse := hok.symm.trans (checkMinimalPush_small hop hsmall)
  cases hfalse

/-! ## The round trips -/

/-- Script numbers and pushes round-trip canonically: every `int64_t`
    other than `INT64_MIN` is read back from its `serialize` bytes by
    `CScriptNum(vch, true, 8)`; every vector that constructor accepts is
    what `serialize` writes for its `set_vch` value; and `CScript() << b`
    is read back by `GetScriptOp` as exactly `b`, with the push minimal
    unless `b` is a byte a small-number opcode pushes. -/
theorem scriptNum_push_roundTrip :
    (∀ n : Int, -2 ^ 63 < n → n < 2 ^ 63 →
      CScriptNum.ofVch (CScriptNum.serialize n) true 8 = .ok n) ∧
    (∀ v x, CScriptNum.ofVch v true 8 = .ok x →
      x = CScriptNum.setVch v ∧ CScriptNum.serialize x = v) ∧
    ∀ b : Valtype, b.length < 2 ^ 32 → ∃ op, op ≤ OP_PUSHDATA4 ∧
      getOp (CScript.pushData [] b) = some (op, b, []) ∧
      (checkMinimalPush b op = .ok true ↔
        ¬(b.length = 1 ∧ (1 ≤ b.getD 0 0 ∧ b.getD 0 0 ≤ 16 ∨ b.getD 0 0 = 0x81))) := by
  refine ⟨fun n hlo hhi => ?_, fun v x h => ?_, getOp_pushData_minimal⟩
  · exact CScriptNum.ofVch_of_minimalNum (CScriptNum.minimalNum_serialize hlo hhi)
  · exact ⟨CScriptNum.setVch_of_ofVch h,
      CScriptNum.serialize_of_minimalNum (CScriptNum.minimalNum_of_ofVch h)⟩

theorem scriptNum_push_roundTrip_255 :
    (-2 ^ 63 < (-255 : Int) ∧ (-255 : Int) < 2 ^ 63 ∧
      CScriptNum.ofVch (CScriptNum.serialize (-255)) true 8 = .ok (-255)) ∧
    (CScriptNum.ofVch [0xff, 0x00] true 8 = .ok 255 ∧
      255 = CScriptNum.setVch [0xff, 0x00] ∧ CScriptNum.serialize 255 = [0xff, 0x00]) ∧
    ([0x05].length < 2 ^ 32 ∧ ∃ op, op ≤ OP_PUSHDATA4 ∧
      getOp (CScript.pushData [] [0x05]) = some (op, [0x05], []) ∧
      (checkMinimalPush [0x05] op = .ok true ↔
        ¬([0x05].length = 1 ∧ (1 ≤ [0x05].getD 0 0 ∧ [0x05].getD 0 0 ≤ (16 : UInt8) ∨
          [0x05].getD 0 0 = (0x81 : UInt8))))) :=
  ⟨⟨by decide, by decide, scriptNum_push_roundTrip.1 (-255) (by decide) (by decide)⟩,
    ⟨rfl, scriptNum_push_roundTrip.2.1 [0xff, 0x00] 255 rfl⟩,
    ⟨by decide, scriptNum_push_roundTrip.2.2 [0x05] (by decide)⟩⟩

end Revo
