/-
  Revo.Util.FixedPointProofs

  `ParseFixedPoint` against the JSON number grammar and the exact value of a
  number.

    * `mantissaDigits_eq`: the digit loop of the mantissa is the same loop
      without its bound (`strip`: the mantissa without its trailing zeros,
      and their count), and fails exactly when that mantissa reaches
      `10 ^ 18`; `exponentDigits_append`: the digit loop of the exponent reads
      the value of its digits and fails exactly when it reaches `10 ^ 18`.
    * `finalizeFixedPoint_eq`: the one exponent `E` must lie in `[0, 18)`,
      and the amount `± m * 10 ^ E` below `10 ^ 18` in magnitude.
    * Every accepted string is a JSON number, and the amount is its value
      times `10 ^ decimals` (`parseFixedPoint_sound`).  Every JSON number
      whose value is not `0` and times `10 ^ decimals` is an integer below
      `10 ^ 18` in magnitude is accepted, when it has fewer than `2 ^ 31`
      characters (`parseFixedPoint_complete`).  A zero is accepted only with
      an exponent in range.
-/

import Revo.Util.FixedPoint
import Revo.Lib.JsonNumber

namespace Revo

open Positional

/-! ## Digits

`IsDigit` and `ch - '0'` are the grammar's digits and their values. -/

theorem digitValue_lt {c : Char} (h : isDigit c = true) : digitValue c < 10 := JsonNumber.digitVal_lt h

theorem eq_zero_iff_digitValue {c : Char} (h : isDigit c = true) : c = '0' ↔ digitValue c = 0 := by
  have hc := (JsonNumber.isDigit_iff c).mp h
  rw [← Char.toNat_inj]
  show c.toNat = 48 ↔ c.toNat - 48 = 0
  omega

theorem decimal_eq (ds : List Char) : JsonNumber.decimal ds = value 10 0 (ds.map digitValue) := rfl

/-- The digits a loop reads: all of them, up to a character that is not
    one. -/
theorem takeWhile_digits_append {ds rest : List Char} (hds : ∀ c ∈ ds, isDigit c = true)
    (hrest : ∀ c, rest.head? = some c → isDigit c = false) :
    (ds ++ rest).takeWhile isDigit = ds ∧ (ds ++ rest).dropWhile isDigit = rest := by
  induction ds with
  | nil =>
    cases rest with
    | nil => exact ⟨rfl, rfl⟩
    | cons c rest =>
      have hc := hrest c rfl
      rw [List.nil_append, List.takeWhile_cons, List.dropWhile_cons, hc]
      exact ⟨rfl, rfl⟩
  | cons c ds ih =>
    have hc := hds c List.mem_cons_self
    obtain ⟨ht, hd⟩ := ih fun c' hc' => hds c' (List.mem_cons_of_mem c hc')
    rw [List.cons_append, List.takeWhile_cons, List.dropWhile_cons, if_pos hc, if_pos hc, ht, hd]
    exact ⟨rfl, rfl⟩

theorem digits_takeWhile (s : List Char) : ∀ c ∈ s.takeWhile isDigit, isDigit c = true :=
  fun _ hc => List.mem_takeWhile_imp hc

theorem not_digit_dropWhile : ∀ (s : List Char) (c : Char), (s.dropWhile isDigit).head? = some c →
    isDigit c = false
  | [], _, h => by cases h
  | x :: xs, c, h => by
    rw [List.dropWhile_cons] at h
    split at h
    · exact not_digit_dropWhile xs c h
    · rename_i hx
      obtain rfl : x = c := Option.some.inj h
      simpa using hx

/-! ## The mantissa without its bound -/

/-- `ProcessMantissaDigit` without its bound, on the mantissa without its
    trailing zeros and their count. -/
def stripStep (s : Nat × Nat) (d : Nat) : Nat × Nat :=
  if d = 0 then (s.1, s.2 + 1) else (s.1 * 10 ^ (s.2 + 1) + d, 0)

def strip (s : Nat × Nat) (ds : List Nat) : Nat × Nat := ds.foldl stripStep s

@[simp] theorem strip_nil (s : Nat × Nat) : strip s [] = s := rfl

@[simp] theorem strip_cons (s : Nat × Nat) (d : Nat) (ds : List Nat) :
    strip s (d :: ds) = strip (stripStep s d) ds := rfl

theorem le_stripStep (s : Nat × Nat) (d : Nat) : s.1 ≤ (stripStep s d).1 := by
  unfold stripStep
  split
  · exact Nat.le_refl _
  · exact Nat.le_trans (Nat.le_mul_of_pos_right _ (Nat.pow_pos (by decide))) (Nat.le_add_right _ _)

/-- The mantissa only grows. -/
theorem le_strip : ∀ (s : Nat × Nat) (ds : List Nat), s.1 ≤ (strip s ds).1
  | _, [] => Nat.le_refl _
  | s, d :: ds => Nat.le_trans (le_stripStep s d) (le_strip _ ds)

theorem snd_strip_le : ∀ (s : Nat × Nat) (ds : List Nat), (strip s ds).2 ≤ s.2 + ds.length
  | _, [] => Nat.le_refl _
  | s, d :: ds => by
    have ih := snd_strip_le (stripStep s d) ds
    have hstep : (stripStep s d).2 ≤ s.2 + 1 := by
      unfold stripStep
      split <;> simp
    rw [strip_cons, List.length_cons]
    omega

/-- `m` without trailing zeros and `tz` of them make `V`. -/
structure Stripped (m tz V : Nat) : Prop where
  value : m * 10 ^ tz = V
  last : m = 0 ∨ m % 10 ≠ 0

theorem Stripped.start : Stripped 0 0 0 := ⟨rfl, .inl rfl⟩

theorem Stripped.step {m tz V d : Nat} (h : Stripped m tz V) (hd : d < 10) :
    Stripped (stripStep (m, tz) d).1 (stripStep (m, tz) d).2 (10 * V + d) := by
  have hV := h.value
  by_cases hd0 : d = 0
  · rw [stripStep, if_pos hd0]
    refine ⟨?_, h.last⟩
    show m * 10 ^ (tz + 1) = 10 * V + d
    rw [← hV, hd0, Nat.add_zero, Nat.pow_succ]
    ac_rfl
  · rw [stripStep, if_neg hd0]
    -- the new last digit is `d`
    have hmul : m * 10 ^ (tz + 1) = 10 * V := by rw [← hV, Nat.pow_succ]; ac_rfl
    refine ⟨?_, .inr ?_⟩
    · show (m * 10 ^ (tz + 1) + d) * 10 ^ 0 = 10 * V + d
      rw [Nat.pow_zero, Nat.mul_one, hmul]
    · show (m * 10 ^ (tz + 1) + d) % 10 ≠ 0
      rw [hmul]
      omega

theorem Stripped.strip : ∀ {m tz V : Nat} {ds : List Nat}, Stripped m tz V → (∀ d ∈ ds, d < 10) →
    Stripped (Revo.strip (m, tz) ds).1 (Revo.strip (m, tz) ds).2 (Positional.value 10 V ds)
  | _, _, _, [], h, _ => h
  | m, tz, V, d :: ds, h, hds => by
    rw [strip_cons, value_cons]
    exact Stripped.strip (h.step (hds d List.mem_cons_self)) fun d' hd' => hds d' (List.mem_cons_of_mem d hd')

/-! ## The digit loops -/

theorem upperBound_div_ten : UPPER_BOUND / 10 = 99999999999999999 := by decide

/-- `k + 1` multiplications by ten, checked before each. -/
theorem mulTenLoop_eq : ∀ (k m : Nat),
    mulTenLoop (k + 1) m = if m * 10 ^ k < 10 ^ 17 then some ((m * 10 ^ (k + 1) : Nat) : Int) else none
  | 0, m => by
    rw [mulTenLoop, mulTenLoop, upperBound_div_ten, Nat.pow_zero, Nat.mul_one, Nat.pow_one]
    by_cases hm : m < 10 ^ 17
    · rw [if_neg (by omega), if_pos hm]
      push_cast
      rfl
    · rw [if_pos (by omega), if_neg hm]
  | k + 1, m => by
    have hcast : (m : Int) * 10 = ((m * 10 : Nat) : Int) := by push_cast; rfl
    have hpow : m * 10 * 10 ^ k = m * 10 ^ (k + 1) := by rw [Nat.pow_succ]; ac_rfl
    have hpow' : m * 10 * 10 ^ (k + 1) = m * 10 ^ (k + 1 + 1) := by rw [Nat.pow_succ _ (k + 1)]; ac_rfl
    have hle : m ≤ m * 10 ^ (k + 1) := Nat.le_mul_of_pos_right _ (Nat.pow_pos (by decide))
    rw [mulTenLoop, upperBound_div_ten, hcast, mulTenLoop_eq k (m * 10), hpow, hpow']
    by_cases hm : m * 10 ^ (k + 1) < 10 ^ 17
    · rw [if_neg (by omega), if_pos hm]
    · rw [if_neg hm, ite_self]

/-- One digit: the step without the bound, kept while its mantissa stays
    below `10 ^ 18`. -/
theorem processMantissaDigit_eq {c : Char} (hc : isDigit c = true) {m : Nat} (hm : m < 10 ^ 18) (tz : Nat) :
    processMantissaDigit c m tz =
      if (stripStep (m, tz) (digitValue c)).1 < 10 ^ 18 then
        some ((((stripStep (m, tz) (digitValue c)).1 : Nat) : Int), (stripStep (m, tz) (digitValue c)).2)
      else none := by
  have hd := digitValue_lt hc
  unfold processMantissaDigit stripStep
  by_cases h0 : c = '0'
  · rw [if_pos h0, if_pos ((eq_zero_iff_digitValue hc).mp h0)]
    dsimp only
    rw [if_pos hm]
  · have hd0 : digitValue c ≠ 0 := fun h => h0 ((eq_zero_iff_digitValue hc).mpr h)
    rw [if_neg h0, if_neg hd0, mulTenLoop_eq]
    dsimp only
    have hpow : m * 10 ^ (tz + 1) = 10 * (m * 10 ^ tz) := by rw [Nat.pow_succ]; ac_rfl
    by_cases hlt : m * 10 ^ tz < 10 ^ 17
    · rw [if_pos hlt, if_pos (by omega)]
      push_cast
      rfl
    · rw [if_neg hlt, if_neg (by omega)]
      rfl

/-- The digit loop of the mantissa is the loop without its bound, checked
    once at the end.  Induction on the string. -/
theorem mantissaDigits_eq (afterPoint : Bool) :
    ∀ (s : List Char) (m tz po : Nat), m < 10 ^ 18 →
      mantissaDigits afterPoint s m tz po =
        if (strip (m, tz) ((s.takeWhile isDigit).map digitValue)).1 < 10 ^ 18 then
          some (s.dropWhile isDigit, (((strip (m, tz) ((s.takeWhile isDigit).map digitValue)).1 : Nat) : Int),
            (strip (m, tz) ((s.takeWhile isDigit).map digitValue)).2,
            if afterPoint then po + (s.takeWhile isDigit).length else po)
        else none
  | [], m, tz, po, hm => by
    rw [mantissaDigits, List.takeWhile_nil, List.dropWhile_nil, List.map_nil, strip_nil, if_pos hm,
      List.length_nil, Nat.add_zero, ite_self]
  | c :: rest, m, tz, po, hm => by
    by_cases hc : isDigit c = true
    · rw [mantissaDigits, if_pos hc, processMantissaDigit_eq hc hm, List.takeWhile_cons_of_pos hc,
        List.dropWhile_cons_of_pos hc, List.map_cons, strip_cons, List.length_cons]
      by_cases hstep : (stripStep (m, tz) (digitValue c)).1 < 10 ^ 18
      · rw [if_pos hstep]
        dsimp only
        rw [mantissaDigits_eq afterPoint rest _ _ _ hstep, Prod.mk.eta]
        cases afterPoint
        · rfl
        · show (if _ then some (_, _, _, po + 1 + (rest.takeWhile isDigit).length) else none) =
            if _ then some (_, _, _, po + ((rest.takeWhile isDigit).length + 1)) else none
          rw [Nat.add_assoc, Nat.add_comm 1]
      · -- the mantissa is already too large, and it only grows
        have hgrow := le_strip (stripStep (m, tz) (digitValue c)) ((rest.takeWhile isDigit).map digitValue)
        have hbig : ¬(strip (stripStep (m, tz) (digitValue c)) ((rest.takeWhile isDigit).map digitValue)).1 <
            10 ^ 18 := by omega
        rw [if_neg hstep, if_neg hbig]
    · rw [mantissaDigits, if_neg hc, List.takeWhile_cons_of_neg hc, List.dropWhile_cons_of_neg hc, List.map_nil,
        strip_nil, if_pos hm, List.length_nil, Nat.add_zero, ite_self]

theorem exponentDigits_of_not_digit {rest : List Char} (hrest : ∀ c, rest.head? = some c → isDigit c = false)
    (e : Int) : exponentDigits rest e = some (rest, e) := by
  cases rest with
  | nil => rfl
  | cons c rest => rw [exponentDigits, if_neg (by rw [hrest c rfl]; exact Bool.false_ne_true)]

/-- The digit loop of the exponent reads the value of its digits, and fails
    once it reaches `10 ^ 18`.  Induction on the digits. -/
theorem exponentDigits_append {rest : List Char} (hrest : ∀ c, rest.head? = some c → isDigit c = false) :
    ∀ (ds : List Char) (e : Nat), ds ≠ [] → (∀ c ∈ ds, isDigit c = true) →
      exponentDigits (ds ++ rest) e =
        if value 10 e (ds.map digitValue) < 10 ^ 18 then some (rest, ((value 10 e (ds.map digitValue) : Nat) : Int))
        else none
  | [], _, hne, _ => absurd rfl hne
  | c :: ds, e, _, hds => by
    have hc := hds c List.mem_cons_self
    have hd := digitValue_lt hc
    have hcast : (e : Int) * 10 + (digitValue c : Nat) = ((10 * e + digitValue c : Nat) : Int) := by
      push_cast
      ring
    rw [List.cons_append, exponentDigits, if_pos hc, upperBound_div_ten, hcast, List.map_cons, value_cons]
    cases ds with
    | nil =>
      -- the last digit: the exponent before it stays below `10 ^ 17`
      rw [List.nil_append, exponentDigits_of_not_digit hrest, List.map_nil, value_nil]
      by_cases he : e < 10 ^ 17
      · rw [if_neg (by omega), if_pos (by omega)]
      · rw [if_pos (by omega), if_neg (by omega)]
    | cons c' ds =>
      have ih := exponentDigits_append hrest (c' :: ds) (10 * e + digitValue c) (List.cons_ne_nil _ _)
        fun c'' hc'' => hds c'' (List.mem_cons_of_mem c hc'')
      -- a digit still to come multiplies the exponent by ten once more
      have hbig : 10 * (10 * e + digitValue c) ≤ value 10 (10 * e + digitValue c) ((c' :: ds).map digitValue) := by
        rw [List.map_cons, value_cons]
        exact Nat.le_trans (Nat.le_add_right _ _) (le_value _ _ (by decide))
      by_cases he : e < 10 ^ 17
      · rw [if_neg (by omega), ih]
      · rw [if_pos (by omega), if_neg (by omega)]

/-- The exponent loop from a digit on reads the digits up to the first
    character that is not one. -/
theorem exponentDigits_eq {s : List Char} {d : Char} (hd : s.head? = some d) (hdig : isDigit d = true) :
    exponentDigits s 0 =
      if JsonNumber.decimal (s.takeWhile isDigit) < 10 ^ 18 then
        some (s.dropWhile isDigit, ((JsonNumber.decimal (s.takeWhile isDigit) : Nat) : Int))
      else none := by
  have hne : s.takeWhile isDigit ≠ [] := by
    obtain ⟨tl, rfl⟩ : ∃ tl, s = d :: tl := ⟨s.tail, (List.eq_cons_of_mem_head? hd)⟩
    rw [List.takeWhile_cons_of_pos hdig]
    exact List.cons_ne_nil _ _
  have h := exponentDigits_append (not_digit_dropWhile s) (s.takeWhile isDigit) 0 hne (digits_takeWhile s)
  rw [List.takeWhile_append_dropWhile, Nat.cast_zero] at h
  exact h

/-- The exponent loop over digits only. -/
theorem exponentDigits_digits {ds : List Char} (hne : ds ≠ []) (hds : ∀ c ∈ ds, isDigit c = true) :
    exponentDigits ds 0 = if JsonNumber.decimal ds < 10 ^ 18 then some ([], ((JsonNumber.decimal ds : Nat) : Int))
      else none := by
  have hnil : ∀ c, ([] : List Char).head? = some c → isDigit c = false := fun c h => by cases h
  have h := exponentDigits_append hnil ds 0 hne hds
  rw [List.append_nil, Nat.cast_zero] at h
  exact h

/-! ## Scaling -/

/-- `k + 1` multiplications by ten, each checked in both signs. -/
theorem scaleLoop_eq : ∀ (k : Nat) (m : Int),
    scaleLoop (k + 1) m = if m.natAbs * 10 ^ k < 10 ^ 17 then some (m * 10 ^ (k + 1)) else none
  | 0, m => by
    rw [scaleLoop, scaleLoop, upperBound_div_ten, Nat.pow_zero, Nat.mul_one, pow_one]
    by_cases hm : m.natAbs < 10 ^ 17
    · rw [if_neg (by omega), if_pos hm]
    · rw [if_pos (by omega), if_neg hm]
  | k + 1, m => by
    have hpow : (m * 10).natAbs * 10 ^ k = m.natAbs * 10 ^ (k + 1) := by
      rw [Int.natAbs_mul, pow_succ]
      ac_rfl
    have hle : m.natAbs ≤ m.natAbs * 10 ^ (k + 1) := Nat.le_mul_of_pos_right _ (Nat.pow_pos (by decide))
    rw [scaleLoop, upperBound_div_ten, scaleLoop_eq k (m * 10), hpow, mul_assoc, ← pow_succ']
    by_cases hm : m.natAbs * 10 ^ (k + 1) < 10 ^ 17
    · rw [if_neg (by omega), if_pos hm]
    · rw [if_neg hm, ite_self]

/-- The end of `ParseFixedPoint`: with the one exponent `E` in `[0, 18)`,
    the amount `± m * 10 ^ E`, kept while it stays below `10 ^ 18`. -/
theorem finalizeFixedPoint_eq (ms es : Bool) (m : Nat) (e : Int) (tz po : Nat) (decimals : Int) :
    finalizeFixedPoint ms es m e tz po decimals =
      if 0 ≤ (if es then -e else e) - po + tz + decimals ∧ (if es then -e else e) - po + tz + decimals < 18 ∧
          m * 10 ^ ((if es then -e else e) - po + tz + decimals).toNat < 10 ^ 18 then
        some ((if ms then -(m : Int) else m) * 10 ^ ((if es then -e else e) - po + tz + decimals).toNat)
      else none := by
  rw [finalizeFixedPoint]
  generalize (if es then -e else e) - po + tz + decimals = E
  have hsign : (if ms then -(m : Int) else m).natAbs = m := by cases ms <;> simp
  generalize (if ms then -(m : Int) else m) = z at hsign ⊢
  subst hsign
  by_cases hneg : E < 0
  · rw [if_pos hneg, if_neg (by omega)]
  rw [if_neg hneg]
  by_cases hbig : E ≥ 18
  · rw [if_pos hbig, if_neg (by omega)]
  rw [if_neg hbig]
  -- `E` in `[0, 18)`: the loop runs `E` times, then the bound is checked
  cases hk : E.toNat with
  | zero =>
    rw [scaleLoop, pow_zero, pow_zero, mul_one, mul_one]
    dsimp only
    by_cases hz : z.natAbs < 10 ^ 18
    · rw [if_neg (by rw [UPPER_BOUND]; omega), if_pos ⟨by omega, by omega, hz⟩]
    · rw [if_pos (by rw [UPPER_BOUND]; omega), if_neg (by omega)]
  | succ k =>
    have hpow : z.natAbs * 10 ^ (k + 1) = 10 * (z.natAbs * 10 ^ k) := by rw [pow_succ]; ac_rfl
    have hmul : (z * 10 ^ (k + 1)).natAbs = z.natAbs * 10 ^ (k + 1) := by
      rw [Int.natAbs_mul, Int.natAbs_pow]
      rfl
    rw [scaleLoop_eq]
    by_cases hz : z.natAbs * 10 ^ k < 10 ^ 17
    · rw [if_pos hz]
      dsimp only
      rw [if_neg (by rw [UPPER_BOUND]; omega), if_pos ⟨by omega, by omega, by omega⟩]
    · rw [if_neg hz, if_neg (by omega)]

/-! ## The parts of a number

Each part has a lemma each way.  Read forwards, what a part accepted is a
text of that part of the grammar, followed by the rest; read backwards, a
text of the part followed by a rest that cannot continue it is accepted,
provided the mantissa or the exponent stays in range. -/

theorem readMinus_sound (s : List Char) : (if (readMinus s).1 then ['-'] else []) ++ (readMinus s).2 = s := by
  by_cases h : ∃ rest, s = '-' :: rest
  · obtain ⟨rest, rfl⟩ := h
    rw [readMinus.eq_1]
    rfl
  · rw [readMinus.eq_2 s fun rest hs => h ⟨rest, hs⟩]
    rfl

theorem readMinus_complete (b : Bool) {s : List Char} (hs : ∀ rest, s ≠ '-' :: rest) :
    readMinus ((if b then ['-'] else []) ++ s) = (b, s) := by
  cases b with
  | true => exact readMinus.eq_1 s
  | false => exact readMinus.eq_2 s hs

theorem parseIntPart_sound {s r : List Char} {m : Int} {tz : Nat} (h : parseIntPart s = some (r, m, tz)) :
    ∃ ds, ∃ M : Nat, JsonNumber.IntWf ds ∧ ds ++ r = s ∧ m = (M : Int) ∧ Stripped M tz (JsonNumber.decimal ds) ∧
      M < 10 ^ 18 ∧ tz ≤ ds.length := by
  cases s with
  | nil =>
    rw [parseIntPart.eq_1] at h
    cases h
  | cons c rest =>
    rw [parseIntPart.eq_2] at h
    by_cases h0 : c = '0'
    · -- a single `0`
      rw [if_pos h0] at h
      simp only [Option.some.injEq, Prod.mk.injEq] at h
      obtain ⟨rfl, rfl, rfl⟩ := h
      exact ⟨['0'], 0, .inl rfl, by rw [h0]; rfl, rfl, Stripped.start, by decide, Nat.zero_le _⟩
    rw [if_neg h0] at h
    by_cases h19 : '1' ≤ c ∧ c ≤ '9'
    · have hc : isDigit c = true := JsonNumber.isDigit_of_one_le h19.1 h19.2
      have hloop := mantissaDigits_eq false (c :: rest) 0 0 0 (by decide)
      rw [Nat.cast_zero] at hloop
      rw [if_pos h19, hloop] at h
      by_cases hlt : (strip (0, 0) (((c :: rest).takeWhile isDigit).map digitValue)).1 < 10 ^ 18
      · rw [if_pos hlt, Option.map_some] at h
        simp only [Option.some.injEq, Prod.mk.injEq] at h
        obtain ⟨rfl, rfl, rfl⟩ := h
        have hst := Stripped.strip Stripped.start (JsonNumber.digitVals_lt (digits_takeWhile (c :: rest)))
        have htz := snd_strip_le (0, 0) (((c :: rest).takeWhile isDigit).map digitValue)
        rw [List.length_map] at htz
        refine ⟨(c :: rest).takeWhile isDigit, _, .inr ⟨c, rest.takeWhile isDigit, List.takeWhile_cons_of_pos hc,
          h19.1, h19.2, digits_takeWhile rest⟩, List.takeWhile_append_dropWhile, rfl, hst, hlt, by omega⟩
      · rw [if_neg hlt] at h
        cases h
    · rw [if_neg h19] at h
      cases h

theorem parseIntPart_complete {ds r : List Char} (hds : JsonNumber.IntWf ds)
    (hr : ∀ c, r.head? = some c → isDigit c = false) :
    ∃ M tz, Stripped M tz (JsonNumber.decimal ds) ∧ tz ≤ ds.length ∧
      (M < 10 ^ 18 → parseIntPart (ds ++ r) = some (r, (M : Int), tz)) := by
  have hdigits : ∀ c ∈ ds, isDigit c = true := hds.isDigit
  rcases hds with rfl | ⟨c, cs, rfl, h1, h9, -⟩
  · exact ⟨0, 0, Stripped.start, Nat.zero_le _, fun _ => rfl⟩
  · have h0 : c ≠ '0' := by
      rintro rfl
      exact absurd h1 (by decide)
    obtain ⟨ht, hd⟩ := takeWhile_digits_append hdigits hr
    have htz := snd_strip_le (0, 0) ((c :: cs).map digitValue)
    rw [List.length_map] at htz
    have hloop := mantissaDigits_eq false (c :: cs ++ r) 0 0 0 (by decide)
    rw [Nat.cast_zero] at hloop
    refine ⟨(strip (0, 0) ((c :: cs).map digitValue)).1, (strip (0, 0) ((c :: cs).map digitValue)).2,
      Stripped.strip Stripped.start (JsonNumber.digitVals_lt hdigits), by omega, fun hM => ?_⟩
    rw [List.cons_append, parseIntPart.eq_2, if_neg h0, if_pos ⟨h1, h9⟩, ← List.cons_append, hloop, ht, hd,
      if_pos hM, Option.map_some]

theorem parseFracPart_sound {s r : List Char} {M tz tz' po : Nat} {m' : Int} (hM : M < 10 ^ 18)
    (h : parseFracPart s M tz = some (r, m', tz', po)) :
    ∃ fs, (∀ c ∈ fs, isDigit c = true) ∧ JsonNumber.fracText fs ++ r = s ∧
      m' = ((strip (M, tz) (fs.map digitValue)).1 : Int) ∧ tz' = (strip (M, tz) (fs.map digitValue)).2 ∧
      po = fs.length ∧ (strip (M, tz) (fs.map digitValue)).1 < 10 ^ 18 := by
  by_cases hdot : ∃ rest, s = '.' :: rest
  · obtain ⟨rest, rfl⟩ := hdot
    cases rest with
    | nil =>
      rw [parseFracPart.eq_2] at h
      cases h
    | cons c tl =>
      rw [parseFracPart.eq_1] at h
      by_cases hc : isDigit c = true
      · rw [if_pos hc, mantissaDigits_eq true _ M tz 0 hM] at h
        by_cases hlt : (strip (M, tz) (((c :: tl).takeWhile isDigit).map digitValue)).1 < 10 ^ 18
        · rw [if_pos hlt] at h
          simp only [Option.some.injEq, Prod.mk.injEq] at h
          obtain ⟨rfl, rfl, rfl, rfl⟩ := h
          have hne : (c :: tl).takeWhile isDigit ≠ [] := by
            rw [List.takeWhile_cons_of_pos hc]
            exact List.cons_ne_nil _ _
          refine ⟨(c :: tl).takeWhile isDigit, digits_takeWhile _, ?_, rfl, rfl, Nat.zero_add _, hlt⟩
          rw [JsonNumber.fracText, if_neg hne, List.cons_append, List.takeWhile_append_dropWhile]
        · rw [if_neg hlt] at h
          cases h
      · rw [if_neg hc] at h
        cases h
  · -- no fraction
    rw [parseFracPart.eq_3 s M tz fun rest hs => hdot ⟨rest, hs⟩] at h
    simp only [Option.some.injEq, Prod.mk.injEq] at h
    obtain ⟨rfl, rfl, rfl, rfl⟩ := h
    exact ⟨[], fun _ h => absurd h List.not_mem_nil, rfl, rfl, rfl, rfl, hM⟩

theorem parseFracPart_complete {fs r : List Char} (hfs : ∀ c ∈ fs, isDigit c = true)
    (hr : ∀ c, r.head? = some c → c ≠ '.' ∧ isDigit c = false) {M tz : Nat}
    (hlt : (strip (M, tz) (fs.map digitValue)).1 < 10 ^ 18) :
    parseFracPart (JsonNumber.fracText fs ++ r) M tz =
      some (r, ((strip (M, tz) (fs.map digitValue)).1 : Int), (strip (M, tz) (fs.map digitValue)).2, fs.length) := by
  cases fs with
  | nil =>
    rw [JsonNumber.fracText, if_pos rfl, List.nil_append, parseFracPart.eq_3 r M tz ?_]
    · rfl
    · rintro rest rfl
      exact (hr '.' rfl).1 rfl
  | cons c cs =>
    have hM : M < 10 ^ 18 := Nat.lt_of_le_of_lt (le_strip (M, tz) _) hlt
    obtain ⟨ht, hd⟩ := takeWhile_digits_append hfs fun c hc => (hr c hc).2
    rw [JsonNumber.fracText, if_neg (List.cons_ne_nil c cs), List.cons_append, List.cons_append,
      parseFracPart.eq_1, if_pos (hfs c List.mem_cons_self), ← List.cons_append,
      mantissaDigits_eq true _ M tz 0 hM, ht, hd, if_pos hlt, if_pos rfl, Nat.zero_add]

theorem readExponentSign_sound (s : List Char) :
    ∃ sign, (sign = [] ∨ sign = ['+'] ∨ sign = ['-']) ∧ sign ++ (readExponentSign s).2 = s ∧
      (readExponentSign s).1 = decide (sign = ['-']) := by
  by_cases hp : ∃ rest, s = '+' :: rest
  · obtain ⟨rest, rfl⟩ := hp
    rw [readExponentSign.eq_1]
    exact ⟨['+'], .inr (.inl rfl), rfl, rfl⟩
  by_cases hm : ∃ rest, s = '-' :: rest
  · obtain ⟨rest, rfl⟩ := hm
    rw [readExponentSign.eq_2]
    exact ⟨['-'], .inr (.inr rfl), rfl, rfl⟩
  rw [readExponentSign.eq_3 s (fun rest h => hp ⟨rest, h⟩) (fun rest h => hm ⟨rest, h⟩)]
  exact ⟨[], .inl rfl, rfl, rfl⟩

theorem readExponentSign_complete {sign s : List Char} (hsign : sign = [] ∨ sign = ['+'] ∨ sign = ['-'])
    (hs : ∀ c, s.head? = some c → isDigit c = true) :
    readExponentSign (sign ++ s) = (decide (sign = ['-']), s) := by
  rcases hsign with rfl | rfl | rfl
  · rw [List.nil_append, readExponentSign.eq_3 s ?_ ?_]
    · rfl
    · rintro rest rfl
      exact absurd (hs '+' rfl) (by decide)
    · rintro rest rfl
      exact absurd (hs '-' rfl) (by decide)
  · rw [List.singleton_append, readExponentSign.eq_1]
    rfl
  · rw [List.singleton_append, readExponentSign.eq_2]
    rfl

theorem parseExpPart_sound {s : List Char} {es : Bool} {e : Int} (h : parseExpPart s = some ([], es, e)) :
    ∃ x : Option JsonExponent, JsonNumber.expText x = s ∧ (if es then -e else e) = JsonNumber.expValue x := by
  cases s with
  | nil =>
    rw [parseExpPart.eq_1] at h
    simp only [Option.some.injEq, Prod.mk.injEq] at h
    obtain ⟨-, rfl, rfl⟩ := h
    exact ⟨none, rfl, rfl⟩
  | cons c rest =>
    rw [parseExpPart.eq_2] at h
    by_cases hmark : c = 'e' ∨ c = 'E'
    · rw [if_pos hmark] at h
      obtain ⟨sign, hsign, hrest, hes⟩ := readExponentSign_sound rest
      generalize readExponentSign rest = p at h hrest hes
      obtain ⟨neg, ds0⟩ := p
      dsimp only at hrest hes
      cases ds0 with
      | nil =>
        dsimp only at h
        cases h
      | cons d tl =>
        dsimp only at h
        by_cases hd : isDigit d = true
        · rw [if_pos hd, exponentDigits_eq rfl hd] at h
          by_cases hlt : JsonNumber.decimal ((d :: tl).takeWhile isDigit) < 10 ^ 18
          · rw [if_pos hlt, Option.map_some] at h
            simp only [Option.some.injEq, Prod.mk.injEq] at h
            obtain ⟨hnil, rfl, rfl⟩ := h
            have hne : (d :: tl).takeWhile isDigit ≠ [] := by
              rw [List.takeWhile_cons_of_pos hd]
              exact List.cons_ne_nil _ _
            refine ⟨some ⟨c, sign, (d :: tl).takeWhile isDigit, hmark, hsign, hne, digits_takeWhile _⟩, ?_, ?_⟩
            · -- the digits run to the end of the text
              have hall : (d :: tl).takeWhile isDigit ++ (d :: tl).dropWhile isDigit = d :: tl :=
                List.takeWhile_append_dropWhile
              rw [hnil, List.append_nil] at hall
              show c :: (sign ++ (d :: tl).takeWhile isDigit) = c :: rest
              rw [hall, hrest]
            · rw [JsonNumber.expValue, hes]
              by_cases hminus : sign = ['-']
              · rw [if_pos hminus, decide_eq_true hminus, if_pos rfl]
              · rw [if_neg hminus, decide_eq_false hminus, if_neg Bool.false_ne_true]
          · rw [if_neg hlt] at h
            cases h
        · rw [if_neg hd] at h
          cases h
    · rw [if_neg hmark] at h
      simp only [Option.some.injEq, Prod.mk.injEq] at h
      exact absurd h.1 (List.cons_ne_nil _ _)

theorem parseExpPart_complete (x : Option JsonExponent) (hx : (JsonNumber.expValue x).natAbs < 10 ^ 18) :
    ∃ es e, parseExpPart (JsonNumber.expText x) = some ([], es, e) ∧ (if es then -e else e) = JsonNumber.expValue x := by
  cases x with
  | none => exact ⟨false, 0, rfl, rfl⟩
  | some x =>
    obtain ⟨mark, sign, digits, hmark, hsign, hne, hdig⟩ := x
    obtain ⟨d, tl, rfl⟩ := List.exists_cons_of_ne_nil hne
    have hdec : JsonNumber.decimal (d :: tl) < 10 ^ 18 := by
      rw [JsonNumber.expValue] at hx
      dsimp only at hx
      split at hx <;> omega
    refine ⟨decide (sign = ['-']), JsonNumber.decimal (d :: tl), ?_, ?_⟩
    · rw [JsonNumber.expText, parseExpPart.eq_2, if_pos hmark,
        readExponentSign_complete hsign fun c hc => hdig c (List.mem_of_head? hc)]
      dsimp only
      rw [if_pos (show isDigit d = true from hdig d List.mem_cons_self), exponentDigits_digits hne hdig, if_pos hdec,
        Option.map_some]
    · rw [JsonNumber.expValue]
      by_cases hminus : sign = ['-']
      · rw [if_pos hminus, decide_eq_true hminus, if_pos rfl]
      · rw [if_neg hminus, decide_eq_false hminus, if_neg Bool.false_ne_true]

/-! ## `ParseFixedPoint` and the grammar -/

/-- `ParseFixedPoint` returns an amount exactly when each part is read, the
    exponent part ends the text, and the end gives that amount. -/
theorem parseFixedPoint_eq_some (val : List Char) (decimals out : Int) :
    parseFixedPoint val decimals = some out ↔
      ∃ s m tz s' m' tz' po es e, parseIntPart (readMinus val).2 = some (s, m, tz) ∧
        parseFracPart s m tz = some (s', m', tz', po) ∧ parseExpPart s' = some ([], es, e) ∧
        finalizeFixedPoint (readMinus val).1 es m' e tz' po decimals = some out := by
  rw [parseFixedPoint]
  generalize readMinus val = p
  obtain ⟨ms, s0⟩ := p
  simp only [Option.bind_eq_bind, Option.bind_eq_some_iff, Prod.exists]
  constructor
  · rintro ⟨s, m, tz, h1, s', m', tz', po, h2, s'', es, e, h3, h4⟩
    split at h4
    · rename_i hs''
      subst hs''
      exact ⟨s, m, tz, s', m', tz', po, es, e, h1, h2, h3, h4⟩
    · cases h4
  · rintro ⟨s, m, tz, s', m', tz', po, es, e, h1, h2, h3, h4⟩
    exact ⟨s, m, tz, h1, s', m', tz', po, h2, [], es, e, h3, by rw [if_pos rfl]; exact h4⟩

/-- A positive mantissa times `10 ^ k` below `10 ^ 18` has `k < 18`. -/
theorem lt_of_mul_pow_lt {m k : Nat} (hm : 0 < m) (h : m * 10 ^ k < 10 ^ 18) : k < 18 := by
  by_contra hk
  have hpow : 10 ^ 18 ≤ 10 ^ k := Nat.pow_le_pow_right (by decide) (by omega)
  have hle : 10 ^ k ≤ m * 10 ^ k := Nat.le_mul_of_pos_left _ hm
  omega

/-- An accepted text is a JSON number, and the amount is its value times
    `10 ^ decimals`, below `10 ^ 18` in magnitude. -/
theorem parseFixedPoint_sound {val : List Char} {decimals out : Int} (h : parseFixedPoint val decimals = some out) :
    ∃ j : JsonNumber, j.render = val ∧ j.value * 10 ^ decimals = out ∧ out.natAbs < 10 ^ 18 := by
  obtain ⟨s, m, tz, s', m', tz', po, es, e, h1, h2, h3, h4⟩ := (parseFixedPoint_eq_some val decimals out).mp h
  obtain ⟨ds, M, hds, hs, rfl, hst, hM, -⟩ := parseIntPart_sound h1
  obtain ⟨fs, hfs, hs', rfl, rfl, rfl, -⟩ := parseFracPart_sound hM h2
  obtain ⟨x, hx, hev⟩ := parseExpPart_sound h3
  rw [finalizeFixedPoint_eq, hev] at h4
  split at h4
  · rename_i hE
    obtain ⟨hE0, -, hlt⟩ := hE
    obtain rfl := Option.some.inj h4
    -- the digits of both parts, stripped
    have hst' : Stripped (strip (M, tz) (fs.map digitValue)).1 (strip (M, tz) (fs.map digitValue)).2
        (JsonNumber.decimal (ds ++ fs)) := by
      rw [JsonNumber.decimal_append]
      exact hst.strip (JsonNumber.digitVals_lt hfs)
    refine ⟨⟨(readMinus val).1, ds, fs, x, hds, hfs⟩, ?_, ?_, ?_⟩
    · -- the text is the parts one after the other
      rw [JsonNumber.render]
      dsimp only
      rw [hx, hs', hs, readMinus_sound]
    · rw [JsonNumber.value_mul_zpow ⟨(readMinus val).1, ds, fs, x, hds, hfs⟩ hst'.value]
      dsimp only
      rw [JsonNumber.signed_mul_zpow _ _ hE0]
    · rw [JsonNumber.natAbs_signed_mul]
      exact hlt
  · cases h4

theorem readMinus_render (j : JsonNumber) :
    readMinus j.render = (j.minus, j.intDigits ++ (JsonNumber.fracText j.fracDigits ++ JsonNumber.expText j.exp)) := by
  rw [JsonNumber.render]
  refine readMinus_complete j.minus fun rest h => ?_
  -- the integer part starts with a digit
  obtain ⟨c, cs, hc⟩ := List.exists_cons_of_ne_nil j.int_wf.ne_nil
  have hdig := j.int_wf.isDigit c (by rw [hc]; exact List.mem_cons_self)
  rw [hc, List.cons_append] at h
  rw [(List.cons.inj h).1] at hdig
  exact absurd hdig (by decide)

/-- A JSON number whose value is not `0` and has fewer than `2 ^ 31`
    characters is accepted when its value times `10 ^ decimals` is an
    integer below `10 ^ 18` in magnitude, and the amount is that integer. -/
theorem parseFixedPoint_complete (j : JsonNumber) {decimals out : Int} (hd0 : 0 ≤ decimals) (hd18 : decimals < 18)
    (hlen : j.render.length < 2 ^ 31) (hv : j.value ≠ 0) (hout : j.value * 10 ^ decimals = out)
    (hlt : out.natAbs < 10 ^ 18) : parseFixedPoint j.render decimals = some out := by
  -- the mantissa without its trailing zeros, computed without the bound
  obtain ⟨M, tz, hst, htz, hint⟩ :=
    parseIntPart_complete j.int_wf (JsonNumber.not_isDigit_after_intDigits j.fracDigits j.exp)
  have hst' : Stripped (strip (M, tz) (j.fracDigits.map digitValue)).1 (strip (M, tz) (j.fracDigits.map digitValue)).2
      (JsonNumber.decimal (j.intDigits ++ j.fracDigits)) := by
    rw [JsonNumber.decimal_append]
    exact hst.strip (JsonNumber.digitVals_lt j.frac_wf)
  have hN : JsonNumber.decimal (j.intDigits ++ j.fracDigits) ≠ 0 := by
    intro h0
    apply hv
    rw [JsonNumber.value, h0, Nat.cast_zero, mul_zero, zero_mul]
  have hlast : (strip (M, tz) (j.fracDigits.map digitValue)).1 % 10 ≠ 0 :=
    hst'.last.resolve_left fun h0 => hN (by rw [← hst'.value, h0, Nat.zero_mul])
  -- the one exponent is not negative, since the amount is an integer
  have hscaled := JsonNumber.value_mul_zpow j hst'.value decimals
  rw [hout] at hscaled
  have hE0 := JsonNumber.nonneg_of_mul_zpow_eq_int hlast (JsonNumber.mul_zpow_eq_int_of_signed hscaled.symm)
  rw [JsonNumber.signed_mul_zpow _ _ hE0, Int.cast_inj] at hscaled
  have habs : (strip (M, tz) (j.fracDigits.map digitValue)).1 *
      10 ^ (JsonNumber.expValue j.exp - j.fracDigits.length + (strip (M, tz) (j.fracDigits.map digitValue)).2 +
        decimals).toNat < 10 ^ 18 := by
    rw [← JsonNumber.natAbs_signed_mul j.minus, ← hscaled]
    exact hlt
  have hpos : 0 < (strip (M, tz) (j.fracDigits.map digitValue)).1 := Nat.pos_of_ne_zero fun h0 => hlast (by rw [h0])
  have hM2 : (strip (M, tz) (j.fracDigits.map digitValue)).1 < 10 ^ 18 :=
    Nat.lt_of_le_of_lt (Nat.le_mul_of_pos_right _ (Nat.pow_pos (by decide))) habs
  have hE18 : JsonNumber.expValue j.exp - j.fracDigits.length + (strip (M, tz) (j.fracDigits.map digitValue)).2 +
      decimals < 18 := by
    have := lt_of_mul_pow_lt hpos habs
    omega
  -- the exponent as written is below `10 ^ 18`, as the text is short
  have hexp : (JsonNumber.expValue j.exp).natAbs < 10 ^ 18 := by
    have htz' := snd_strip_le (M, tz) (j.fracDigits.map digitValue)
    have hl := JsonNumber.length_le_render j
    rw [List.length_map] at htz'
    omega
  obtain ⟨es, e, hexpP, hev⟩ := parseExpPart_complete j.exp hexp
  rw [parseFixedPoint_eq_some, readMinus_render]
  refine ⟨_, _, _, _, _, _, _, es, e, hint (Nat.lt_of_le_of_lt (le_strip (M, tz) _) hM2),
    parseFracPart_complete j.frac_wf (JsonNumber.head_expText j.exp) hM2, hexpP, ?_⟩
  rw [finalizeFixedPoint_eq, hev, if_pos ⟨hE0, hE18, habs⟩, hscaled]

end Revo
