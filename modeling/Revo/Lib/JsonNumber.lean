/-
  Revo.Lib.JsonNumber

  The number grammar of JSON and the exact value of a number.

    * `JsonNumber` is a number of the grammar: an optional `-`, an integer
      part that is `0` or starts with `1` to `9`, an optional fraction of one
      digit or more, and an optional exponent (`e` or `E`, an optional sign,
      one digit or more).  Its fields say which texts each part may be, so
      a text matches the grammar exactly when it is `j.render` for some `j`.
    * `value`: the rational the number stands for.
    * The character after each part cannot continue it
      (`not_isDigit_after_intDigits`, `head_expText`): a parser that reads
      the parts one after the other stops where the next one starts.
    * `nonneg_of_mul_zpow_eq_int`: a mantissa that does not end in `0` and
      is scaled by `10 ^ E` to an integer has `0 ≤ E`.
-/

import Revo.Lib.Positional
import Mathlib

/-- The exponent of a number: `e` or `E`, an optional sign and one digit or
    more. -/
structure JsonExponent where
  mark : Char
  sign : List Char
  digits : List Char
  mark_wf : mark = 'e' ∨ mark = 'E'
  sign_wf : sign = [] ∨ sign = ['+'] ∨ sign = ['-']
  digits_ne : digits ≠ []
  digits_wf : ∀ c ∈ digits, c.isDigit = true

/-- The integer part of a number: `0`, or a digit `1` to `9` and the digits
    after it. -/
def JsonNumber.IntWf (ds : List Char) : Prop :=
  ds = ['0'] ∨ ∃ c cs, ds = c :: cs ∧ '1' ≤ c ∧ c ≤ '9' ∧ ∀ d ∈ cs, d.isDigit = true

/-- A number of the JSON grammar. -/
structure JsonNumber where
  minus : Bool
  intDigits : List Char
  fracDigits : List Char
  exp : Option JsonExponent
  int_wf : JsonNumber.IntWf intDigits
  frac_wf : ∀ c ∈ fracDigits, c.isDigit = true

namespace JsonNumber

/-! ## Digits -/

/-- The value of a digit. -/
def digitVal (c : Char) : Nat := c.toNat - '0'.toNat

/-- The value of a string of digits. -/
def decimal (ds : List Char) : Nat := Positional.value 10 0 (ds.map digitVal)

theorem isDigit_iff (c : Char) : c.isDigit = true ↔ 48 ≤ c.toNat ∧ c.toNat ≤ 57 := by
  rw [Char.isDigit, Bool.and_eq_true, decide_eq_true_iff, decide_eq_true_iff]
  exact Iff.rfl

theorem digitVal_lt {c : Char} (h : c.isDigit = true) : digitVal c < 10 := by
  have hc := (isDigit_iff c).mp h
  show c.toNat - 48 < 10
  omega

theorem digitVals_lt {ds : List Char} (h : ∀ c ∈ ds, c.isDigit = true) : ∀ d ∈ ds.map digitVal, d < 10 := by
  intro d hd
  obtain ⟨c, hc, rfl⟩ := List.mem_map.mp hd
  exact digitVal_lt (h c hc)

theorem decimal_append (ds fs : List Char) :
    decimal (ds ++ fs) = Positional.value 10 (decimal ds) (fs.map digitVal) := by
  rw [decimal, decimal, List.map_append, Positional.value_append]

/-! ## Texts and values -/

/-- The fraction, with its point when it has digits. -/
def fracText (ds : List Char) : List Char := if ds = [] then [] else '.' :: ds

def expText : Option JsonExponent → List Char
  | none => []
  | some x => x.mark :: (x.sign ++ x.digits)

def expValue : Option JsonExponent → Int
  | none => 0
  | some x => if x.sign = ['-'] then -(decimal x.digits : Int) else decimal x.digits

def render (j : JsonNumber) : List Char :=
  (if j.minus then ['-'] else []) ++ (j.intDigits ++ (fracText j.fracDigits ++ expText j.exp))

def value (j : JsonNumber) : ℚ :=
  (if j.minus then -1 else 1) * decimal (j.intDigits ++ j.fracDigits) *
    10 ^ (expValue j.exp - (j.fracDigits.length : Int))

theorem isDigit_of_one_le {c : Char} (h1 : '1' ≤ c) (h9 : c ≤ '9') : c.isDigit = true := by
  rw [isDigit_iff]
  rw [Char.le_def, UInt32.le_iff_toNat_le] at h1 h9
  exact ⟨Nat.le_trans (by decide) h1, Nat.le_trans h9 (by decide)⟩

theorem IntWf.isDigit {ds : List Char} (hds : IntWf ds) : ∀ c ∈ ds, c.isDigit = true := by
  rcases hds with h | ⟨c, cs, h, h1, h9, hcs⟩
  · rw [h]
    intro c hc
    rw [List.mem_singleton.mp hc]
    rfl
  · rw [h]
    intro d hd
    rcases List.mem_cons.mp hd with rfl | hd
    · exact isDigit_of_one_le h1 h9
    · exact hcs d hd

theorem IntWf.ne_nil {ds : List Char} (hds : IntWf ds) : ds ≠ [] := by
  rcases hds with h | ⟨c, cs, h, -⟩ <;> rw [h] <;> exact List.cons_ne_nil _ _

/-- The exponent starts with its mark, which is neither a point nor a
    digit. -/
theorem head_expText (x : Option JsonExponent) :
    ∀ c, (expText x).head? = some c → c ≠ '.' ∧ c.isDigit = false := by
  intro c hc
  cases x with
  | none => cases hc
  | some x =>
    obtain rfl : x.mark = c := Option.some.inj hc
    rcases x.mark_wf with h | h <;> rw [h] <;> exact ⟨by decide, rfl⟩

/-- The integer part is followed by a point, an exponent or nothing. -/
theorem not_isDigit_after_intDigits (fs : List Char) (x : Option JsonExponent) :
    ∀ c, (fracText fs ++ expText x).head? = some c → c.isDigit = false := by
  intro c hc
  by_cases hfs : fs = []
  · rw [fracText, if_pos hfs, List.nil_append] at hc
    exact (head_expText x c hc).2
  · rw [fracText, if_neg hfs, List.cons_append, List.head?_cons] at hc
    obtain rfl := Option.some.inj hc
    rfl

theorem length_le_render (j : JsonNumber) : j.intDigits.length + j.fracDigits.length ≤ j.render.length := by
  have hfrac : j.fracDigits.length ≤ (fracText j.fracDigits).length := by
    rw [fracText]
    split
    · rename_i h
      rw [h]
    · exact Nat.le_succ _
  rw [render, List.length_append, List.length_append, List.length_append]
  omega

/-! ## Scaling by a power of ten -/

/-- A mantissa that does not end in `0` times `10 ^ E` is an integer only
    when `0 ≤ E`. -/
theorem nonneg_of_mul_zpow_eq_int {m : Nat} {E z : Int} (hm : m % 10 ≠ 0) (h : (m : ℚ) * 10 ^ E = z) : 0 ≤ E := by
  by_contra hE
  obtain ⟨k, hk⟩ : ∃ k : Nat, E = -((k + 1 : Nat) : Int) := ⟨(-E - 1).toNat, by omega⟩
  -- then `m = z * 10 ^ (k + 1)`, a multiple of ten
  have hq : (m : ℚ) = z * 10 ^ (k + 1) := by
    rw [hk, zpow_neg, zpow_natCast] at h
    rw [← h, mul_assoc, inv_mul_cancel₀ (pow_ne_zero _ (by norm_num)), mul_one]
  have hz : (m : Int) = z * 10 ^ (k + 1) := by exact_mod_cast hq
  have hdvd : (10 : Int) ∣ m := ⟨z * 10 ^ k, by rw [hz, pow_succ]; ring⟩
  omega

/-- With `0 ≤ E`, `m * 10 ^ E` is the natural number it looks like. -/
theorem mul_zpow_eq_natCast {m : Nat} {E : Int} (hE : 0 ≤ E) : (m : ℚ) * 10 ^ E = ((m * 10 ^ E.toNat : Nat) : ℚ) := by
  have hpow : (10 : ℚ) ^ E = 10 ^ E.toNat := by
    rw [← zpow_natCast, Int.toNat_of_nonneg hE]
  rw [hpow]
  push_cast
  rfl

/-- The value scaled by `10 ^ decimals`, from the digits' value written as
    `M * 10 ^ tz`: one power of ten for the exponent, the fraction, `tz` and
    `decimals`. -/
theorem value_mul_zpow (j : JsonNumber) {M tz : Nat} (h : M * 10 ^ tz = decimal (j.intDigits ++ j.fracDigits))
    (decimals : Int) :
    j.value * 10 ^ decimals =
      (if j.minus then -1 else 1) * (M : ℚ) * 10 ^ (expValue j.exp - j.fracDigits.length + tz + decimals) := by
  have h10 : (10 : ℚ) ≠ 0 := by norm_num
  rw [value, ← h, zpow_add₀ h10, zpow_add₀ h10, zpow_natCast]
  push_cast
  ring

/-- With `0 ≤ E`, `± M * 10 ^ E` is an integer. -/
theorem signed_mul_zpow (neg : Bool) (M : Nat) {E : Int} (hE : 0 ≤ E) :
    (if neg then -1 else 1) * (M : ℚ) * 10 ^ E = (((if neg then -(M : Int) else M) * 10 ^ E.toNat : Int) : ℚ) := by
  rw [mul_assoc, mul_zpow_eq_natCast hE]
  cases neg with
  | false =>
    rw [if_neg Bool.false_ne_true, if_neg Bool.false_ne_true]
    push_cast
    ring
  | true =>
    rw [if_pos rfl, if_pos rfl]
    push_cast
    ring

theorem natAbs_signed_mul (neg : Bool) (M k : Nat) :
    ((if neg then -(M : Int) else M) * 10 ^ k).natAbs = M * 10 ^ k := by
  cases neg <;> simp [Int.natAbs_mul, Int.natAbs_pow]

/-- `± M * 10 ^ E = z` makes `M * 10 ^ E` an integer too. -/
theorem mul_zpow_eq_int_of_signed {neg : Bool} {M : Nat} {E z : Int}
    (h : (if neg then -1 else 1) * (M : ℚ) * 10 ^ E = z) : (M : ℚ) * 10 ^ E = ((if neg then -z else z : Int) : ℚ) := by
  cases neg with
  | false =>
    rw [if_neg Bool.false_ne_true, one_mul] at h
    exact h
  | true =>
    rw [if_pos rfl] at h
    rw [if_pos rfl, Int.cast_neg, ← h]
    ring

end JsonNumber
