/-
  Revo.Lib.Positional

  Numbers written as digits in a base, most significant first, read the way
  a parser reads them: each digit shifts what was read so far one place and
  adds itself (`value b acc ds`, from the value `acc` of what came before).

    * `value_append`: reading two strings one after the other;
    * `value_eq`: what came before is shifted by the length of the rest;
    * `value_lt`: digits below the base give a value below `b ^ length`;
    * `value_eq_ofDigits`: the same digits least significant first are
      Mathlib's `Nat.ofDigits`.

  The last `r` digits of a number (`lowDigits`) spell it modulo `b ^ r`, and
  digits below the base are the last digits of what they spell.

  And how many digits of one base a number of `n` digits of another needs:
  `pow_le_pow_div_succ` bounds it by a rational ratio `q / p` of their
  logarithms, checked once by comparing `a ^ p` with `c ^ q`.
-/

import Mathlib.Data.BitVec
import Mathlib.Data.Nat.Digits.Lemmas

namespace Positional

variable {b : Nat}

/-- The number with digits `ds` in base `b`, after the digits of `acc`. -/
def value (b acc : Nat) (ds : List Nat) : Nat := ds.foldl (fun n d => b * n + d) acc

@[simp] theorem value_nil (acc : Nat) : value b acc [] = acc := rfl

@[simp] theorem value_cons (acc d : Nat) (ds : List Nat) :
    value b acc (d :: ds) = value b (b * acc + d) ds := rfl

theorem value_append (acc : Nat) (ds ds' : List Nat) : value b acc (ds ++ ds') = value b (value b acc ds) ds' :=
  List.foldl_append

theorem value_concat (acc : Nat) (ds : List Nat) (d : Nat) : value b acc (ds ++ [d]) = b * value b acc ds + d := by
  rw [value_append, value_cons, value_nil]

/-- What came before is shifted by one place for each digit after it. -/
theorem value_eq : ∀ (acc : Nat) (ds : List Nat), value b acc ds = acc * b ^ ds.length + value b 0 ds
  | acc, [] => by rw [value_nil, value_nil, List.length_nil, Nat.pow_zero, Nat.mul_one, Nat.add_zero]
  | acc, d :: ds => by
    rw [value_cons, value_cons, value_eq _ ds, value_eq (b * 0 + d) ds, List.length_cons, Nat.pow_succ]
    -- `(b * acc + d) * b ^ n = acc * (b ^ n * b) + d * b ^ n`
    rw [Nat.mul_zero, Nat.zero_add, Nat.add_mul, Nat.mul_comm b acc, Nat.mul_assoc, Nat.mul_comm b (b ^ _),
      Nat.add_assoc]

theorem le_value (acc : Nat) (ds : List Nat) (hb : 0 < b) : acc ≤ value b acc ds := by
  rw [value_eq]
  have : acc ≤ acc * b ^ ds.length := Nat.le_mul_of_pos_right acc (Nat.pow_pos hb)
  omega

/-- Digits below the base give a number below `b ^ length`. -/
theorem value_lt : ∀ {ds : List Nat}, (∀ d ∈ ds, d < b) → value b 0 ds < b ^ ds.length
  | [], _ => by rw [value_nil, List.length_nil, Nat.pow_zero]; exact Nat.one_pos
  | d :: ds, h => by
    have hd := h d List.mem_cons_self
    have ih := value_lt fun d' hd' => h d' (List.mem_cons_of_mem d hd')
    rw [value_cons, value_eq, List.length_cons, Nat.pow_succ, Nat.mul_zero, Nat.zero_add]
    -- `d * b ^ n + rest < (d + 1) * b ^ n ≤ b ^ n * b`
    calc d * b ^ ds.length + value b 0 ds < d * b ^ ds.length + b ^ ds.length := Nat.add_lt_add_left ih _
      _ = (d + 1) * b ^ ds.length := by rw [Nat.add_mul, Nat.one_mul]
      _ ≤ b * b ^ ds.length := Nat.mul_le_mul_right _ hd
      _ = b ^ ds.length * b := Nat.mul_comm _ _

theorem value_eq_ofDigits (ds : List Nat) : value b 0 ds = Nat.ofDigits b ds.reverse := by
  induction ds using List.reverseRecOn with
  | nil => rfl
  | append_singleton ds d ih =>
    rw [value_concat, ih, List.reverse_append, List.reverse_singleton, List.singleton_append, Nat.ofDigits_cons]
    ring

/-- The digits of `n`, most significant first, have value `n`. -/
theorem value_reverse_digits (n : Nat) : value b 0 (Nat.digits b n).reverse = n := by
  rw [value_eq_ofDigits, List.reverse_reverse, Nat.ofDigits_digits]

/-- Digits below the base, most significant first and not led by a zero,
    are the digits of their value. -/
theorem digits_value (hb : 1 < b) {ds : List Nat} (hlt : ∀ d ∈ ds, d < b) (hhead : ∀ d ∈ ds.head?, d ≠ 0) :
    Nat.digits b (value b 0 ds) = ds.reverse := by
  rw [value_eq_ofDigits]
  refine Nat.digits_ofDigits b hb _ (fun d hd => hlt d (List.mem_reverse.mp hd)) fun hne => ?_
  rw [List.getLast_reverse]
  exact hhead _ (List.head?_eq_some_head _)

/-- The most significant digit is not zero. -/
theorem head?_reverse_digits_ne_zero (b n : Nat) : ∀ d ∈ (Nat.digits b n).reverse.head?, d ≠ 0 := by
  intro d hd
  rw [List.head?_reverse] at hd
  have hne : Nat.digits b n ≠ [] := fun h => by rw [h] at hd; cases hd
  rw [List.getLast?_eq_some_getLast hne, Option.mem_def, Option.some.injEq] at hd
  rw [← hd]
  exact Nat.getLast_digit_ne_zero b (Nat.digits_ne_nil_iff_ne_zero.mp hne)

/-- A buffer of zeros holds `0`. -/
theorem replicate_eq_digitsAppend_zero (size : Nat) : List.replicate size 0 = Nat.digitsAppend b size 0 := by
  rw [Nat.digitsAppend, Nat.digits_zero, List.nil_append, List.length_nil, Nat.sub_zero]

/-- The digits in use of a buffer are the digits of what it holds. -/
theorem take_digitsAppend (size n : Nat) : (Nat.digitsAppend b size n).take (Nat.digits b n).length = Nat.digits b n :=
  List.take_left' rfl

/-- Digits below the base, least significant first, whose value reaches the
    place of the last digit end in a nonzero digit. -/
theorem getLast_ne_zero_of_pow_le (hb : 1 < b) {L : List Nat} (hL : L ≠ []) (hlt : ∀ d ∈ L, d < b)
    (h : b ^ (L.length - 1) ≤ Nat.ofDigits b L) : L.getLast hL ≠ 0 := by
  intro h0
  have hsplit := List.dropLast_append_getLast hL
  rw [h0] at hsplit
  -- a last digit `0` adds nothing, so the value is below its place
  have hval : Nat.ofDigits b L = Nat.ofDigits b L.dropLast := by
    conv_lhs => rw [← hsplit]
    rw [Nat.ofDigits_append, Nat.ofDigits_singleton, Nat.mul_zero, Nat.add_zero]
  have hdrop : Nat.ofDigits b L.dropLast < b ^ L.dropLast.length :=
    Nat.ofDigits_lt_base_pow_length hb fun d hd => hlt d (List.mem_of_mem_dropLast hd)
  rw [List.length_dropLast] at hdrop
  omega

/-! ## A fixed number of digits -/

/-- The last `r` digits of `m` in base `b`, most significant first: digit
    `i` is `m / b ^ (r - 1 - i) % b`. -/
def lowDigits (b r m : Nat) : List Nat := (List.range r).map fun i => m / b ^ (r - 1 - i) % b

theorem length_lowDigits (b r m : Nat) : (lowDigits b r m).length = r := by
  rw [lowDigits, List.length_map, List.length_range]

theorem lowDigits_lt (hb : 0 < b) (r m : Nat) : ∀ d ∈ lowDigits b r m, d < b := by
  intro d hd
  obtain ⟨i, -, rfl⟩ := List.mem_map.mp hd
  exact Nat.mod_lt _ hb

/-- The last digit is the remainder, the others are those of the quotient. -/
theorem lowDigits_succ (b r m : Nat) : lowDigits b (r + 1) m = lowDigits b r (m / b) ++ [m % b] := by
  rw [lowDigits, lowDigits, List.range_succ, List.map_append, List.map_singleton,
    show r + 1 - 1 - r = 0 by omega, Nat.pow_zero, Nat.div_one]
  congr 1
  apply List.map_congr_left
  intro i hi
  have hir : i < r := List.mem_range.mp hi
  -- `m / b / b ^ (r - 1 - i) = m / b ^ (r - i)`
  rw [Nat.div_div_eq_div_mul, ← Nat.pow_succ', Nat.succ_eq_add_one, show r - 1 - i + 1 = r + 1 - 1 - i by omega]

/-- The last `r` digits spell `m` modulo `b ^ r`. -/
theorem value_lowDigits (b r m : Nat) : value b 0 (lowDigits b r m) = m % b ^ r := by
  induction r generalizing m with
  | zero => rw [lowDigits, List.range_zero, List.map_nil, value_nil, Nat.pow_zero, Nat.mod_one]
  | succ r ih => rw [lowDigits_succ, value_concat, ih, Nat.pow_succ', Nat.mod_mul, Nat.add_comm]

/-- Digits below the base are the last digits of their value. -/
theorem lowDigits_value {ds : List Nat} (hlt : ∀ d ∈ ds, d < b) : lowDigits b ds.length (value b 0 ds) = ds := by
  induction ds using List.reverseRecOn with
  | nil => rfl
  | append_singleton ds d ih =>
    have hd : d < b := hlt d (List.mem_append_right _ (List.mem_singleton_self d))
    have hb : 0 < b := Nat.lt_of_le_of_lt (Nat.zero_le d) hd
    have hdiv : (b * value b 0 ds + d) / b = value b 0 ds := by
      rw [Nat.mul_add_div hb, Nat.div_eq_of_lt hd, Nat.add_zero]
    have hmod : (b * value b 0 ds + d) % b = d := by
      rw [Nat.mul_add_mod, Nat.mod_eq_of_lt hd]
    rw [List.length_append, List.length_singleton, lowDigits_succ, value_concat, hdiv, hmod,
      ih fun d' hd' => hlt d' (List.mem_append_left _ hd')]

/-! ## Digit counts across bases -/

/-- If `p` digits of base `a` fit in `q` digits of base `c`, then `n`
    digits of base `a` fit in `n * q / p + 1` of base `c`, for every `n`:
    compare `p`-th powers, `a ^ (n * p) ≤ c ^ (n * q) ≤ c ^ (p * (n * q / p + 1))`. -/
theorem pow_le_pow_div_succ {a c p q : Nat} (hp : 0 < p) (hc : 0 < c) (hpq : a ^ p ≤ c ^ q) (n : Nat) :
    a ^ n ≤ c ^ (n * q / p + 1) := by
  -- `n * q` is below the next multiple of `p` above `p * (n * q / p)`
  have hlt : n * q < p * (n * q / p + 1) :=
    calc n * q = p * (n * q / p) + n * q % p := (Nat.div_add_mod _ _).symm
      _ < p * (n * q / p) + p := Nat.add_lt_add_left (Nat.mod_lt _ hp) _
      _ = p * (n * q / p + 1) := by rw [Nat.mul_add, Nat.mul_one]
  have hpow : (a ^ n) ^ p ≤ (c ^ (n * q / p + 1)) ^ p :=
    calc (a ^ n) ^ p = (a ^ p) ^ n := by rw [← Nat.pow_mul, ← Nat.pow_mul, Nat.mul_comm]
      _ ≤ (c ^ q) ^ n := Nat.pow_le_pow_left hpq n
      _ = c ^ (n * q) := by rw [← Nat.pow_mul, Nat.mul_comm]
      _ ≤ c ^ (p * (n * q / p + 1)) := Nat.pow_le_pow_right hc hlt.le
      _ = (c ^ (n * q / p + 1)) ^ p := by rw [← Nat.pow_mul, Nat.mul_comm]
  exact (Nat.pow_le_pow_iff_left (Nat.pos_iff_ne_zero.mp hp)).mp hpow

end Positional
