/-
  Revo.Lib.ShiftRegister

  A feedback shift register in a 32-bit word that takes one `s`-bit symbol
  a step: the register moves up one symbol, the new symbol is xor-ed into
  its low end, and the symbol that falls off the top selects a feedback
  word to xor in.  Two laws say all a proof needs of such a step (`Laws`):

    * the input symbol is only xor-ed into the result;
    * a word below `2 ^ (s * r)` xor-ed into the register, clear of the top
      symbol, leaves the feedback alone and only moves up one symbol.

  From them (`run_eq_zeros_xor`): over at most `r + 1` symbols the
  register never feeds back what it was given, so running it over them is
  running it over as many zeros and xor-ing in the number they spell in
  base `2 ^ s`.  This is the fact behind appending a checksum computed from
  zeros.  Bits that do not overlap xor as they add (`mul_two_pow_xor`).
-/

import Revo.Lib.Positional

namespace ShiftRegister

/-- Bits below `2 ^ k` xor-ed into a multiple of `2 ^ k` add. -/
theorem mul_two_pow_xor {d b k : Nat} (hb : b < 2 ^ k) : d * 2 ^ k ^^^ b = d * 2 ^ k + b := by
  have hdiv : (d * 2 ^ k ^^^ b) / 2 ^ k = d := by
    rw [Nat.xor_div_two_pow, Nat.mul_div_cancel _ (Nat.two_pow_pos k), Nat.div_eq_of_lt hb, Nat.xor_zero]
  have hmod : (d * 2 ^ k ^^^ b) % 2 ^ k = b := by
    rw [Nat.xor_mod_two_pow, Nat.mul_mod_left, Nat.mod_eq_of_lt hb, Nat.zero_xor]
  calc d * 2 ^ k ^^^ b = 2 ^ k * ((d * 2 ^ k ^^^ b) / 2 ^ k) + (d * 2 ^ k ^^^ b) % 2 ^ k :=
        (Nat.div_add_mod _ _).symm
    _ = d * 2 ^ k + b := by rw [hdiv, hmod, Nat.mul_comm]

/-- The laws of a register step over `r + 1` symbols of `s` bits. -/
structure Laws (step : UInt32 → UInt8 → UInt32) (s r : Nat) : Prop where
  /-- The input symbol is xor-ed into the result. -/
  input : ∀ c v, step c v = step c 0 ^^^ v.toUInt32
  /-- A word in the low `r` symbols moves up one symbol. -/
  shift : ∀ c x, x < 2 ^ (s * r) → step (c ^^^ UInt32.ofNat x) 0 = step c 0 ^^^ UInt32.ofNat (x * 2 ^ s)

variable {step : UInt32 → UInt8 → UInt32} {s r : Nat}

/-- A word xor-ed into the register before the symbols `ds` comes out
    xor-ed into the result, one symbol higher for each of them, as long as
    it stays clear of the top symbol. -/
theorem run_xor (h : Laws step s r) : ∀ (ds : List UInt8) (c : UInt32) (x : Nat),
    x * 2 ^ (s * ds.length) < 2 ^ (s * (r + 1)) →
      ds.foldl step (c ^^^ UInt32.ofNat x) = ds.foldl step c ^^^ UInt32.ofNat (x * 2 ^ (s * ds.length))
  | [], c, x, _ => by
    rw [List.foldl_nil, List.foldl_nil, List.length_nil, Nat.mul_zero, Nat.pow_zero, Nat.mul_one]
  | d :: ds, c, x, hx => by
    rw [List.length_cons] at hx
    -- `x` is clear of the top symbol now, since it is after one more step
    have hxr : x < 2 ^ (s * r) := by
      have hle : x * 2 ^ s ≤ x * 2 ^ (s * (ds.length + 1)) :=
        Nat.mul_le_mul_left x (Nat.pow_le_pow_right (by decide) (by rw [Nat.mul_add, Nat.mul_one]; omega))
      have hlt : x * 2 ^ s < 2 ^ (s * r) * 2 ^ s := by
        rw [← Nat.pow_add, show s * r + s = s * (r + 1) by rw [Nat.mul_add, Nat.mul_one]]
        omega
      exact Nat.lt_of_mul_lt_mul_right hlt
    have hstep : step (c ^^^ UInt32.ofNat x) d = step c d ^^^ UInt32.ofNat (x * 2 ^ s) := by
      rw [h.input, h.shift c x hxr, h.input c d]
      ac_rfl
    have hpow : x * 2 ^ s * 2 ^ (s * ds.length) = x * 2 ^ (s * (ds.length + 1)) := by
      rw [Nat.mul_assoc, ← Nat.pow_add, Nat.mul_add, Nat.mul_one, Nat.add_comm s]
    rw [List.foldl_cons, List.foldl_cons, hstep, run_xor h ds _ (x * 2 ^ s) (by rw [hpow]; exact hx),
      hpow, List.length_cons]

/-- Up to `r + 1` symbols fed to the register give what as many zeros give,
    with the number they spell in base `2 ^ s` xor-ed in. -/
theorem run_eq_zeros_xor (h : Laws step s r) : ∀ (ds : List UInt8) (c : UInt32), ds.length ≤ r + 1 →
    (∀ d ∈ ds, d.toNat < 2 ^ s) →
      ds.foldl step c = (List.replicate ds.length 0).foldl step c ^^^
        UInt32.ofNat (Positional.value (2 ^ s) 0 (ds.map UInt8.toNat))
  | [], c, _, _ => by
    rw [List.foldl_nil, List.length_nil, List.replicate_zero, List.foldl_nil, List.map_nil,
      Positional.value_nil]
    exact UInt32.xor_zero.symm
  | d :: ds, c, hlen, hd => by
    rw [List.length_cons] at hlen
    have hdlt : d.toNat < 2 ^ s := hd d List.mem_cons_self
    have ih := run_eq_zeros_xor h ds (step c 0) (by omega) fun d' hd' => hd d' (List.mem_cons_of_mem d hd')
    -- the symbols after `d` spell a number below `2 ^ (s * ds.length)`
    have hrest : Positional.value (2 ^ s) 0 (ds.map UInt8.toNat) < 2 ^ (s * ds.length) := by
      have hlt := @Positional.value_lt (2 ^ s) (ds.map UInt8.toNat) fun n hn => by
        obtain ⟨d', hd', rfl⟩ := List.mem_map.mp hn
        exact hd d' (List.mem_cons_of_mem d hd')
      rwa [List.length_map, ← Nat.pow_mul] at hlt
    have hvalue : Positional.value (2 ^ s) 0 ((d :: ds).map UInt8.toNat) =
        d.toNat * 2 ^ (s * ds.length) + Positional.value (2 ^ s) 0 (ds.map UInt8.toNat) := by
      rw [List.map_cons, Positional.value_cons, Positional.value_eq, List.length_map, ← Nat.pow_mul,
        Nat.mul_zero, Nat.zero_add]
    have hfits : d.toNat * 2 ^ (s * ds.length) < 2 ^ (s * (r + 1)) :=
      calc d.toNat * 2 ^ (s * ds.length) < 2 ^ s * 2 ^ (s * ds.length) :=
            Nat.mul_lt_mul_of_pos_right hdlt (Nat.two_pow_pos _)
        _ = 2 ^ (s * (ds.length + 1)) := by rw [← Nat.pow_add, Nat.mul_add, Nat.mul_one, Nat.add_comm]
        _ ≤ 2 ^ (s * (r + 1)) := Nat.pow_le_pow_right (by decide) (Nat.mul_le_mul_left s hlen)
    calc (d :: ds).foldl step c = ds.foldl step (step c 0 ^^^ UInt32.ofNat d.toNat) := by
          rw [List.foldl_cons, h.input, ← UInt32.ofNat_uInt8ToNat]
      _ = ds.foldl step (step c 0) ^^^ UInt32.ofNat (d.toNat * 2 ^ (s * ds.length)) :=
          run_xor h ds _ _ hfits
      _ = (List.replicate (ds.length + 1) 0).foldl step c ^^^
            UInt32.ofNat (Positional.value (2 ^ s) 0 ((d :: ds).map UInt8.toNat)) := by
          rw [ih, List.replicate_succ, List.foldl_cons, hvalue, UInt32.xor_assoc, ← UInt32.ofNat_xor,
            Nat.xor_comm, mul_two_pow_xor hrest]

end ShiftRegister
