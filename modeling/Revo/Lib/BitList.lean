/-
  Revo.Lib.BitList

  Bits most significant first.  `toBits n k` is the `k` low bits of `n`,
  `ofBits` the number a list of bits stands for, and `ofBytes` the bits of a
  byte string, eight to a byte.  A bit stream that packs numbers into bytes
  is then specified by the list of bits it holds: writing a `k`-bit number
  appends its `toBits`, reading takes `k` bits off the front.

  `riceBits p x` is the Golomb-Rice code of `x` with parameter `p`: the
  quotient `x / 2 ^ p` in unary (that many `true`s and a `false`), then the
  remainder in `p` bits.
-/

import Mathlib.Data.BitVec
import Mathlib.Tactic.Ring

namespace BitList

/-- The number the bits stand for, most significant first. -/
def ofBits (bs : List Bool) : Nat := bs.foldl (fun acc b => 2 * acc + b.toNat) 0

/-- The `k` low bits of `n`, most significant first. -/
def toBits (n : Nat) : Nat → List Bool
  | 0 => []
  | k + 1 => n.testBit k :: toBits n k

/-- The bits of a byte string. -/
def ofBytes (bs : List UInt8) : List Bool := bs.flatMap fun b => toBits b.toNat 8

/-- The Golomb-Rice code of `x` with parameter `p`. -/
def riceBits (p x : Nat) : List Bool := List.replicate (x / 2 ^ p) true ++ false :: toBits x p

/-! ## `ofBits` -/

theorem foldl_ofBits (acc : Nat) (bs : List Bool) :
    bs.foldl (fun acc b => 2 * acc + b.toNat) acc = acc * 2 ^ bs.length + ofBits bs := by
  induction bs generalizing acc with
  | nil => simp [ofBits]
  | cons b bs ih =>
    have hcons : ofBits (b :: bs) = (2 * 0 + b.toNat) * 2 ^ bs.length + ofBits bs := ih _
    rw [List.foldl_cons, ih, hcons, List.length_cons, Nat.pow_succ]
    ring

@[simp] theorem ofBits_nil : ofBits [] = 0 := rfl

theorem ofBits_append (as bs : List Bool) : ofBits (as ++ bs) = ofBits as * 2 ^ bs.length + ofBits bs := by
  rw [ofBits, List.foldl_append, foldl_ofBits]
  rfl

theorem ofBits_cons (b : Bool) (bs : List Bool) : ofBits (b :: bs) = b.toNat * 2 ^ bs.length + ofBits bs := by
  rw [← List.singleton_append, ofBits_append]
  simp [ofBits]

theorem ofBits_lt (bs : List Bool) : ofBits bs < 2 ^ bs.length := by
  induction bs with
  | nil => simp
  | cons b bs ih =>
    rw [ofBits_cons, List.length_cons, Nat.pow_succ]
    calc b.toNat * 2 ^ bs.length + ofBits bs ≤ 1 * 2 ^ bs.length + ofBits bs :=
          Nat.add_le_add_right (Nat.mul_le_mul_right _ (Bool.toNat_le b)) _
      _ < 2 ^ bs.length * 2 := by omega

theorem ofBits_replicate_false (k : Nat) : ofBits (List.replicate k false) = 0 := by
  induction k with
  | zero => rfl
  | succ k ih => rw [List.replicate_succ, ofBits_cons, ih, Bool.toNat_false, Nat.zero_mul]

/-! ## `toBits` -/

@[simp] theorem length_toBits (n k : Nat) : (toBits n k).length = k := by
  induction k with
  | zero => rfl
  | succ k ih => rw [toBits, List.length_cons, ih]

theorem toBits_congr {a b : Nat} {k : Nat} (h : ∀ i < k, a.testBit i = b.testBit i) : toBits a k = toBits b k := by
  induction k with
  | zero => rfl
  | succ k ih =>
    rw [toBits, toBits, h k (by omega), ih fun i hi => h i (by omega)]

theorem toBits_mod (n k : Nat) : toBits (n % 2 ^ k) k = toBits n k := by
  apply toBits_congr
  intro i hi
  rw [Nat.testBit_mod_two_pow, decide_eq_true hi, Bool.true_and]

theorem toBits_mod_of_le {n k m : Nat} (hk : k ≤ m) : toBits (n % 2 ^ m) k = toBits n k := by
  apply toBits_congr
  intro i hi
  rw [Nat.testBit_mod_two_pow, decide_eq_true (by omega), Bool.true_and]

theorem toBits_mod_div {n k j m : Nat} (hk : k + j ≤ m) : toBits (n % 2 ^ m / 2 ^ j) k = toBits (n / 2 ^ j) k := by
  apply toBits_congr
  intro i hi
  rw [Nat.testBit_div_two_pow, Nat.testBit_div_two_pow, Nat.testBit_mod_two_pow, decide_eq_true (by omega),
    Bool.true_and]

/-- The low `j` bits of `n` come after the `k` bits above them. -/
theorem toBits_add (n k j : Nat) : toBits n (k + j) = toBits (n / 2 ^ j) k ++ toBits n j := by
  induction k with
  | zero => rw [Nat.zero_add, toBits, List.nil_append]
  | succ k ih =>
    rw [show k + 1 + j = k + j + 1 by omega, toBits, ih, toBits, Nat.testBit_div_two_pow, List.cons_append]

theorem ofBits_toBits (n k : Nat) : ofBits (toBits n k) = n % 2 ^ k := by
  induction k with
  | zero => rw [Nat.pow_zero, Nat.mod_one]; rfl
  | succ k ih =>
    rw [toBits, ofBits_cons, ih, length_toBits, Nat.toNat_testBit, Nat.mod_pow_succ, Nat.mul_comm, Nat.add_comm]

/-- The bits of `a * 2 ^ j + b` for `b` below `2 ^ j`. -/
theorem toBits_mul_add {a b : Nat} (k j : Nat) (hb : b < 2 ^ j) :
    toBits (a * 2 ^ j + b) (k + j) = toBits a k ++ toBits b j := by
  have hdiv : (a * 2 ^ j + b) / 2 ^ j = a := by
    rw [Nat.add_comm, Nat.add_mul_div_right _ _ (Nat.two_pow_pos _), Nat.div_eq_of_lt hb, Nat.zero_add]
  have hmod : (a * 2 ^ j + b) % 2 ^ j = b := by
    rw [Nat.add_comm, Nat.add_mul_mod_self_right, Nat.mod_eq_of_lt hb]
  rw [toBits_add, hdiv, ← toBits_mod (a * 2 ^ j + b), hmod]

theorem toBits_ofBits (bs : List Bool) : toBits (ofBits bs) bs.length = bs := by
  induction bs with
  | nil => rfl
  | cons b bs ih =>
    rw [List.length_cons, ofBits_cons, show bs.length + 1 = 1 + bs.length by omega,
      toBits_mul_add 1 bs.length (ofBits_lt bs), ih]
    cases b <;> rfl

theorem toBits_ofBits_of_length {bs : List Bool} {k : Nat} (h : bs.length = k) : toBits (ofBits bs) k = bs := by
  rw [← h, toBits_ofBits]

theorem toBits_zero (k : Nat) : toBits 0 k = List.replicate k false := by
  induction k with
  | zero => rfl
  | succ k ih => rw [toBits, ih, Nat.zero_testBit, List.replicate_succ]

theorem toBits_ones {m k : Nat} (hk : k ≤ m) : toBits (2 ^ m - 1) k = List.replicate k true := by
  induction k with
  | zero => rfl
  | succ k ih =>
    rw [toBits, ih (by omega), Nat.testBit_two_pow_sub_one, decide_eq_true (by omega), List.replicate_succ]

/-! ## Bytes -/

@[simp] theorem ofBytes_nil : ofBytes [] = [] := rfl

theorem ofBytes_cons (b : UInt8) (bs : List UInt8) : ofBytes (b :: bs) = toBits b.toNat 8 ++ ofBytes bs := by
  rw [ofBytes, List.flatMap_cons]
  rfl

theorem ofBytes_append (as bs : List UInt8) : ofBytes (as ++ bs) = ofBytes as ++ ofBytes bs := by
  rw [ofBytes, List.flatMap_append]
  rfl

@[simp] theorem length_ofBytes (bs : List UInt8) : (ofBytes bs).length = 8 * bs.length := by
  induction bs with
  | nil => rfl
  | cons b bs ih =>
    rw [ofBytes_cons, List.length_append, length_toBits, ih, List.length_cons]
    omega

/-- A `k`-bit number is determined by its bits. -/
theorem toBits_inj {a b k : Nat} (ha : a < 2 ^ k) (hb : b < 2 ^ k) (h : toBits a k = toBits b k) : a = b := by
  have hab := ofBits_toBits a k
  rw [h, ofBits_toBits, Nat.mod_eq_of_lt hb, Nat.mod_eq_of_lt ha] at hab
  exact hab.symm

/-- A byte is determined by its bits. -/
theorem toBits_byte_inj {a b : UInt8} (h : toBits a.toNat 8 = toBits b.toNat 8) : a = b :=
  UInt8.toNat_inj.mp (toBits_inj a.toNat_lt b.toNat_lt h)

/-- Bytes whose bits start with the bits of `as` start with `as`; the
    induction is on `as`, a byte at a time. -/
theorem ofBytes_eq_append {as bs : List UInt8} {L : List Bool} (h : ofBytes bs = ofBytes as ++ L) :
    ∃ cs, bs = as ++ cs ∧ ofBytes cs = L := by
  induction as generalizing bs with
  | nil => exact ⟨bs, rfl, h⟩
  | cons a as ih =>
    cases bs with
    | nil =>
      have hlen := congrArg List.length h
      rw [ofBytes_nil, List.length_nil, List.length_append, length_ofBytes, List.length_cons] at hlen
      omega
    | cons b bs =>
      rw [ofBytes_cons, ofBytes_cons, List.append_assoc] at h
      obtain ⟨hab, hrest⟩ := List.append_inj h (by rw [length_toBits, length_toBits])
      obtain ⟨cs, hcs, hL⟩ := ih hrest
      exact ⟨cs, by rw [toBits_byte_inj hab, hcs, List.cons_append], hL⟩

theorem ofBits_append_zeros (bs : List Bool) (k : Nat) : ofBits (bs ++ List.replicate k false) = ofBits bs * 2 ^ k := by
  rw [ofBits_append, List.length_replicate, ofBits_replicate_false, Nat.add_zero]

theorem ofBits_eq_zero_iff (bs : List Bool) : ofBits bs = 0 ↔ bs = List.replicate bs.length false := by
  induction bs with
  | nil => simp
  | cons b bs ih =>
    rw [ofBits_cons, List.length_cons, List.replicate_succ, List.cons.injEq, ← ih]
    cases b <;> simp

/-! ## Groups of bits -/

/-- The bits of a sequence of `t`-bit values. -/
def ofGroups (t : Nat) (vs : List Nat) : List Bool := vs.flatMap fun v => toBits v t

@[simp] theorem ofGroups_nil (t : Nat) : ofGroups t [] = [] := rfl

theorem ofGroups_cons (t v : Nat) (vs : List Nat) : ofGroups t (v :: vs) = toBits v t ++ ofGroups t vs := by
  rw [ofGroups, List.flatMap_cons]
  rfl

theorem ofGroups_append (t : Nat) (as bs : List Nat) : ofGroups t (as ++ bs) = ofGroups t as ++ ofGroups t bs := by
  rw [ofGroups, List.flatMap_append]
  rfl

@[simp] theorem length_ofGroups (t : Nat) (vs : List Nat) : (ofGroups t vs).length = t * vs.length := by
  induction vs with
  | nil => rfl
  | cons v vs ih =>
    rw [ofGroups_cons, List.length_append, length_toBits, ih, List.length_cons, Nat.mul_succ, Nat.add_comm]

theorem ofGroups_replicate_zero (t k : Nat) : ofGroups t (List.replicate k 0) = List.replicate (t * k) false := by
  induction k with
  | zero => rfl
  | succ k ih => rw [List.replicate_succ, ofGroups_cons, ih, toBits_zero, ← List.replicate_add, Nat.mul_succ, Nat.add_comm]

/-- A sequence of `t`-bit values is determined by its bits; the induction
    is on the sequence, a group at a time. -/
theorem ofGroups_inj {t : Nat} (ht : 0 < t) {as bs : List Nat} (ha : ∀ v ∈ as, v < 2 ^ t)
    (hb : ∀ v ∈ bs, v < 2 ^ t) (h : ofGroups t as = ofGroups t bs) : as = bs := by
  induction as generalizing bs with
  | nil =>
    have hlen := congrArg List.length h
    rw [ofGroups_nil, List.length_nil, length_ofGroups] at hlen
    have hbs : bs.length = 0 := (Nat.mul_eq_zero.mp hlen.symm).resolve_left (by omega)
    exact (List.eq_nil_of_length_eq_zero hbs).symm
  | cons a as ih =>
    cases bs with
    | nil =>
      have hlen := congrArg List.length h
      rw [ofGroups_nil, List.length_nil, length_ofGroups, List.length_cons] at hlen
      exact absurd hlen (Nat.mul_ne_zero (by omega) (by omega))
    | cons b bs =>
      rw [ofGroups_cons, ofGroups_cons] at h
      obtain ⟨hab, hrest⟩ := List.append_inj h (by rw [length_toBits, length_toBits])
      rw [toBits_inj (ha a List.mem_cons_self) (hb b List.mem_cons_self) hab,
        ih (fun v hv => ha v (List.mem_cons_of_mem a hv)) (fun v hv => hb v (List.mem_cons_of_mem b hv)) hrest]

theorem length_riceBits (p x : Nat) : (riceBits p x).length = x / 2 ^ p + 1 + p := by
  rw [riceBits, List.length_append, List.length_replicate, List.length_cons, length_toBits]
  omega

end BitList
