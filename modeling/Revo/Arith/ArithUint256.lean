/-
  Revo.Arith.ArithUint256

  The unsigned big integers of `arith_uint256.h` and `arith_uint256.cpp`.
  A `base_uint<BITS>` holds `WIDTH = BITS / 32` limbs of 32 bits, least
  significant first, and every operator is a loop over the limbs, with
  products and carries in `uint64_t`.

    * `operator<<=` and `operator>>=` clear the limbs, then or each old limb
      into the one or two limbs it moves to.
    * `operator+=` and the two `operator*=` carry from limb to limb and drop
      what passes the top limb; `operator-=` adds the two's complement.
    * `operator/=` is shift-and-subtract long division, from the top bit of
      the quotient down, and throws on a zero divisor.
    * `CompareTo` compares from the top limb down; `bits()` is the position
      of the top bit set, plus one.
    * `SetCompact` and `GetCompact` convert to and from the 32-bit compact
      form of a target: an exponent byte `nSize` and a 23-bit mantissa below
      a sign bit, standing for `mantissa * 256 ^ (nSize - 3)`.

  The per-limb loops run over lists of limbs; a `BaseUint BITS` is a list
  of `WIDTH` limbs, and the algorithms built from the loops are written over
  it.  `uint64_t` arithmetic is taken `% 2 ^ 64`.
-/

import Revo.Lib.Fold
import Revo.Lib.Limbs

namespace Revo

/-- `base_uint<BITS>`: the `WIDTH = BITS / 32` limbs `pn`, least significant
    first. -/
structure BaseUint (BITS : Nat) where
  pn : List UInt32
  pn_length : pn.length = BITS / 32
  deriving DecidableEq

/-- `arith_uint256`. -/
abbrev ArithUint256 := BaseUint 256

namespace BaseUint

/-! ## Limb loops -/

/-- Iteration `i` of the loop of `operator<<=`, for a shift of `k` limbs and
    `shift < 32` bits: limb `i` of the old value `a` is or-ed into limbs
    `i + k + 1` and `i + k`. -/
def shiftLeftStep (a : List UInt32) (k shift : Nat) (pn : List UInt32) (i : Nat) : List UInt32 :=
  let pn :=
    if i + k + 1 < a.length ∧ shift ≠ 0 then
      pn.modify (i + k + 1) (· ||| a.getD i 0 >>> UInt32.ofNat (32 - shift))
    else pn
  if i + k < a.length then pn.modify (i + k) (· ||| a.getD i 0 <<< UInt32.ofNat shift) else pn

/-- `operator<<=(unsigned int shift)` on the limbs `a`. -/
def shiftLeftLimbs (a : List UInt32) (shift : Nat) : List UInt32 :=
  (List.range a.length).foldl (shiftLeftStep a (shift / 32) (shift % 32))
    (List.replicate a.length 0)

/-- Iteration `i` of the loop of `operator>>=`: limb `i` of the old value `a`
    is or-ed into limbs `i - k - 1` and `i - k`, where they exist. -/
def shiftRightStep (a : List UInt32) (k shift : Nat) (pn : List UInt32) (i : Nat) : List UInt32 :=
  let pn :=
    if k + 1 ≤ i ∧ shift ≠ 0 then
      pn.modify (i - k - 1) (· ||| a.getD i 0 <<< UInt32.ofNat (32 - shift))
    else pn
  if k ≤ i then pn.modify (i - k) (· ||| a.getD i 0 >>> UInt32.ofNat shift) else pn

/-- `operator>>=(unsigned int shift)` on the limbs `a`. -/
def shiftRightLimbs (a : List UInt32) (shift : Nat) : List UInt32 :=
  (List.range a.length).foldl (shiftRightStep a (shift / 32) (shift % 32))
    (List.replicate a.length 0)

/-- The loop of `operator+=` from the carry of the limbs below; `bs` are the
    limbs of `b` from the same position on. -/
def addLoop (carry : Nat) : List UInt32 → List UInt32 → List UInt32
  | [], _ => []
  | p :: ps, bs =>
    let n := (carry + p.toNat + (bs.headD 0).toNat) % 2 ^ 64
    UInt32.ofNat (n &&& 0xffffffff) :: addLoop (n >>> 32) ps bs.tail

/-- The loop of `operator++`: `while (i < WIDTH && ++pn[i] == 0) i++`. -/
def incLoop : List UInt32 → List UInt32
  | [] => []
  | p :: ps => if p + 1 = 0 then (p + 1) :: incLoop ps else (p + 1) :: ps

/-- The loop of `operator*=(uint32_t b32)` from the carry of the limbs below. -/
def mulU32Loop (b32 : UInt32) (carry : Nat) : List UInt32 → List UInt32
  | [] => []
  | p :: ps =>
    let n := (carry + b32.toNat * p.toNat) % 2 ^ 64
    UInt32.ofNat (n &&& 0xffffffff) :: mulU32Loop b32 (n >>> 32) ps

/-- The inner loop of `operator*=(const base_uint& b)` for the limb `x` of
    the multiplier at `j`: over the limbs `acc` of the product from `j` on,
    it adds `x * b.pn[i]` into `a.pn[i + j]` with carry, while
    `i + j < WIDTH`; `bs` are the limbs of `b` from `i` on. -/
def mulAddLoop (x : UInt32) (carry : Nat) : List UInt32 → List UInt32 → List UInt32
  | [], _ => []
  | ai :: acc, bs =>
    let n := (carry + ai.toNat + x.toNat * (bs.headD 0).toNat) % 2 ^ 64
    UInt32.ofNat (n &&& 0xffffffff) :: mulAddLoop x (n >>> 32) acc bs.tail

/-- `operator*=(const base_uint& b)` on the limbs `pn`: the product `a`
    starts at zero and takes in limb `j` of `pn` at step `j`. -/
def mulLimbs (pn b : List UInt32) : List UInt32 :=
  (List.range pn.length).foldl
    (fun a j => a.take j ++ mulAddLoop (pn.getD j 0) 0 (a.drop j) b) (List.replicate pn.length 0)

/-- The loop of `CompareTo` over the limbs of both numbers from the top
    down. -/
def compareLoop : List UInt32 → List UInt32 → Int
  | p :: ps, b :: bs => if p < b then -1 else if p > b then 1 else compareLoop ps bs
  | _, _ => 0

/-- The inner loop of `bits()` on a limb `x` that is not zero: `nbits + 1`
    for the first `nbits` from `n` down to `1` whose bit is set, and `1`
    when there is none. -/
def bitsLimb (x : UInt32) : Nat → Nat
  | 0 => 1
  | n + 1 => if x &&& 1 <<< UInt32.ofNat (n + 1) ≠ 0 then n + 2 else bitsLimb x n

/-- The outer loop of `bits()` over the limbs below `pos`, from the top
    down. -/
def bitsLoop (pn : List UInt32) : Nat → Nat
  | 0 => 0
  | pos + 1 => if pn.getD pos 0 ≠ 0 then 32 * pos + bitsLimb (pn.getD pos 0) 31 else bitsLoop pn pos

/-! ## Widths of the loops -/

@[simp] theorem length_shiftLeftStep (a : List UInt32) (k shift : Nat) (pn : List UInt32) (i : Nat) :
    (shiftLeftStep a k shift pn i).length = pn.length := by
  unfold shiftLeftStep
  split <;> split <;> simp only [List.length_modify]

@[simp] theorem length_shiftRightStep (a : List UInt32) (k shift : Nat) (pn : List UInt32) (i : Nat) :
    (shiftRightStep a k shift pn i).length = pn.length := by
  unfold shiftRightStep
  split <;> split <;> simp only [List.length_modify]

theorem length_shiftLeftLimbs (a : List UInt32) (shift : Nat) :
    (shiftLeftLimbs a shift).length = a.length := by
  unfold shiftLeftLimbs
  apply Fold.foldl_range_inv (fun _ (pn : List UInt32) => pn.length = a.length) a.length
    List.length_replicate
  intro i pn _ hpn
  rw [length_shiftLeftStep, hpn]

theorem length_shiftRightLimbs (a : List UInt32) (shift : Nat) :
    (shiftRightLimbs a shift).length = a.length := by
  unfold shiftRightLimbs
  apply Fold.foldl_range_inv (fun _ (pn : List UInt32) => pn.length = a.length) a.length
    List.length_replicate
  intro i pn _ hpn
  rw [length_shiftRightStep, hpn]

@[simp] theorem length_addLoop (carry : Nat) (ps bs : List UInt32) :
    (addLoop carry ps bs).length = ps.length := by
  induction ps generalizing carry bs with
  | nil => rfl
  | cons p ps ih => simp only [addLoop, List.length_cons, ih]

@[simp] theorem length_incLoop (ps : List UInt32) : (incLoop ps).length = ps.length := by
  induction ps with
  | nil => rfl
  | cons p ps ih =>
    unfold incLoop
    split <;> simp only [List.length_cons, ih]

@[simp] theorem length_mulU32Loop (b32 : UInt32) (carry : Nat) (ps : List UInt32) :
    (mulU32Loop b32 carry ps).length = ps.length := by
  induction ps generalizing carry with
  | nil => rfl
  | cons p ps ih => simp only [mulU32Loop, List.length_cons, ih]

@[simp] theorem length_mulAddLoop (x : UInt32) (carry : Nat) (acc bs : List UInt32) :
    (mulAddLoop x carry acc bs).length = acc.length := by
  induction acc generalizing carry bs with
  | nil => rfl
  | cons a acc ih => simp only [mulAddLoop, List.length_cons, ih]

theorem length_mulLimbs (pn b : List UInt32) : (mulLimbs pn b).length = pn.length := by
  unfold mulLimbs
  apply Fold.foldl_range_inv (fun _ (a : List UInt32) => a.length = pn.length) pn.length
    List.length_replicate
  intro j a _ ha
  rw [List.length_append, length_mulAddLoop, List.length_take, List.length_drop, ha]
  omega

/-! ## Operators -/

variable {BITS : Nat}

/-- The number the limbs stand for. -/
def toNat (a : BaseUint BITS) : Nat := Limbs.value a.pn

/-- `base_uint()`: every limb zero. -/
def zero : BaseUint BITS := ⟨List.replicate (BITS / 32) 0, List.length_replicate⟩

/-- `base_uint(uint64_t b)`: the low and high halves of `b` in limbs `0`
    and `1`. -/
def ofUInt64 (b : Nat) : BaseUint BITS :=
  ⟨((List.replicate (BITS / 32) 0).set 0 (UInt32.ofNat b)).set 1 (UInt32.ofNat (b >>> 32)),
    by rw [List.length_set, List.length_set, List.length_replicate]⟩

/-- `GetLow64()`: `pn[0] | (uint64_t)pn[1] << 32`. -/
def getLow64 (a : BaseUint BITS) : Nat := (a.pn.getD 0 0).toNat ||| (a.pn.getD 1 0).toNat <<< 32

def shiftLeft (a : BaseUint BITS) (shift : Nat) : BaseUint BITS :=
  ⟨shiftLeftLimbs a.pn shift, by rw [length_shiftLeftLimbs, a.pn_length]⟩

def shiftRight (a : BaseUint BITS) (shift : Nat) : BaseUint BITS :=
  ⟨shiftRightLimbs a.pn shift, by rw [length_shiftRightLimbs, a.pn_length]⟩

def add (a b : BaseUint BITS) : BaseUint BITS :=
  ⟨addLoop 0 a.pn b.pn, by rw [length_addLoop, a.pn_length]⟩

/-- Unary `operator-`: every limb complemented, then `operator++`. -/
def neg (b : BaseUint BITS) : BaseUint BITS :=
  ⟨incLoop (b.pn.map (~~~ ·)), by rw [length_incLoop, List.length_map, b.pn_length]⟩

/-- `operator-=`: `*this += -b`. -/
def sub (a b : BaseUint BITS) : BaseUint BITS := a.add b.neg

def mulU32 (a : BaseUint BITS) (b32 : UInt32) : BaseUint BITS :=
  ⟨mulU32Loop b32 0 a.pn, by rw [length_mulU32Loop, a.pn_length]⟩

def mul (a b : BaseUint BITS) : BaseUint BITS :=
  ⟨mulLimbs a.pn b.pn, by rw [length_mulLimbs, a.pn_length]⟩

/-- `CompareTo`: `-1`, `0` or `1`. -/
def compareTo (a b : BaseUint BITS) : Int := compareLoop a.pn.reverse b.pn.reverse

def bits (a : BaseUint BITS) : Nat := bitsLoop a.pn (BITS / 32)

/-- `pn[shift / 32] |= (1 << (shift & 31))`: bit `shift` of the quotient. -/
def setBit (q : BaseUint BITS) (shift : Nat) : BaseUint BITS :=
  ⟨q.pn.modify (shift / 32) (· ||| 1 <<< UInt32.ofNat (shift &&& 31)),
    by rw [List.length_modify, q.pn_length]⟩

/-- The `while (shift >= 0)` loop of `operator/=`, with `shift + 1` rounds
    left: the remainder `num`, the divisor `div` shifted to bit `shift`, and
    the quotient `q` so far. -/
def divLoop (num div q : BaseUint BITS) : Nat → BaseUint BITS
  | 0 => q
  | shift + 1 =>
    if num.compareTo div ≥ 0 then divLoop (num.sub div) (div.shiftRight 1) (q.setBit shift) shift
    else divLoop num (div.shiftRight 1) q shift

/-- `operator/=(const base_uint& b)`. -/
def div (a b : BaseUint BITS) : Except String (BaseUint BITS) :=
  let numBits := a.bits
  let divBits := b.bits
  if divBits = 0 then .error "Division by zero"
  else if divBits > numBits then .ok zero
  else
    let shift := numBits - divBits
    .ok (divLoop a (b.shiftLeft shift) zero (shift + 1))

end BaseUint

/-! ## Compact targets -/

namespace ArithUint256

/-- `SetCompact(nCompact, pfNegative, pfOverflow)`: the number, and whether
    it is negative and whether it overflows. -/
def setCompact (nCompact : UInt32) : ArithUint256 × Bool × Bool :=
  let nSize := (nCompact >>> 24).toNat
  let nWord := nCompact &&& 0x007fffff
  -- a size up to `3` shifts the mantissa itself down, and its value is what is checked
  let (nWord, v) :=
    if nSize ≤ 3 then
      let nWord := nWord >>> UInt32.ofNat (8 * (3 - nSize))
      (nWord, BaseUint.ofUInt64 nWord.toNat)
    else (nWord, (BaseUint.ofUInt64 nWord.toNat).shiftLeft (8 * (nSize - 3)))
  (v, nWord ≠ 0 && nCompact &&& 0x00800000 ≠ 0,
    nWord ≠ 0 && (nSize > 34 || (nWord > 0xff && nSize > 33) || (nWord > 0xffff && nSize > 32)))

/-- `GetCompact(fNegative)`; a failed `assert` is an error. -/
def getCompact (a : ArithUint256) (fNegative : Bool) : Except String UInt32 :=
  let nSize := (a.bits + 7) / 8
  let nCompact : UInt32 :=
    if nSize ≤ 3 then UInt32.ofNat (a.getLow64 <<< (8 * (3 - nSize)) % 2 ^ 64)
    else UInt32.ofNat (a.shiftRight (8 * (nSize - 3))).getLow64
  -- the `0x00800000` bit is the sign: a mantissa that has it moves down a byte
  let (nCompact, nSize) :=
    if nCompact &&& 0x00800000 ≠ 0 then (nCompact >>> 8, nSize + 1) else (nCompact, nSize)
  if nCompact &&& ~~~0x007fffff ≠ 0 then .error "assertion (nCompact & ~0x007fffff) == 0 failed"
  else if ¬nSize < 256 then .error "assertion nSize < 256 failed"
  else
    let nCompact := nCompact ||| UInt32.ofNat nSize <<< 24
    .ok (nCompact ||| if fNegative && nCompact &&& 0x007fffff ≠ 0 then 0x00800000 else 0)

end ArithUint256

end Revo
