/-
  Revo.Script.Script

  Scripts as byte strings (`CScript`, a prevector of bytes) and the builder
  operators of `script/script.h`: `operator<<(opcodetype)` appends one byte,
  `operator<<(std::vector<unsigned char>)` appends a push of the vector with
  the smallest push opcode for its size (direct, `OP_PUSHDATA1`,
  `OP_PUSHDATA2` with a little-endian 16-bit size, `OP_PUSHDATA4` with a
  32-bit one).

  Opcodes are the byte values of `enum opcodetype`; only the ones the
  modelled code names are declared.
-/

import Mathlib.Data.BitVec

namespace Revo

/-- `opcodetype`: an opcode is the byte it is encoded as. -/
abbrev Opcode := UInt8

/-- `CScript`: the serialized script bytes. -/
abbrev CScript := List UInt8

/-- `valtype`: a stack element. -/
abbrev Valtype := List UInt8

def OP_0 : Opcode := 0x00
def OP_PUSHDATA1 : Opcode := 0x4c
def OP_PUSHDATA2 : Opcode := 0x4d
def OP_PUSHDATA4 : Opcode := 0x4e
def OP_1NEGATE : Opcode := 0x4f
def OP_1 : Opcode := 0x51
def OP_16 : Opcode := 0x60
def OP_NOP : Opcode := 0x61
def OP_RETURN : Opcode := 0x6a
def OP_2DROP : Opcode := 0x6d
def OP_DROP : Opcode := 0x75
def OP_DUP : Opcode := 0x76
def OP_EQUAL : Opcode := 0x87
def OP_EQUALVERIFY : Opcode := 0x88
def OP_HASH160 : Opcode := 0xa9
def OP_CHECKSIG : Opcode := 0xac
def OP_CREATE : Opcode := 0xc1
def OP_CALL : Opcode := 0xc2
def OP_SPEND : Opcode := 0xc3
def OP_SENDER : Opcode := 0xc4

/-- The little-endian bytes of `n`, `width` of them (`WriteLE16`/`WriteLE32`). -/
def leBytes (n : Nat) : Nat → List UInt8
  | 0 => []
  | w + 1 => UInt8.ofNat (n % 256) :: leBytes (n / 256) w

@[simp] theorem leBytes_length (n w : Nat) : (leBytes n w).length = w := by
  induction w generalizing n with
  | zero => rfl
  | succ w ih => simp [leBytes, ih]

/-- Little-endian decoding: the inverse of `leBytes` below `256 ^ width`. -/
def leNat : List UInt8 → Nat
  | [] => 0
  | b :: bs => b.toNat + 256 * leNat bs

theorem leNat_leBytes (n w : Nat) : leNat (leBytes n w) = n % 256 ^ w := by
  induction w generalizing n with
  | zero => rw [leBytes, leNat, Nat.pow_zero, Nat.mod_one]
  | succ w ih =>
    -- the low byte is stored exactly; the rest is the number shifted down one byte
    have hbyte : (UInt8.ofNat (n % 256)).toNat = n % 256 := by
      rw [UInt8.toNat_ofNat', Nat.mod_mod_of_dvd _ (by decide)]
    rw [leBytes, leNat, ih, hbyte, Nat.pow_succ', Nat.mod_mul]

theorem leNat_append (xs ys : List UInt8) :
    leNat (xs ++ ys) = leNat xs + 256 ^ xs.length * leNat ys := by
  induction xs with
  | nil => rw [List.nil_append, leNat, List.length_nil, Nat.pow_zero, Nat.one_mul, Nat.zero_add]
  | cons b bs ih =>
    rw [List.cons_append, leNat, leNat, ih, List.length_cons, Nat.pow_succ, Nat.mul_add,
      Nat.mul_left_comm, ← Nat.add_assoc, Nat.mul_assoc]

theorem leNat_lt (bs : List UInt8) : leNat bs < 256 ^ bs.length := by
  induction bs with
  | nil => rw [leNat, List.length_nil, Nat.pow_zero]; exact Nat.one_pos
  | cons b bs ih =>
    have hb := b.toNat_lt
    rw [leNat, List.length_cons, Nat.pow_succ]
    omega

/-- Reading bytes and writing the number back at the same width gives the
    bytes. -/
theorem leBytes_leNat (bs : List UInt8) : leBytes (leNat bs) bs.length = bs := by
  induction bs with
  | nil => rfl
  | cons b bs ih =>
    have hb := b.toNat_lt
    have hlow : (b.toNat + 256 * leNat bs) % 256 = b.toNat := by omega
    have hhigh : (b.toNat + 256 * leNat bs) / 256 = leNat bs := by omega
    rw [leNat, List.length_cons, leBytes, hlow, hhigh, ih, UInt8.ofNat_toNat]

namespace CScript

/-- `script << opcode`. -/
def pushOpcode (s : CScript) (op : Opcode) : CScript := s ++ [op]

/-- The push prefix `script << b` writes before the bytes of `b`. -/
def pushPrefix (b : Valtype) : List UInt8 :=
  if b.length < OP_PUSHDATA1.toNat then [UInt8.ofNat b.length]
  else if b.length ≤ 0xff then [OP_PUSHDATA1, UInt8.ofNat b.length]
  else if b.length ≤ 0xffff then OP_PUSHDATA2 :: leBytes b.length 2
  else OP_PUSHDATA4 :: leBytes b.length 4

/-- `script << b` for a byte vector `b`. -/
def pushData (s : CScript) (b : Valtype) : CScript := s ++ pushPrefix b ++ b

@[simp] theorem pushOpcode_eq (s : CScript) (op : Opcode) : s.pushOpcode op = s ++ [op] := rfl

theorem pushData_eq (s : CScript) (b : Valtype) : s.pushData b = s ++ pushPrefix b ++ b := rfl

/-- A push of fewer than 76 bytes is its length byte followed by the bytes. -/
theorem pushPrefix_small {b : Valtype} (h : b.length < 76) :
    pushPrefix b = [UInt8.ofNat b.length] := by
  simp [pushPrefix, OP_PUSHDATA1, h]

end CScript

end Revo
