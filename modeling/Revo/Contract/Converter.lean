/-
  Revo.Contract.Converter

  `RevoTxConverter` (`validation.cpp`) turns the contract outputs of a
  transaction into EVM transactions.  `receiveStack` runs an output script
  and leaves its pushes on the member `stack`; `parseEthTXParams` pops the
  receiver (for `OP_CALL`), the code, the gas price, the gas limit and the
  VM version from it; `createEthTX` builds the `RevoTransaction`.

  The member `stack` is a `std::vector` whose `back()` is the top: here it
  is a list with the top first.
-/

import Revo.Script.ScriptNum
import Revo.State.RevoState
import Mathlib.Data.BitVec

namespace Revo

/-- The numerals of the bitfield's widths read these instances instead of a
    proof of their own. -/
instance VersionVM.neZero4 : NeZero 4 := ⟨by decide⟩
instance VersionVM.neZero64 : NeZero 64 := ⟨by decide⟩
instance VersionVM.neZero256 : NeZero 256 := ⟨by decide⟩
instance VersionVM.neZero65536 : NeZero 65536 := ⟨by decide⟩

/-- `VersionVM`: the 32-bit VM version of a contract output, the packed
    bitfield of `revotransaction.h` on a little-endian machine. -/
structure VersionVM where
  format : Fin 4
  rootVM : Fin 64
  vmVersion : Fin 256
  flagOptions : Fin 65536
  deriving DecidableEq, Repr

/-- `VersionVM::fromRaw`: the four bytes of `val` read as the bitfield. -/
def VersionVM.fromRaw (val : Nat) : VersionVM :=
  ⟨⟨val % 4, Nat.mod_lt _ (by decide)⟩, ⟨val / 4 % 64, Nat.mod_lt _ (by decide)⟩,
    ⟨val / 256 % 256, Nat.mod_lt _ (by decide)⟩, ⟨val / 65536 % 65536, Nat.mod_lt _ (by decide)⟩⟩

/-- `VersionVM::GetEVMDefault()`. -/
def VersionVM.evmDefault : VersionVM := ⟨0, 1, 0, 0⟩

/-- `VersionVM::GetNoExec()`. -/
def VersionVM.noExec : VersionVM := ⟨0, 0, 0, 0⟩

/-- `dev::Address(bytes)`: twenty bytes, most significant first; any other
    length gives the zero address. -/
def Address.ofBytes (b : List UInt8) : Address :=
  if h : b.length = 20 then
    ⟨leNat b.reverse, by
      have hlt := leNat_lt b.reverse
      rw [List.length_reverse, h] at hlt
      exact hlt.trans_eq (by decide)⟩
  else 0

theorem Address.ofBytes_asBytes (a : Address) : Address.ofBytes a.asBytes = a := by
  have hlen : a.asBytes.length = 20 := Address.asBytes_length a
  apply Fin.ext
  rw [Address.ofBytes, dif_pos hlen]
  show leNat (leBytes a.val 20).reverse.reverse = a.val
  rw [List.reverse_reverse, leNat_leBytes, Nat.mod_eq_of_lt (a.isLt.trans_eq (by decide))]

structure EthTransactionParams where
  version : VersionVM
  gasLimit : U256
  gasPrice : U256
  code : Valtype
  receiveAddress : Address
  deriving DecidableEq, Repr

/-- `RevoTxConverter::correctedStackSize`: an `OP_SENDER` output leaves three
    more items below the contract parameters. -/
def correctedStackSize (sender : Bool) (size : Nat) : Nat := if sender then size + 3 else size

/-- `INT64_MAX` as the `uint64_t` the parser compares with. -/
def INT64_MAX_U : Nat := 2 ^ 63 - 1

/-- The gas price and gas limit `parseEthTXParams` pops, with its two range checks. -/
def parseGas (gp gl : Valtype) : Option (Nat × Nat) :=
  match CScriptNum.vchToUint64 gp, CScriptNum.vchToUint64 gl with
  | some gasPrice, some gasLimit =>
    if gasPrice > INT64_MAX_U ∨ gasLimit > INT64_MAX_U then none
    -- the product is tracked as a `CAmount` elsewhere
    else if gasPrice ≠ 0 ∧ gasLimit > INT64_MAX_U / gasPrice then none
    else some (gasPrice, gasLimit)
  | _, _ => none

/-- The receiver `parseEthTXParams` pops first for `OP_CALL` (`receiveStack`
    has checked that the stack is deep enough); the zero address otherwise. -/
def popReceiver (opcode : Opcode) (stack : List Valtype) : Option (Address × List Valtype) :=
  if opcode = OP_CALL then stack.head?.map fun a => (Address.ofBytes a, stack.tail)
  else some (0, stack)

/-- `RevoTxConverter::parseEthTXParams` on the converter's `opcode`, `sender`
    and `stack`.  `none` is `return false` or a caught `scriptnum_error`; the
    second component is the stack left for the next output. -/
def parseEthTXParams (opcode : Opcode) (sender : Bool) (stack : List Valtype) :
    Option (EthTransactionParams × List Valtype) :=
  match popReceiver opcode stack with
  | none => none
  | some (receiveAddress, stack) =>
    if stack.length < correctedStackSize sender 4 then none
    else match stack with
      | code :: gp :: gl :: ver :: rest =>
        if code.length < 1 then none
        else match parseGas gp gl with
          | none => none
          | some (gasPrice, gasLimit) =>
            if ver.length > 4 then none
            else (CScriptNum.vchToUint64 ver).map fun v =>
              (⟨VersionVM.fromRaw (v % 2 ^ 32), BitVec.ofNat 256 gasLimit,
                BitVec.ofNat 256 gasPrice, code, receiveAddress⟩, rest)
      | _ => none

/-- `RevoTxConverter::createEthTX` for output `nOut`, worth `nValue`, of the
    transaction with hash `txHash`; `sender` is the output's
    `GetSenderAddress` and `refundSender` the converter's. -/
def createEthTX (etp : EthTransactionParams) (nValue : CAmount) (nOut : Nat)
    (sender refundSender : Address) (txHash : Hash256) : RevoTransaction :=
  { sender := sender, value := BitVec.ofInt 256 nValue, gas := etp.gasLimit,
    gasPrice := etp.gasPrice, hashWith := uintToh256 txHash, nVout := nOut,
    refundSender := refundSender }

/-! ## The gas bounds of an accepted output -/

theorem parseGas_bounds {gp gl : Valtype} {gasPrice gasLimit : Nat}
    (h : parseGas gp gl = some (gasPrice, gasLimit)) :
    gasPrice ≤ INT64_MAX_U ∧ gasLimit ≤ INT64_MAX_U ∧ gasLimit * gasPrice ≤ INT64_MAX_U := by
  unfold parseGas at h
  split at h
  · rename_i p l _ _
    by_cases hrange : p > INT64_MAX_U ∨ l > INT64_MAX_U
    · rw [if_pos hrange] at h
      cases h
    rw [if_neg hrange] at h
    by_cases hprod : p ≠ 0 ∧ l > INT64_MAX_U / p
    · rw [if_pos hprod] at h
      cases h
    rw [if_neg hprod] at h
    cases h
    refine ⟨by omega, by omega, ?_⟩
    -- `gasLimit ≤ INT64_MAX / gasPrice` is the product bound, unless the price is zero
    by_cases hp : gasPrice = 0
    · rw [hp, Nat.mul_zero]
      exact Nat.zero_le _
    · have hle : gasLimit ≤ INT64_MAX_U / gasPrice := by omega
      exact (Nat.le_div_iff_mul_le (Nat.pos_of_ne_zero hp)).mp hle
  · cases h

/-- What `parseEthTXParams` accepts carries the gas of a `parseGas` that succeeded. -/
theorem parseEthTXParams_gasOf {opcode : Opcode} {sender : Bool} {stack rest : List Valtype}
    {etp : EthTransactionParams} (h : parseEthTXParams opcode sender stack = some (etp, rest)) :
    ∃ gp gl gasPrice gasLimit, parseGas gp gl = some (gasPrice, gasLimit) ∧
      etp.gasLimit = BitVec.ofNat 256 gasLimit ∧ etp.gasPrice = BitVec.ofNat 256 gasPrice := by
  unfold parseEthTXParams at h
  split at h
  · cases h
  split at h
  · cases h
  -- past the depth check, the four parameters are on the stack
  split at h
  · split at h
    · cases h
    split at h
    · cases h
    · rename_i gasPrice gasLimit hgas
      split at h
      · cases h
      obtain ⟨v, _, hv⟩ := Option.map_eq_some_iff.mp h
      cases hv
      exact ⟨_, _, gasPrice, gasLimit, hgas, rfl, rfl⟩
  · cases h

/-- The parser's checks: gas limit, gas price and their product fit in an `int64_t`. -/
theorem parseEthTXParams_gas {opcode : Opcode} {sender : Bool} {stack rest : List Valtype}
    {etp : EthTransactionParams} (h : parseEthTXParams opcode sender stack = some (etp, rest)) :
    etp.gasLimit.toNat ≤ INT64_MAX_U ∧ etp.gasPrice.toNat ≤ INT64_MAX_U ∧
      etp.gasLimit.toNat * etp.gasPrice.toNat ≤ INT64_MAX_U := by
  obtain ⟨gp, gl, gasPrice, gasLimit, hgas, hl, hp⟩ := parseEthTXParams_gasOf h
  obtain ⟨hpb, hlb, hprod⟩ := parseGas_bounds hgas
  -- both numbers are far below `2 ^ 256`, so `dev::u256` holds them exactly
  have hsmall : INT64_MAX_U < 2 ^ 256 := by decide
  rw [hl, hp, BitVec.toNat_ofNat, BitVec.toNat_ofNat, Nat.mod_eq_of_lt (by omega),
    Nat.mod_eq_of_lt (by omega)]
  exact ⟨hlb, hpb, hprod⟩

/-- A converted output: parameters that `parseEthTXParams` accepted, and the
    transaction that `createEthTX` built from them. -/
def Converted (e : RevoTransaction × EthTransactionParams) : Prop :=
  (∃ opcode sender stack rest, parseEthTXParams opcode sender stack = some (e.2, rest)) ∧
    ∃ nValue nOut sender refundSender txHash, e.1 = createEthTX e.2 nValue nOut sender refundSender txHash

theorem Converted.gas_bounds {e : RevoTransaction × EthTransactionParams} (h : Converted e) :
    e.1.gas.toNat ≤ INT64_MAX_U ∧ e.1.gasPrice.toNat ≤ INT64_MAX_U ∧
      e.1.gas.toNat * e.1.gasPrice.toNat ≤ INT64_MAX_U := by
  obtain ⟨⟨_, _, _, _, hparse⟩, _, _, _, _, _, hq⟩ := h
  rw [hq]
  exact parseEthTXParams_gas hparse

/-! ## What the parser reads -/

theorem le_correctedStackSize (sender : Bool) (size : Nat) : size ≤ correctedStackSize sender size := by
  unfold correctedStackSize
  split <;> omega

/-- The number of items `parseEthTXParams` pops: the receiver of a call and four parameters. -/
def poppedItems (opcode : Opcode) : Nat := (if opcode = OP_CALL then 1 else 0) + 4

/-- `parseEthTXParams` leaves the stack below the items it pops. -/
theorem parseEthTXParams_drop {opcode : Opcode} {sender : Bool} {stack rest : List Valtype}
    {etp : EthTransactionParams} (h : parseEthTXParams opcode sender stack = some (etp, rest)) :
    rest = stack.drop (poppedItems opcode) := by
  unfold parseEthTXParams at h
  split at h
  · cases h
  rename_i receiveAddress stack' hpop
  -- the stack after the receiver is `stack` itself, or its tail for a call
  have hstack : stack' = stack.drop (if opcode = OP_CALL then 1 else 0) := by
    unfold popReceiver at hpop
    split at hpop
    · rename_i hcall
      obtain ⟨_, _, hp⟩ := Option.map_eq_some_iff.mp hpop
      cases hp
      rw [if_pos hcall, List.drop_one]
    · rename_i hcall
      cases hpop
      rw [if_neg hcall, List.drop_zero]
  split at h
  · cases h
  split at h
  · rename_i code gp gl ver rest'
    split at h
    · cases h
    split at h
    · cases h
    split at h
    · cases h
    obtain ⟨_, _, hv⟩ := Option.map_eq_some_iff.mp h
    cases hv
    rw [poppedItems, ← List.drop_drop, ← hstack]
    rfl
  · cases h

/-- The parameters come from the popped items alone: what lies below them,
    and whether the output had `OP_SENDER`, only decide the depth check. -/
theorem parseEthTXParams_append (opcode : Opcode) (sender : Bool) (xs ys : List Valtype)
    (hxs : poppedItems opcode ≤ xs.length)
    (hdepth : (if opcode = OP_CALL then 1 else 0) + correctedStackSize sender 4 ≤ xs.length + ys.length) :
    parseEthTXParams opcode sender (xs ++ ys) =
      (parseEthTXParams opcode false xs).map fun r => (r.1, r.2 ++ ys) := by
  unfold poppedItems at hxs
  -- pop the receiver from both stacks
  obtain ⟨a, xs', hpop, hpop', hlen, hdepth'⟩ : ∃ a xs', popReceiver opcode (xs ++ ys) = some (a, xs' ++ ys) ∧
      popReceiver opcode xs = some (a, xs') ∧ 4 ≤ xs'.length ∧
      correctedStackSize sender 4 ≤ xs'.length + ys.length := by
    by_cases hcall : opcode = OP_CALL
    · rw [if_pos hcall] at hxs hdepth
      obtain ⟨x, xs', rfl⟩ := List.exists_cons_of_length_pos (show 0 < xs.length by omega)
      rw [List.length_cons] at hxs hdepth
      exact ⟨Address.ofBytes x, xs', by simp [popReceiver, hcall], by simp [popReceiver, hcall],
        by omega, by omega⟩
    · rw [if_neg hcall] at hxs hdepth
      exact ⟨0, xs, by simp [popReceiver, hcall], by simp [popReceiver, hcall], by omega, by omega⟩
  match xs', hlen with
  | code :: gp :: gl :: ver :: rest, _ =>
    have hdeep : ¬ (code :: gp :: gl :: ver :: rest ++ ys).length < correctedStackSize sender 4 := by
      rw [List.length_append]
      omega
    have hfalse : ¬ (code :: gp :: gl :: ver :: rest).length < correctedStackSize false 4 := by
      simp [correctedStackSize]
    rw [parseEthTXParams, parseEthTXParams, hpop, hpop']
    dsimp only
    rw [if_neg hdeep, if_neg hfalse]
    simp only [List.cons_append]
    -- the remaining checks read the same four items on both sides
    split
    · rfl
    split
    · rfl
    split
    · rfl
    · rw [Option.map_map]
      rfl

end Revo
