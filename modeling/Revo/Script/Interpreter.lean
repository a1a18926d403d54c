/-
  Revo.Script.Interpreter

  Reading and running scripts (`script/script.cpp`, `script/interpreter.cpp`).

    * `getOp` is `GetScriptOp`: one instruction, with the bytes it pushes;
    * `decode` reads the instructions one after another, as the loops of
      `EvalScript`, `CScript::Find` and `MatchContract` do, up to the end or
      to the first undecodable instruction;
    * `evalScript` is `EvalScript` for output scripts of contract
      transactions, run on a given stack.  `EvalScript` changes the stack in
      place and, on failure, returns leaving the stack as it was at the
      failing instruction; the result is the returned flag and that stack.

  `evalScript` executes the pushes, `OP_1NEGATE` and `OP_1` to `OP_16`,
  `OP_NOP`, `OP_DROP`, `OP_2DROP`, `OP_DUP`, the disabled opcodes, and Revo's
  `OP_SENDER`, `OP_SPEND`, `OP_CREATE` and `OP_CALL`; it is `none` on a script
  that reaches any other opcode, which this model does not define.  No
  conditional is modelled, so every instruction is executed.  The converter
  runs with `SCRIPT_EXEC_BYTE_CODE`, plus `SCRIPT_OUTPUT_SENDER` (the flag
  `outputSender`) from QIP5 on; `SCRIPT_VERIFY_MINIMALDATA` is not set.
-/

import Revo.Script.ScriptNum

namespace Revo

def MAX_SCRIPT_ELEMENT_SIZE : Nat := 128000
def MAX_OPS_PER_SCRIPT : Nat := 201
def MAX_SCRIPT_SIZE : Nat := 129000
def MAX_STACK_SIZE : Nat := 1000

/-- The size operand of a push opcode `op ≤ OP_PUSHDATA4` and the bytes after it. -/
def pushSize (op : Opcode) (rest : List UInt8) : Option (Nat × List UInt8) :=
  if op < OP_PUSHDATA1 then some (op.toNat, rest)
  else if op = OP_PUSHDATA1 then rest.head?.map fun b => (b.toNat, rest.tail)
  else if op = OP_PUSHDATA2 then
    if rest.length < 2 then none else some (leNat (rest.take 2), rest.drop 2)
  else if rest.length < 4 then none else some (leNat (rest.take 4), rest.drop 4)

/-- `GetScriptOp`: the opcode, the bytes it pushes, and the rest of the script. -/
def getOp : List UInt8 → Option (Opcode × Valtype × List UInt8)
  | [] => none
  | op :: rest =>
    if op ≤ OP_PUSHDATA4 then
      (pushSize op rest).bind fun (n, r) =>
        if r.length < n then none else some (op, r.take n, r.drop n)
    else some (op, [], rest)

/-- `CheckMinimalPush(data, opcode)`: whether a push of `data` used the
    shortest push for it. -/
def checkMinimalPush (data : Valtype) (opcode : Opcode) : Except String Bool :=
  if ¬opcode ≤ OP_PUSHDATA4 then .error "assertion 0 <= opcode && opcode <= OP_PUSHDATA4 failed"
  else if data.length = 0 then .ok (opcode == OP_0)
  -- `OP_1` to `OP_16` and `OP_1NEGATE` push these single bytes
  else if data.length = 1 ∧ 1 ≤ data.getD 0 0 ∧ data.getD 0 0 ≤ 16 then .ok false
  else if data.length = 1 ∧ data.getD 0 0 = 0x81 then .ok false
  else if data.length ≤ 75 then .ok (opcode.toNat == data.length)
  else if data.length ≤ 255 then .ok (opcode == OP_PUSHDATA1)
  else if data.length ≤ 65535 then .ok (opcode == OP_PUSHDATA2)
  else .ok true

/-- An instruction as the loops read it: the opcode, its pushed bytes, and the
    bytes of the script after it. -/
abbrev Instr := Opcode × Valtype × List UInt8

/-- `decode` with `fuel` steps; every instruction takes a byte, so the length
    of the script is enough. -/
def decodeFuel : Nat → List UInt8 → List Instr × Bool
  | _, [] => ([], true)
  | 0, _ :: _ => ([], false)
  | fuel + 1, s@(_ :: _) =>
    match getOp s with
    | none => ([], false)
    | some (op, vch, rest) =>
      ((op, vch, rest) :: (decodeFuel fuel rest).1, (decodeFuel fuel rest).2)

/-- The instructions of a script, and whether reading reached its end
    (`false`: it stopped at an instruction `GetOp` rejects). -/
def decode (s : CScript) : List Instr × Bool := decodeFuel s.length s

/-- `CScript::Find`: how often `op` occurs among the instructions read. -/
def CScript.find (s : CScript) (op : Opcode) : Nat :=
  ((decode s).1.filter fun i => i.1 == op).length

def CScript.hasOpCreate (s : CScript) : Bool := s.find OP_CREATE == 1
def CScript.hasOpCall (s : CScript) : Bool := s.find OP_CALL == 1
def CScript.hasOpSender (s : CScript) : Bool := s.find OP_SENDER == 1

/-! ## Reading pushes back -/

/-- `CScript() << b₁ << ... << bₙ` on top of `s`. -/
def CScript.pushAll (s : CScript) (bs : List Valtype) : CScript := bs.foldl CScript.pushData s

theorem getOp_of_pushSize {op : Opcode} {r b rest : List UInt8} (hop : op ≤ OP_PUSHDATA4)
    (h : pushSize op r = some (b.length, b ++ rest)) : getOp (op :: r) = some (op, b, rest) := by
  rw [getOp, if_pos hop, h]
  show (if (b ++ rest).length < b.length then none else some (op, (b ++ rest).take b.length,
    (b ++ rest).drop b.length)) = _
  rw [if_neg (by rw [List.length_append]; omega), List.take_left' rfl, List.drop_left' rfl]

/-- `GetOp` reads back a push written by `script << b`. -/
theorem getOp_push (b rest : List UInt8) (hb : b.length < 2 ^ 32) :
    ∃ op, op ≤ OP_PUSHDATA4 ∧ getOp (CScript.pushPrefix b ++ b ++ rest) = some (op, b, rest) := by
  have h4 : OP_PUSHDATA4.toNat = 78 := rfl
  unfold CScript.pushPrefix
  by_cases h1 : b.length < OP_PUSHDATA1.toNat
  · -- the length is the opcode
    have h76 : OP_PUSHDATA1.toNat = 76 := rfl
    have hop : (UInt8.ofNat b.length).toNat = b.length := by
      rw [UInt8.toNat_ofNat']
      omega
    refine ⟨UInt8.ofNat b.length, UInt8.le_iff_toNat_le.mpr (by omega), ?_⟩
    rw [if_pos h1, List.singleton_append]
    apply getOp_of_pushSize (UInt8.le_iff_toNat_le.mpr (by omega))
    rw [pushSize, if_pos (UInt8.lt_iff_toNat_lt.mpr (by omega)), hop]
    rfl
  rw [if_neg h1]
  by_cases h2 : b.length ≤ 0xff
  · refine ⟨OP_PUSHDATA1, by decide, ?_⟩
    rw [if_pos h2]
    simp only [List.cons_append, List.nil_append]
    apply getOp_of_pushSize (by decide)
    have hop : (UInt8.ofNat b.length).toNat = b.length := by
      rw [UInt8.toNat_ofNat']
      omega
    rw [pushSize, if_neg (by decide), if_pos rfl]
    simp only [List.head?_cons, List.tail_cons, Option.map_some, hop]
  rw [if_neg h2]
  by_cases h3 : b.length ≤ 0xffff
  · refine ⟨OP_PUSHDATA2, by decide, ?_⟩
    rw [if_pos h3]
    simp only [List.cons_append, List.append_assoc]
    apply getOp_of_pushSize (by decide)
    rw [pushSize, if_neg (by decide), if_neg (by decide), if_pos rfl,
      if_neg (by rw [List.length_append, leBytes_length]; omega),
      List.take_left' (leBytes_length _ _), List.drop_left' (leBytes_length _ _), leNat_leBytes,
      Nat.mod_eq_of_lt (by omega)]
  · refine ⟨OP_PUSHDATA4, by decide, ?_⟩
    rw [if_neg h3]
    simp only [List.cons_append, List.append_assoc]
    apply getOp_of_pushSize (by decide)
    rw [pushSize, if_neg (by decide), if_neg (by decide), if_neg (by decide),
      if_neg (by rw [List.length_append, leBytes_length]; omega),
      List.take_left' (leBytes_length _ _), List.drop_left' (leBytes_length _ _), leNat_leBytes,
      Nat.mod_eq_of_lt (by omega)]

theorem pushSize_length {op : Opcode} {r r' : List UInt8} {n : Nat}
    (h : pushSize op r = some (n, r')) : r'.length ≤ r.length := by
  unfold pushSize at h
  split at h
  · cases h
    exact Nat.le_refl _
  split at h
  · obtain ⟨_, _, h⟩ := Option.map_eq_some_iff.mp h
    cases h
    rw [List.length_tail]
    omega
  split at h
  · split at h
    · cases h
    · cases h
      rw [List.length_drop]
      omega
  · split at h
    · cases h
    · cases h
      rw [List.length_drop]
      omega

/-- Every instruction takes at least its opcode byte. -/
theorem getOp_length {s rest : List UInt8} {op : Opcode} {vch : Valtype}
    (h : getOp s = some (op, vch, rest)) : rest.length < s.length := by
  cases s with
  | nil => cases h
  | cons o r =>
    rw [getOp] at h
    split at h
    · obtain ⟨⟨n, r'⟩, hsize, h⟩ := Option.bind_eq_some_iff.mp h
      dsimp only at h
      split at h
      · cases h
      · cases h
        have hr := pushSize_length hsize
        rw [List.length_drop, List.length_cons]
        omega
    · cases h
      exact Nat.lt_succ_self _

/-- Any fuel at least the script's length reads the same instructions. -/
theorem decodeFuel_eq {n m : Nat} {s : List UInt8} (hn : s.length ≤ n) (hm : s.length ≤ m) :
    decodeFuel n s = decodeFuel m s := by
  induction n generalizing m s with
  | zero =>
    cases s with
    | nil => cases m <;> rfl
    | cons _ _ => simp at hn
  | succ n ih =>
    cases s with
    | nil => cases m <;> rfl
    | cons b r =>
      cases m with
      | zero => simp at hm
      | succ m =>
        rw [decodeFuel, decodeFuel]
        split
        · rfl
        · rename_i op vch rest hget
          have hlt := getOp_length hget
          rw [List.length_cons] at hn hm hlt
          rw [ih (by omega) (show rest.length ≤ m by omega)]

theorem decode_of_getOp {s rest : List UInt8} {op : Opcode} {vch : Valtype}
    (h : getOp s = some (op, vch, rest)) :
    decode s = ((op, vch, rest) :: (decode rest).1, (decode rest).2) := by
  have hlt := getOp_length h
  cases s with
  | nil => cases h
  | cons b r =>
    rw [decode, List.length_cons, decodeFuel, h]
    dsimp only
    rw [decodeFuel_eq (by rw [List.length_cons] at hlt; omega) (Nat.le_refl rest.length)]
    rfl

theorem decode_nil : decode [] = ([], true) := rfl

/-- A single-byte opcode is read as itself. -/
theorem decode_opcode {op : Opcode} (hop : OP_PUSHDATA4 < op) (rest : List UInt8) :
    decode (op :: rest) = ((op, [], rest) :: (decode rest).1, (decode rest).2) :=
  decode_of_getOp (by
    rw [getOp, if_neg (fun h => absurd (UInt8.le_iff_toNat_le.mp h)
      (Nat.not_le.mpr (UInt8.lt_iff_toNat_lt.mp hop)))])

/-- Pushed items are read back as pushes, each with what follows it. -/
theorem decode_push (b rest : List UInt8) (hb : b.length < 2 ^ 32) :
    ∃ op, op ≤ OP_PUSHDATA4 ∧ decode (CScript.pushPrefix b ++ b ++ rest) =
      ((op, b, rest) :: (decode rest).1, (decode rest).2) := by
  obtain ⟨op, hop, hget⟩ := getOp_push b rest hb
  exact ⟨op, hop, decode_of_getOp hget⟩

/-! ## `EvalScript` -/

/-- The opcodes `EvalScript` rejects as disabled (CVE-2010-5137). -/
def disabledOpcodes : List Opcode :=
  [0x7e, 0x7f, 0x80, 0x81, 0x83, 0x84, 0x85, 0x86, 0x8d, 0x8e, 0x95, 0x96, 0x97, 0x98, 0x99]

/-- What one instruction does: go on with a stack, or return. -/
inductive OpResult
  | next (stack : List Valtype)
  | done (ok : Bool) (stack : List Valtype)
  deriving DecidableEq, Repr

/-- One executed instruction, on a stack with its top first; `none` for an
    opcode outside the modelled ones. -/
def execOp (outputSender : Bool) (op : Opcode) (vch : Valtype) (rest : List UInt8)
    (stack : List Valtype) : Option OpResult :=
  if op ≤ OP_PUSHDATA4 then some (.next (vch :: stack))
  else if op = OP_1NEGATE ∨ (OP_1 ≤ op ∧ op ≤ OP_16) then
    some (.next (CScriptNum.serialize ((op.toNat : Int) - (OP_1.toNat - 1)) :: stack))
  else if op = OP_NOP then some (.next stack)
  else if op = OP_DROP then
    match stack with
    | _ :: s => some (.next s)
    | [] => some (.done false stack)
  else if op = OP_2DROP then
    match stack with
    | _ :: _ :: s => some (.next s)
    | _ => some (.done false stack)
  else if op = OP_DUP then
    match stack with
    | x :: s => some (.next (x :: x :: s))
    | [] => some (.done false stack)
  -- `OP_SENDER` is a no-op once QIP5 allows it
  else if op = OP_SENDER then
    if outputSender then some (.next stack) else some (.done false stack)
  else if op = OP_SPEND then some (.done true stack)
  -- the script from the contract opcode on is pushed, and the rest is not run
  else if op = OP_CREATE ∨ op = OP_CALL then some (.done true ((op :: rest) :: stack))
  else none

/-- The loop of `EvalScript` over the decoded instructions, with the count of
    non-push opcodes; `decoded` is whether reading reached the script's end. -/
def evalLoop (outputSender decoded : Bool) : List Instr → List Valtype → Nat →
    Option (Bool × List Valtype)
  | [], stack, _ => some (decoded, stack)
  | i :: is, stack, nOpCount =>
    if i.2.1.length > MAX_SCRIPT_ELEMENT_SIZE then some (false, stack)
    else if i.1 > OP_16 ∧ nOpCount + 1 > MAX_OPS_PER_SCRIPT then some (false, stack)
    else if i.1 ∈ disabledOpcodes then some (false, stack)
    else
      let nOpCount := if i.1 > OP_16 then nOpCount + 1 else nOpCount
      match execOp outputSender i.1 i.2.1 i.2.2 stack with
      | none => none
      | some (.done ok stack) => some (ok, stack)
      | some (.next stack) =>
        if stack.length > MAX_STACK_SIZE then some (false, stack)
        else evalLoop outputSender decoded is stack nOpCount

/-- `EvalScript(stack, script, flags, ...)`: the flag it returns and the stack it leaves. -/
def evalScript (outputSender : Bool) (stack : List Valtype) (script : CScript) :
    Option (Bool × List Valtype) :=
  if script.length > MAX_SCRIPT_SIZE then some (false, stack)
  else evalLoop outputSender (decode script).2 (decode script).1 stack 0

/-! ## Running pushes -/

theorem pushAll_eq (s : CScript) (bs : List Valtype) : s.pushAll bs = s ++ CScript.pushAll [] bs := by
  induction bs generalizing s with
  | nil => rw [CScript.pushAll, CScript.pushAll, List.foldl_nil, List.foldl_nil, List.append_nil]
  | cons b bs ih =>
    rw [CScript.pushAll, CScript.pushAll, List.foldl_cons, List.foldl_cons]
    show (s.pushData b).pushAll bs = s ++ (CScript.pushData [] b).pushAll bs
    rw [ih, ih (CScript.pushData [] b), CScript.pushData_eq, CScript.pushData_eq, List.nil_append]
    simp only [List.append_assoc]

theorem pushAll_cons (b : Valtype) (bs : List Valtype) :
    CScript.pushAll [] (b :: bs) = CScript.pushPrefix b ++ b ++ CScript.pushAll [] bs := by
  show (CScript.pushData [] b).pushAll bs = _
  rw [pushAll_eq, CScript.pushData_eq, List.nil_append]

theorem not_mem_disabledOpcodes {op : Opcode} (h : op ≤ OP_PUSHDATA4) : op ∉ disabledOpcodes := by
  have hall : ∀ x ∈ disabledOpcodes, OP_PUSHDATA4 < x := by simp [disabledOpcodes, OP_PUSHDATA4]
  intro hmem
  exact absurd (UInt8.le_iff_toNat_le.mp h) (Nat.not_le.mpr (UInt8.lt_iff_toNat_lt.mp (hall op hmem)))

theorem execOp_push (outputSender : Bool) {op : Opcode} (vch : Valtype) (rest : List UInt8)
    (stack : List Valtype) (hop : op ≤ OP_PUSHDATA4) :
    execOp outputSender op vch rest stack = some (.next (vch :: stack)) := by
  unfold execOp
  rw [if_pos hop]

/-- Pushing items that fit: each lands on the stack, and the run goes on with
    what follows them. -/
theorem evalLoop_pushAll (outputSender decoded : Bool) (bs : List Valtype) (tail : List UInt8)
    (stack : List Valtype) (n : Nat) (hb : ∀ b ∈ bs, b.length ≤ MAX_SCRIPT_ELEMENT_SIZE)
    (hs : stack.length + bs.length ≤ MAX_STACK_SIZE) :
    evalLoop outputSender decoded (decode (CScript.pushAll [] bs ++ tail)).1 stack n =
      evalLoop outputSender decoded (decode tail).1 (bs.reverse ++ stack) n := by
  induction bs generalizing stack with
  | nil => rw [CScript.pushAll, List.foldl_nil, List.nil_append, List.reverse_nil, List.nil_append]
  | cons b bs ih =>
    have hbmax : b.length ≤ MAX_SCRIPT_ELEMENT_SIZE := hb b List.mem_cons_self
    have hmax : MAX_SCRIPT_ELEMENT_SIZE < 2 ^ 32 := by decide
    obtain ⟨op, hop, hdec⟩ := decode_push b (CScript.pushAll [] bs ++ tail) (by omega)
    rw [pushAll_cons, List.append_assoc, List.append_assoc, ← List.append_assoc (CScript.pushPrefix b),
      hdec]
    -- a push is no counted opcode, never disabled, and adds one item
    have h16 : ¬ op > OP_16 := by
      have h78 := UInt8.le_iff_toNat_le.mp hop
      have h4 : OP_PUSHDATA4.toNat = 78 := rfl
      have h96 : OP_16.toNat = 96 := rfl
      intro h
      have := UInt8.lt_iff_toNat_lt.mp h
      omega
    rw [evalLoop, if_neg (Nat.not_lt.mpr hbmax), if_neg (fun h => h16 h.1),
      if_neg (not_mem_disabledOpcodes hop), if_neg h16]
    dsimp only
    rw [execOp_push outputSender b _ stack hop]
    dsimp only
    rw [List.length_cons] at hs
    rw [if_neg (by rw [List.length_cons]; omega),
      ih (b :: stack) (fun b' hb' => hb b' (List.mem_cons_of_mem b hb')) (by rw [List.length_cons]; omega),
      List.reverse_cons, List.append_assoc, List.singleton_append]

/-- Reading through pushes reaches the end exactly when reading what follows does. -/
theorem decode_pushAll_snd (bs : List Valtype) (tail : List UInt8)
    (hb : ∀ b ∈ bs, b.length ≤ MAX_SCRIPT_ELEMENT_SIZE) :
    (decode (CScript.pushAll [] bs ++ tail)).2 = (decode tail).2 := by
  induction bs with
  | nil => rw [CScript.pushAll, List.foldl_nil, List.nil_append]
  | cons b bs ih =>
    have hmax : MAX_SCRIPT_ELEMENT_SIZE < 2 ^ 32 := by decide
    obtain ⟨op, _, hdec⟩ := decode_push b (CScript.pushAll [] bs ++ tail)
      (by have := hb b List.mem_cons_self; omega)
    rw [pushAll_cons, List.append_assoc, List.append_assoc, ← List.append_assoc (CScript.pushPrefix b),
      hdec]
    exact ih (fun b' hb' => hb b' (List.mem_cons_of_mem b hb'))

/-- Pushes hold no opcode but their own push opcodes. -/
theorem find_pushAll {op : Opcode} (hop : OP_PUSHDATA4 < op) (bs : List Valtype) (tail : List UInt8)
    (hb : ∀ b ∈ bs, b.length ≤ MAX_SCRIPT_ELEMENT_SIZE) :
    ((decode (CScript.pushAll [] bs ++ tail)).1.filter fun i => i.1 == op).length =
      ((decode tail).1.filter fun i => i.1 == op).length := by
  induction bs with
  | nil => rw [CScript.pushAll, List.foldl_nil, List.nil_append]
  | cons b bs ih =>
    have hmax : MAX_SCRIPT_ELEMENT_SIZE < 2 ^ 32 := by decide
    obtain ⟨op', hop', hdec⟩ := decode_push b (CScript.pushAll [] bs ++ tail)
      (by have := hb b List.mem_cons_self; omega)
    rw [pushAll_cons, List.append_assoc, List.append_assoc, ← List.append_assoc (CScript.pushPrefix b),
      hdec]
    have hne : (op' == op) = false := by
      rw [beq_eq_false_iff_ne]
      intro h
      rw [h] at hop'
      exact absurd (UInt8.le_iff_toNat_le.mp hop') (Nat.not_le.mpr (UInt8.lt_iff_toNat_lt.mp hop))
    rw [List.filter_cons_of_neg (by rw [hne]; decide)]
    exact ih (fun b' hb' => hb b' (List.mem_cons_of_mem b hb'))

/-- `OP_SENDER`, allowed by the flag, leaves the stack as it is. -/
theorem execOp_sender (vch : Valtype) (rest : List UInt8) (stack : List Valtype) :
    execOp true OP_SENDER vch rest stack = some (.next stack) := rfl

/-- A contract opcode ends the run, pushing itself and the script after it. -/
theorem execOp_contract (outputSender : Bool) {op : Opcode} (vch : Valtype) (rest : List UInt8)
    (stack : List Valtype) (hop : op = OP_CREATE ∨ op = OP_CALL) :
    execOp outputSender op vch rest stack = some (.done true ((op :: rest) :: stack)) := by
  rcases hop with rfl | rfl <;> rfl

/-- An enabled non-push opcode, within the opcode limit, is counted and run. -/
theorem evalLoop_opcode (outputSender decoded : Bool) {op : Opcode} (rest : List UInt8)
    (is : List Instr) (stack : List Valtype) (n : Nat) (h16 : OP_16 < op)
    (hdis : op ∉ disabledOpcodes) (hn : n + 1 ≤ MAX_OPS_PER_SCRIPT) :
    evalLoop outputSender decoded ((op, [], rest) :: is) stack n =
      match execOp outputSender op [] rest stack with
      | none => none
      | some (.done ok stack) => some (ok, stack)
      | some (.next stack) =>
        if stack.length > MAX_STACK_SIZE then some (false, stack)
        else evalLoop outputSender decoded is stack (n + 1) := by
  have hsize : ¬ ([] : Valtype).length > MAX_SCRIPT_ELEMENT_SIZE := by decide
  rw [evalLoop, if_neg hsize, if_neg (fun h => absurd h.2 (by omega)), if_neg hdis, if_pos h16]

end Revo
