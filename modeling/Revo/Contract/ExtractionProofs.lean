/-
  Revo.Contract.ExtractionProofs

  What `extractionRevoTransactions` makes of a transaction's contract
  outputs.

  The converter's stack is shared: the three items below the parameters of
  an `OP_SENDER` output are never popped, and a template slot of
  `MatchContract` accepts a non-push opcode, which then runs on what the
  earlier outputs left.  So a standard output can convert differently after
  another output than alone (`extraction_shared_stack`).

  For outputs written with pushes only, as the wallet builds them
  (`ContractOutput.script`), each run leaves exactly its own items on top of
  the stack, the parser pops only what the output pushed, and what is left
  below changes nothing but the depth check: the loop then converts every
  output as a fresh converter would (`extractionLoop_eq_alone`).  The
  parameters of such an output are the numbers it was built from
  (`params_build`).
-/

import Revo.Contract.Extraction
import Revo.Script.Standard

namespace Revo

/-! ## A standard output read through the shared stack -/

def senderAddr : List UInt8 := List.replicate 20 0x11
def callAddr : List UInt8 := List.replicate 20 0x22

/-- A `CALL_SENDER` output: the sender triple, then version 4, gas limit
    10000, gas price 40, code `[0]` and the receiver. -/
def senderCallScript : CScript :=
  open CScript in
  pushOpcode (pushData (pushData (pushData (pushData (pushData (pushOpcode (pushData (pushData
    (pushData [] (CScriptNum.serialize 1)) senderAddr) [0x30]) OP_SENDER)
    (CScriptNum.serialize 4)) (CScriptNum.serialize 10000)) (CScriptNum.serialize 40)) [0])
    callAddr) OP_CALL

/-- A `CALL` output whose version slot holds `OP_2DROP` instead of a push. -/
def droppingCallScript : CScript :=
  open CScript in
  pushOpcode (pushData (pushData (pushData (pushData (pushOpcode [] OP_2DROP)
    (CScriptNum.serialize 10000)) (CScriptNum.serialize 40)) [0]) callAddr) OP_CALL

def crossVout : List CTxOut := [⟨0, senderCallScript⟩, ⟨0, droppingCallScript⟩]

/-- Both outputs are standard, and the transaction converts: the second
    output's `OP_2DROP` removes the signature and the address the first left,
    and its version is read from the first output's address type.  Alone,
    `OP_2DROP` fails on the empty stack and the conversion is rejected. -/
theorem extraction_shared_stack :
    matchContract true false senderCallScript = some .CALL_SENDER ∧
    matchContract true false droppingCallScript = some .CALL ∧
    (extractionRevoTransactions true (fun _ => 0) 0 0 crossVout).map (·.map (·.map Prod.snd)) =
      some (some [⟨VersionVM.evmDefault, 10000, 40, [0], Address.ofBytes callAddr⟩,
        ⟨VersionVM.fromRaw 1, 10000, 40, [0], Address.ofBytes callAddr⟩]) ∧
    extractionAlone true (fun _ => 0) 0 0 0 crossVout = some none := by
  decide

/-! ## Outputs made of pushes -/

/-- A contract output as the wallet writes it, every parameter a push:
    `[addressType address signature OP_SENDER] version gasLimit gasPrice data
    [receiver] OP_CALL`, or `OP_CREATE` without a receiver. -/
structure ContractOutput where
  senderPart : Option (Valtype × Valtype × Valtype)
  version : Valtype
  gasLimit : Valtype
  gasPrice : Valtype
  data : Valtype
  receiver : Option Valtype
  deriving DecidableEq, Repr

namespace ContractOutput

def senderItems (c : ContractOutput) : List Valtype :=
  match c.senderPart with
  | some (addressType, address, signature) => [addressType, address, signature]
  | none => []

def mainItems (c : ContractOutput) : List Valtype :=
  [c.version, c.gasLimit, c.gasPrice, c.data] ++ c.receiver.toList

/-- Everything the output pushes, in order. -/
def items (c : ContractOutput) : List Valtype := c.senderItems ++ c.mainItems

def opcode (c : ContractOutput) : Opcode := if c.receiver.isSome then OP_CALL else OP_CREATE

/-- The sender triple and `OP_SENDER`, when present. -/
def senderScript (c : ContractOutput) : CScript :=
  if c.senderPart.isSome then CScript.pushOpcode (CScript.pushAll [] c.senderItems) OP_SENDER
  else []

def script (c : ContractOutput) : CScript :=
  CScript.pushOpcode (CScript.pushAll c.senderScript c.mainItems) c.opcode

/-- The parameters of the output's own pushes. -/
def params (c : ContractOutput) : Option EthTransactionParams :=
  (parseEthTXParams c.opcode false c.mainItems.reverse).map Prod.fst

/-- Items within `MAX_SCRIPT_ELEMENT_SIZE` and a script within `MAX_SCRIPT_SIZE`. -/
structure WellSized (c : ContractOutput) : Prop where
  items_le : ∀ b ∈ c.items, b.length ≤ MAX_SCRIPT_ELEMENT_SIZE
  script_le : c.script.length ≤ MAX_SCRIPT_SIZE

theorem opcode_cases (c : ContractOutput) : c.opcode = OP_CREATE ∨ c.opcode = OP_CALL := by
  unfold opcode
  split
  · exact Or.inr rfl
  · exact Or.inl rfl

theorem opcode_gt (c : ContractOutput) : OP_PUSHDATA4 < c.opcode ∧ OP_16 < c.opcode ∧
    c.opcode ∉ disabledOpcodes ∧ c.opcode ≠ OP_SENDER := by
  rcases c.opcode_cases with h | h <;> rw [h] <;> decide

theorem senderItems_length (c : ContractOutput) :
    c.senderItems.length = if c.senderPart.isSome then 3 else 0 := by
  unfold senderItems
  cases c.senderPart with
  | none => rfl
  | some p =>
    obtain ⟨addressType, address, signature⟩ := p
    rfl

theorem mainItems_length (c : ContractOutput) : c.mainItems.length = poppedItems c.opcode := by
  have hne : OP_CREATE ≠ OP_CALL := by decide
  unfold mainItems opcode poppedItems
  cases c.receiver <;> simp [hne]

theorem items_length_le (c : ContractOutput) :
    c.items.length ≤ 3 * (if c.senderPart.isSome then 1 else 0) + 5 := by
  have hp : poppedItems c.opcode ≤ 5 := by
    unfold poppedItems
    split <;> omega
  rw [items, List.length_append, senderItems_length, mainItems_length]
  split <;> omega

theorem script_eq (c : ContractOutput) :
    c.script = c.senderScript ++ (CScript.pushAll [] c.mainItems ++ [c.opcode]) := by
  rw [script, CScript.pushOpcode_eq, pushAll_eq, List.append_assoc]

/-! ### Running the script -/

section Run

variable (outputSender : Bool) (c : ContractOutput) (hc : c.WellSized)
include hc

theorem mainItems_le : ∀ b ∈ c.mainItems, b.length ≤ MAX_SCRIPT_ELEMENT_SIZE :=
  fun b hb => hc.items_le b (List.mem_append_right _ hb)

theorem senderItems_le : ∀ b ∈ c.senderItems, b.length ≤ MAX_SCRIPT_ELEMENT_SIZE :=
  fun b hb => hc.items_le b (List.mem_append_left _ hb)

/-- After the sender part: the parameters are pushed and the contract opcode ends the run. -/
theorem evalLoop_main (decoded : Bool) (stack : List Valtype) (n : Nat) (hn : n ≤ 1)
    (hs : stack.length + c.mainItems.length ≤ MAX_STACK_SIZE) :
    evalLoop outputSender decoded (decode (CScript.pushAll [] c.mainItems ++ [c.opcode])).1 stack n =
      some (true, [c.opcode] :: (c.mainItems.reverse ++ stack)) := by
  obtain ⟨hpush, h16, hdis, _⟩ := c.opcode_gt
  rw [evalLoop_pushAll outputSender decoded c.mainItems _ stack n (c.mainItems_le hc) hs,
    decode_opcode hpush, decode_nil,
    evalLoop_opcode outputSender decoded [] [] _ n h16 hdis (by unfold MAX_OPS_PER_SCRIPT; omega),
    execOp_contract outputSender [] [] _ c.opcode_cases]

theorem decode_script_snd : (decode c.script).2 = true := by
  obtain ⟨hpush, _, _, _⟩ := c.opcode_gt
  have hmain : (decode (CScript.pushAll [] c.mainItems ++ [c.opcode])).2 = true := by
    rw [decode_pushAll_snd _ _ (c.mainItems_le hc), decode_opcode hpush, decode_nil]
  rw [script_eq, senderScript]
  split
  · rw [CScript.pushOpcode_eq, List.append_assoc, List.singleton_append,
      decode_pushAll_snd _ _ (c.senderItems_le hc), decode_opcode (by decide), hmain]
  · rw [List.nil_append, hmain]

/-- `EvalScript` on a pushes-only output: every item on the stack, then the
    rest of the script from the contract opcode on. -/
theorem evalScript_script (hos : c.senderPart.isSome → outputSender) (stack : List Valtype)
    (hs : stack.length + c.items.length ≤ MAX_STACK_SIZE) :
    evalScript outputSender stack c.script = some (true, [c.opcode] :: (c.items.reverse ++ stack)) := by
  have hlen : stack.length + c.senderItems.length + c.mainItems.length ≤ MAX_STACK_SIZE := by
    rw [items, List.length_append] at hs
    omega
  rw [evalScript, if_neg (Nat.not_lt.mpr hc.script_le), decode_script_snd c hc, script_eq, items,
    List.reverse_append, List.append_assoc]
  unfold senderScript
  split
  · -- the sender triple, then `OP_SENDER` as a no-op
    rename_i hsender
    obtain rfl := hos hsender
    have hsize : ¬ (c.senderItems.reverse ++ stack).length > MAX_STACK_SIZE := by
      rw [List.length_append, List.length_reverse]
      omega
    rw [CScript.pushOpcode_eq, List.append_assoc, List.singleton_append,
      evalLoop_pushAll true true c.senderItems _ stack 0 (c.senderItems_le hc) (by omega),
      decode_opcode (by decide),
      evalLoop_opcode true true _ _ _ 0 (by decide) (by decide) (by decide), execOp_sender]
    dsimp only
    rw [if_neg hsize, Nat.zero_add,
      evalLoop_main true c hc true _ 1 (Nat.le_refl 1)
        (by rw [List.length_append, List.length_reverse]; omega)]
  · -- no sender part: nothing is pushed before the parameters
    rename_i hsender
    have hnil : c.senderItems = [] := by
      unfold senderItems
      cases h : c.senderPart with
      | none => rfl
      | some _ => rw [h] at hsender; exact absurd rfl hsender
    rw [List.nil_append, hnil, List.reverse_nil, List.nil_append,
      evalLoop_main outputSender c hc true stack 0 (Nat.zero_le 1) (by rw [hnil] at hlen; omega)]

/-- The script holds no opcode but `OP_SENDER` (with a sender part) and its contract opcode. -/
theorem find_script {op : Opcode} (hop : OP_PUSHDATA4 < op) :
    c.script.find op = (if c.senderPart.isSome ∧ op = OP_SENDER then 1 else 0) +
      (if op = c.opcode then 1 else 0) := by
  obtain ⟨hpush, _, _, _⟩ := c.opcode_gt
  have hmain : ((decode (CScript.pushAll [] c.mainItems ++ [c.opcode])).1.filter
      fun i => i.1 == op).length = if op = c.opcode then 1 else 0 := by
    rw [find_pushAll hop _ _ (c.mainItems_le hc), decode_opcode hpush, decode_nil]
    by_cases h : op = c.opcode
    · rw [if_pos h, h]
      simp
    · rw [if_neg h]
      simp [Ne.symm h]
  rw [CScript.find, script_eq, senderScript]
  split
  · rename_i hsender
    rw [CScript.pushOpcode_eq, List.append_assoc, List.singleton_append,
      find_pushAll hop _ _ (c.senderItems_le hc), decode_opcode (by decide)]
    by_cases h : op = OP_SENDER
    · rw [if_pos ⟨hsender, h⟩, h]
      rw [h] at hmain
      simp [hmain, Nat.add_comm]
    · rw [if_neg (fun h' => h h'.2)]
      simp [Ne.symm h, hmain]
  · rename_i hsender
    rw [if_neg (fun h' => hsender h'.1), List.nil_append, hmain, Nat.zero_add]

theorem hasOpSender_script : c.script.hasOpSender = c.senderPart.isSome := by
  have hne := c.opcode_gt.2.2.2
  rw [CScript.hasOpSender, c.find_script hc (by decide), if_neg (Ne.symm hne)]
  by_cases h : c.senderPart.isSome
  · simp [h]
  · simp [h]

theorem isContract_script (nValue : CAmount) : CTxOut.isContract ⟨nValue, c.script⟩ := by
  have hcs : OP_CREATE ≠ OP_SENDER ∧ OP_CALL ≠ OP_SENDER ∧ OP_CREATE ≠ OP_CALL := by decide
  unfold CTxOut.isContract CScript.hasOpCreate CScript.hasOpCall
  rw [c.find_script hc (by decide), c.find_script hc (by decide)]
  rcases c.opcode_cases with h | h <;> simp [h, hcs]

end Run

/-! ### The converter on a pushes-only output -/

theorem parseEthTXParams_mainItems (c : ContractOutput) :
    parseEthTXParams c.opcode false c.mainItems.reverse = c.params.map fun p => (p, []) := by
  unfold params
  cases h : parseEthTXParams c.opcode false c.mainItems.reverse with
  | none => rfl
  | some r =>
    -- the parser pops all of the output's parameters
    have hrest := parseEthTXParams_drop h
    rw [← mainItems_length, ← List.length_reverse, List.drop_length] at hrest
    obtain ⟨p, rest⟩ := r
    dsimp only at hrest
    rw [hrest]
    rfl

/-- Reading the output's items with anything below them: its own parameters,
    and its sender triple left on the stack. -/
theorem parseEthTXParams_items (c : ContractOutput) (ys : List Valtype) :
    parseEthTXParams c.opcode c.senderPart.isSome (c.items.reverse ++ ys) =
      c.params.map fun p => (p, c.senderItems.reverse ++ ys) := by
  have hmain := c.mainItems_length
  have hdepth : (if c.opcode = OP_CALL then 1 else 0) + correctedStackSize c.senderPart.isSome 4 ≤
      c.mainItems.reverse.length + (c.senderItems.reverse ++ ys).length := by
    rw [List.length_reverse, List.length_append, List.length_reverse, hmain, senderItems_length]
    unfold correctedStackSize poppedItems
    split_ifs <;> omega
  rw [items, List.reverse_append, List.append_assoc,
    parseEthTXParams_append _ _ _ _ (by rw [List.length_reverse, hmain]) hdepth,
    parseEthTXParams_mainItems, Option.map_map]
  rfl

section Convert

variable (outputSender : Bool) (senderOf : Nat → Address) (refundSender : Address)
  (txHash : Hash256)

theorem receiveStack_script (c : ContractOutput) (hc : c.WellSized)
    (hos : c.senderPart.isSome → outputSender) (st : ConverterState)
    (hs : st.stack.length + c.items.length ≤ MAX_STACK_SIZE) :
    receiveStack outputSender st c.script =
      some (some ⟨c.items.reverse ++ st.stack, c.opcode, c.senderPart.isSome⟩) := by
  -- the parameters are on the stack, so the depth check passes
  have hdeep : ¬ ((c.opcode = OP_CREATE ∧
      (c.items.reverse ++ st.stack).length < correctedStackSize c.senderPart.isSome 4) ∨
      (c.opcode = OP_CALL ∧
        (c.items.reverse ++ st.stack).length < correctedStackSize c.senderPart.isSome 5)) := by
    have hmain := c.mainItems_length
    have hne : OP_CREATE ≠ OP_CALL := by decide
    rw [List.length_append, List.length_reverse, items, List.length_append, hmain,
      senderItems_length]
    unfold correctedStackSize poppedItems
    rcases c.opcode_cases with h | h <;> rw [h] <;> split <;> simp [hne] <;> omega
  rw [receiveStack, evalScript_script outputSender c hc hos st.stack hs, Option.bind_some]
  dsimp only
  rw [List.head?_cons, hasOpSender_script c hc]
  dsimp only
  rw [if_neg hdeep]

/-- One pushes-only output on any converter whose stack leaves room for its
    items: the output's own parameters, with its sender triple left above the
    old stack. -/
theorem convertOutput_script (c : ContractOutput) (hc : c.WellSized)
    (hos : c.senderPart.isSome → outputSender) (st : ConverterState)
    (hs : st.stack.length + c.items.length ≤ MAX_STACK_SIZE) (i : Nat) (o : CTxOut)
    (ho : o.scriptPubKey = c.script) :
    convertOutput outputSender senderOf refundSender txHash st i o =
      some (c.params.map fun p => ((createEthTX p o.nValue i (senderOf i) refundSender txHash, p),
        ⟨c.senderItems.reverse ++ st.stack, c.opcode, c.senderPart.isSome⟩)) := by
  rw [convertOutput, ho, receiveStack_script outputSender c hc hos st hs, Option.map_some,
    Option.bind_some]
  dsimp only
  rw [parseEthTXParams_items, Option.map_map]
  rfl

end Convert

end ContractOutput

/-! ## The loop converts pushes-only outputs one by one -/

/-- The number of contract outputs with `OP_SENDER`: each leaves three items
    on the converter's stack. -/
def senderOutputs (vout : List CTxOut) : Nat :=
  (vout.filter fun o => o.isContract && o.scriptPubKey.hasOpSender).length

/-- Every contract output is a well-sized pushes-only output, with
    `OP_SENDER` only where the flag allows it. -/
def PushOutputs (outputSender : Bool) (vout : List CTxOut) : Prop :=
  ∀ o ∈ vout, o.isContract →
    ∃ c : ContractOutput, o.scriptPubKey = c.script ∧ c.WellSized ∧ (c.senderPart.isSome → outputSender)

section Loop

variable (outputSender : Bool) (senderOf : Nat → Address) (refundSender : Address)
  (txHash : Hash256)

/-- The loop with a stack that can hold what the outputs leave on it gives
    each output what a fresh converter gives it.  The induction is on the
    outputs; the stack grows by each sender triple, which the bound on
    `senderOutputs` of the remaining outputs pays for. -/
theorem extractionLoop_eq_alone (vout : List CTxOut) (hform : PushOutputs outputSender vout)
    (i : Nat) (st : ConverterState)
    (hs : st.stack.length + 3 * senderOutputs vout + 5 ≤ MAX_STACK_SIZE) :
    extractionLoop outputSender senderOf refundSender txHash i vout st =
      extractionAlone outputSender senderOf refundSender txHash i vout := by
  induction vout generalizing i st with
  | nil => rw [extractionLoop, extractionAlone]
  | cons o os ih =>
    have hform' : PushOutputs outputSender os := fun o' ho' => hform o' (List.mem_cons_of_mem o ho')
    by_cases ho : o.isContract
    · obtain ⟨c, hscript, hc, hos⟩ := hform o List.mem_cons_self ho
      have hcount : senderOutputs (o :: os) =
          (if c.senderPart.isSome then 1 else 0) + senderOutputs os := by
        unfold senderOutputs
        rw [List.filter_cons, ho, hscript, c.hasOpSender_script hc, Bool.true_and]
        split <;> simp [Nat.add_comm]
      have hitems := c.items_length_le
      have hfresh : ConverterState.fresh.stack.length + c.items.length ≤ MAX_STACK_SIZE := by
        show 0 + c.items.length ≤ MAX_STACK_SIZE
        omega
      rw [extractionLoop, extractionAlone, if_pos ho, if_pos ho,
        c.convertOutput_script outputSender senderOf refundSender txHash hc hos st (by omega) i o hscript,
        c.convertOutput_script outputSender senderOf refundSender txHash hc hos .fresh hfresh i o hscript]
      cases c.params with
      | none => rfl
      | some p =>
        simp only [Option.map_some]
        -- the next output runs on the sender triple above the old stack
        have hnext : (c.senderItems.reverse ++ st.stack).length + 3 * senderOutputs os + 5 ≤
            MAX_STACK_SIZE := by
          rw [List.length_append, List.length_reverse, c.senderItems_length]
          split_ifs at hcount ⊢ <;> omega
        rw [ih hform' (i + 1) ⟨c.senderItems.reverse ++ st.stack, c.opcode, c.senderPart.isSome⟩ hnext]
    · have hcount : senderOutputs (o :: os) = senderOutputs os := by
        unfold senderOutputs
        rw [List.filter_cons, Bool.eq_false_iff.mpr ho, Bool.false_and]
        rfl
      rw [extractionLoop, extractionAlone, if_neg ho, if_neg ho]
      exact ih hform' (i + 1) st (by omega)

end Loop

/-! ## The parameters of a built output -/

/-- `CScript() [<< sender triple << OP_SENDER] << CScriptNum(v) << CScriptNum(gl)
    << CScriptNum(gp) << data [<< receiver] << OP_CALL / OP_CREATE`. -/
def ContractOutput.build (senderPart : Option (Valtype × Valtype × Valtype)) (v gl gp : Nat)
    (data : Valtype) (receiver : Option Address) : ContractOutput :=
  ⟨senderPart, CScriptNum.serialize v, CScriptNum.serialize gl, CScriptNum.serialize gp, data,
    receiver.map Address.asBytes⟩

theorem parseGas_serialize {gl gp : Nat} (hgl : gl ≤ INT64_MAX_U) (hgp : gp ≤ INT64_MAX_U)
    (hprod : gl * gp ≤ INT64_MAX_U) :
    parseGas (CScriptNum.serialize gp) (CScriptNum.serialize gl) = some (gp, gl) := by
  have hmax : INT64_MAX_U < 2 ^ 63 := by decide
  rw [parseGas, CScriptNum.vchToUint64_serialize gp (by omega),
    CScriptNum.vchToUint64_serialize gl (by omega)]
  dsimp only
  rw [if_neg (by omega)]
  -- the division check is the product bound
  have hdiv : ¬ (gp ≠ 0 ∧ gl > INT64_MAX_U / gp) := by
    rintro ⟨hp, hgt⟩
    have hle : gl ≤ INT64_MAX_U / gp := (Nat.le_div_iff_mul_le (Nat.pos_of_ne_zero hp)).mpr hprod
    omega
  rw [if_neg hdiv]

/-- A built output's parameters are the numbers, the code and the receiver it
    was built from. -/
theorem params_build (senderPart : Option (Valtype × Valtype × Valtype)) {v gl gp : Nat}
    (data : Valtype) (receiver : Option Address) (hv : v < 2 ^ 31) (hgl : gl ≤ INT64_MAX_U)
    (hgp : gp ≤ INT64_MAX_U) (hprod : gl * gp ≤ INT64_MAX_U) (hdata : data ≠ []) :
    (ContractOutput.build senderPart v gl gp data receiver).params =
      some ⟨VersionVM.fromRaw v, BitVec.ofNat 256 gl, BitVec.ofNat 256 gp, data, receiver.getD 0⟩ := by
  have hver : (CScriptNum.serialize v).length ≤ 4 :=
    (CScriptNum.serialize_natCast v 3 (by decide) (by omega)).1
  have hcode : ¬ data.length < 1 := by
    have := List.length_pos_of_ne_nil hdata
    omega
  have hmod : v % 2 ^ 32 = v := Nat.mod_eq_of_lt (by omega)
  unfold ContractOutput.params ContractOutput.build ContractOutput.mainItems ContractOutput.opcode
  -- the receiver, if any, is on top; the four parameters follow
  cases receiver with
  | none =>
    simp only [Option.map_none, Option.toList_none, Option.isSome_none, List.append_nil,
      List.reverse_cons, List.reverse_nil, List.nil_append, List.cons_append, Bool.false_eq_true,
      if_false]
    rw [parseEthTXParams, popReceiver, if_neg (by decide)]
    dsimp only
    rw [if_neg (by simp [correctedStackSize]), if_neg hcode, parseGas_serialize hgl hgp hprod]
    dsimp only
    rw [if_neg (by omega), CScriptNum.vchToUint64_serialize v (by omega), Option.map_some,
      Option.map_some, hmod]
    rfl
  | some a =>
    simp only [Option.map_some, Option.toList_some, Option.isSome_some, if_true,
      List.reverse_cons, List.reverse_nil, List.nil_append, List.cons_append]
    rw [parseEthTXParams, popReceiver, if_pos rfl, List.head?_cons, Option.map_some, List.tail_cons]
    dsimp only
    rw [if_neg (by simp [correctedStackSize]), if_neg hcode, parseGas_serialize hgl hgp hprod]
    dsimp only
    rw [if_neg (by omega), CScriptNum.vchToUint64_serialize v (by omega), Option.map_some,
      Option.map_some, hmod, Address.ofBytes_asBytes]
    rfl

/-! ## Independent and exact conversion -/

/-- Pushes-only outputs convert independently: the whole transaction gives
    what converting each output alone gives, as long as the sender triples
    fit on the stack.  A built output converts to the numbers it was built
    from. -/
theorem extraction_independent :
    (∀ (outputSender : Bool) (senderOf : Nat → Address) (refundSender : Address)
        (txHash : Hash256) (vout : List CTxOut),
        PushOutputs outputSender vout → 3 * senderOutputs vout + 5 ≤ MAX_STACK_SIZE →
        extractionRevoTransactions outputSender senderOf refundSender txHash vout =
          extractionAlone outputSender senderOf refundSender txHash 0 vout) ∧
    (∀ (outputSender : Bool) (senderOf : Nat → Address) (refundSender : Address)
        (txHash : Hash256) (i : Nat) (nValue : CAmount)
        (senderPart : Option (Valtype × Valtype × Valtype)) (v gl gp : Nat) (data : Valtype)
        (receiver : Option Address),
        (ContractOutput.build senderPart v gl gp data receiver).WellSized →
        (senderPart.isSome → outputSender) → v < 2 ^ 31 → gl ≤ INT64_MAX_U → gp ≤ INT64_MAX_U →
        gl * gp ≤ INT64_MAX_U → data ≠ [] →
        (convertOutput outputSender senderOf refundSender txHash .fresh i
            ⟨nValue, (ContractOutput.build senderPart v gl gp data receiver).script⟩).map
            (·.map Prod.fst) =
          some (some (createEthTX ⟨VersionVM.fromRaw v, BitVec.ofNat 256 gl, BitVec.ofNat 256 gp,
              data, receiver.getD 0⟩ nValue i (senderOf i) refundSender txHash,
            ⟨VersionVM.fromRaw v, BitVec.ofNat 256 gl, BitVec.ofNat 256 gp, data, receiver.getD 0⟩))) := by
  constructor
  · intro outputSender senderOf refundSender txHash vout hform hs
    exact extractionLoop_eq_alone outputSender senderOf refundSender txHash vout hform 0 .fresh
      (by show 0 + _ + _ ≤ _; omega)
  · intro outputSender senderOf refundSender txHash i nValue senderPart v gl gp data receiver
      hc hos hv hgl hgp hprod hdata
    have hitems := (ContractOutput.build senderPart v gl gp data receiver).items_length_le
    have hfresh : ConverterState.fresh.stack.length +
        (ContractOutput.build senderPart v gl gp data receiver).items.length ≤ MAX_STACK_SIZE := by
      have hmax : MAX_STACK_SIZE = 1000 := rfl
      show 0 + _ ≤ MAX_STACK_SIZE
      split at hitems <;> omega
    rw [ContractOutput.convertOutput_script outputSender senderOf refundSender txHash _ hc hos
      .fresh hfresh i _ rfl, params_build senderPart data receiver hv hgl hgp hprod hdata]
    rfl

/-- A call with a sender part built from numbers, then a create. -/
def builtCall : ContractOutput := ContractOutput.build (some ([1], senderAddr, [0x30])) 4 10000 40 [0] (some 5)
def builtCreate : ContractOutput := ContractOutput.build none 4 50000 10 [0x60, 0x80] none
def builtVout : List CTxOut := [⟨0, builtCall.script⟩, ⟨7, [OP_DUP]⟩, ⟨0, builtCreate.script⟩]

theorem builtCall_wellSized : builtCall.WellSized := ⟨by decide, by decide⟩

theorem builtCreate_wellSized : builtCreate.WellSized := ⟨by decide, by decide⟩

theorem pushOutputs_builtVout : PushOutputs true builtVout := by
  intro o ho _
  simp only [builtVout, List.mem_cons, List.not_mem_nil, or_false] at ho
  rcases ho with rfl | rfl | rfl
  · exact ⟨builtCall, rfl, builtCall_wellSized, fun _ => rfl⟩
  · exact absurd ‹CTxOut.isContract _ = true› (by decide)
  · exact ⟨builtCreate, rfl, builtCreate_wellSized, fun _ => rfl⟩

theorem extraction_independent_built :
    (PushOutputs true builtVout ∧ 3 * senderOutputs builtVout + 5 ≤ MAX_STACK_SIZE ∧
      extractionRevoTransactions true (fun _ => 0) 0 0 builtVout =
        extractionAlone true (fun _ => 0) 0 0 0 builtVout) ∧
    (convertOutput true (fun _ => 0) 0 0 .fresh 0 ⟨0, builtCall.script⟩).map (·.map Prod.fst) =
      some (some (createEthTX ⟨VersionVM.fromRaw 4, 10000, 40, [0], 5⟩ 0 0 0 0 0,
        ⟨VersionVM.fromRaw 4, 10000, 40, [0], 5⟩)) :=
  ⟨⟨pushOutputs_builtVout, by decide,
      extraction_independent.1 true (fun _ => 0) 0 0 builtVout pushOutputs_builtVout (by decide)⟩,
    extraction_independent.2 true (fun _ => 0) 0 0 0 0 (some ([1], senderAddr, [0x30])) 4 10000 40 [0]
      (some 5) builtCall_wellSized (fun _ => rfl) (by decide) (by decide) (by decide) (by decide)
      (by decide)⟩

end Revo
