/-
  Revo.Script.SenderSigProofs

  A script read up to an opcode is the bytes of the instructions before it,
  one after another, followed by the rest (`ScriptOp.join`).  The loop of
  `ReplaceParam` is stated over that split in both directions
  (`replaceParamLoop_join`, `replaceParamLoop_eq_some`): it replaces one of
  those instructions by a push.  A push is again an instruction other than
  `findOp`, so after a replacement the same instructions are read before
  the same `findOp`, and

    * replacing twice is replacing once (`replaceParam_twice`),
    * the count of `findOp` does not change (`find_replaceParam`),
    * the script without its sender signature does not depend on it, and
      `SignatureHashOutput` does not change when an output with one
      `OP_SENDER` gets its sender signature (`signatureHashOutput_setOutput`).
-/

import Revo.Script.SenderSig
import Revo.Lib.Lists

namespace Revo

open CScript

/-! ## Instructions as byte strings -/

/-- `pushSize op` reads a fixed number of bytes, the size operand. -/
theorem pushSize_fixed (op : Opcode) : ∃ (w : Nat) (f : List UInt8 → Nat), ∀ r,
    pushSize op r = if r.length < w then none else some (f (r.take w), r.drop w) := by
  by_cases h1 : op < OP_PUSHDATA1
  · refine ⟨0, fun _ => op.toNat, fun r => ?_⟩
    rw [pushSize, if_pos h1, if_neg (Nat.not_lt_zero _), List.drop_zero]
  by_cases h2 : op = OP_PUSHDATA1
  · refine ⟨1, fun hdr => (hdr.headD 0).toNat, fun r => ?_⟩
    rw [pushSize, if_neg h1, if_pos h2]
    cases r with
    | nil => rfl
    | cons b r => rfl
  by_cases h3 : op = OP_PUSHDATA2
  · exact ⟨2, leNat, fun r => by rw [pushSize, if_neg h1, if_neg h2, if_pos h3]⟩
  · exact ⟨4, leNat, fun r => by rw [pushSize, if_neg h1, if_neg h2, if_neg h3]⟩

/-- The size operand is read alike whatever follows it. -/
theorem pushSize_split {op : Opcode} {r r' : List UInt8} {n : Nat} (h : pushSize op r = some (n, r')) :
    ∃ hdr, r = hdr ++ r' ∧ ∀ t, pushSize op (hdr ++ t) = some (n, t) := by
  obtain ⟨w, f, hf⟩ := pushSize_fixed op
  rw [hf] at h
  split at h
  · cases h
  · rename_i hw
    cases h
    have hlen : (r.take w).length = w := by rw [List.length_take]; omega
    refine ⟨r.take w, (List.take_append_drop w r).symm, fun t => ?_⟩
    rw [hf, if_neg (by rw [List.length_append]; omega), List.take_left' hlen, List.drop_left' hlen]

/-- The bytes of one instruction, with the opcode and the push `getOp` reads
    from them whatever follows. -/
structure ScriptOp where
  bytes : List UInt8
  opcode : Opcode
  vch : Valtype
  reads : ∀ t, getOp (bytes ++ t) = some (opcode, vch, t)

namespace ScriptOp

/-- The instructions `ops` written one after another. -/
def join (ops : List ScriptOp) : List UInt8 := (ops.map bytes).flatten

@[simp] theorem join_nil : join [] = [] := rfl

@[simp] theorem join_cons (o : ScriptOp) (ops : List ScriptOp) : join (o :: ops) = o.bytes ++ join ops := rfl

theorem join_append (ops ops' : List ScriptOp) : join (ops ++ ops') = join ops ++ join ops' := by
  rw [join, List.map_append, List.flatten_append]
  rfl

theorem bytes_ne_nil (o : ScriptOp) : o.bytes ≠ [] := by
  have h := getOp_length (o.reads [])
  rw [List.append_nil] at h
  exact List.ne_nil_of_length_pos h

/-- Each instruction takes a byte. -/
theorem length_le_join (ops : List ScriptOp) : ops.length ≤ (join ops).length := by
  induction ops with
  | nil => exact Nat.le_refl 0
  | cons o ops ih =>
    have ho := List.length_pos_iff.mpr o.bytes_ne_nil
    rw [join_cons, List.length_append, List.length_cons]
    omega

/-- What `getOp` reads off a script is an instruction's bytes. -/
theorem ofGetOp {s rest : List UInt8} {op : Opcode} {vch : Valtype}
    (h : getOp s = some (op, vch, rest)) :
    ∃ o : ScriptOp, o.opcode = op ∧ o.vch = vch ∧ s = o.bytes ++ rest := by
  cases s with
  | nil => cases h
  | cons b r =>
    rw [getOp] at h
    by_cases hb : b ≤ OP_PUSHDATA4
    · rw [if_pos hb] at h
      obtain ⟨⟨n, r'⟩, hsize, h⟩ := Option.bind_eq_some_iff.mp h
      dsimp only at h
      split at h
      · cases h
      · rename_i hn
        obtain ⟨rfl, rfl, rfl⟩ : b = op ∧ r'.take n = vch ∧ r'.drop n = rest := by
          simpa only [Option.some.injEq, Prod.mk.injEq] using h
        obtain ⟨hdr, rfl, hread⟩ := pushSize_split hsize
        have hlen : (r'.take n).length = n := by rw [List.length_take]; omega
        -- the instruction is the opcode, the size operand and the `n` bytes pushed
        refine ⟨⟨b :: (hdr ++ r'.take n), b, r'.take n, fun t => ?_⟩, rfl, rfl, ?_⟩
        · rw [List.cons_append, List.append_assoc]
          exact getOp_of_pushSize hb (by rw [hread, hlen])
        · rw [List.cons_append, List.append_assoc, List.take_append_drop]
    · rw [if_neg hb] at h
      obtain ⟨rfl, rfl, rfl⟩ : b = op ∧ ([] : Valtype) = vch ∧ r = rest := by
        simpa only [Option.some.injEq, Prod.mk.injEq] using h
      exact ⟨⟨[b], b, [], fun t => by rw [List.singleton_append, getOp, if_neg hb]⟩, rfl, rfl, rfl⟩

/-- `script << a` writes one push instruction. -/
theorem exists_push {a : Valtype} (ha : a.length < 2 ^ 32) :
    ∃ o : ScriptOp, o.bytes = pushPrefix a ++ a ∧ o.vch = a ∧ o.opcode ≤ OP_PUSHDATA4 := by
  obtain ⟨op, hop, hget⟩ := getOp_push a [] ha
  obtain ⟨o, rfl, rfl, hs⟩ := ofGetOp hget
  rw [List.append_nil, List.append_nil] at hs
  exact ⟨o, hs.symm, rfl, hop⟩

/-- `CScript::Find` counts past instructions other than `op`. -/
theorem find_join_append (op : Opcode) {ops : List ScriptOp} (hops : ∀ o ∈ ops, o.opcode ≠ op)
    (u : List UInt8) : CScript.find (join ops ++ u) op = CScript.find u op := by
  induction ops with
  | nil => rfl
  | cons o ops ih =>
    have hne : (o.opcode == op) = false := beq_false_of_ne (hops o List.mem_cons_self)
    rw [join_cons, List.append_assoc, CScript.find, decode_of_getOp (o.reads _), List.filter_cons, hne]
    exact ih fun o' ho' => hops o' (List.mem_cons_of_mem o ho')

/-- An instruction set in place of one of `ops`. -/
theorem join_set {ops : List ScriptOp} {i : Nat} (hi : i < ops.length) (o : ScriptOp) :
    join (ops.set i o) = join (ops.take i) ++ o.bytes ++ join (ops.drop (i + 1)) := by
  rw [List.set_eq_take_append_cons_drop, if_pos hi, join_append, join_cons, List.append_assoc]

end ScriptOp

open ScriptOp

/-! ## The loop of `ReplaceParam` -/

section ReplaceParam

variable {s : CScript} {findOp : Opcode} {posBefore : Nat} {vchParam : Valtype}

/-- What `ReplaceParam` returns once it reads `findOp`, the instructions
    read before it beginning at `opcodes`. -/
def replaceAt (s : CScript) (posBefore : Nat) (vchParam : Valtype) (opcodes : List Nat) :
    Option CScript :=
  if opcodes.length > posBefore + 1 then
    some (pushData (s.take (opcodes.getD (opcodes.length - 1 - posBefore) 0)) vchParam ++
      s.drop (opcodes.getD (opcodes.length - posBefore) 0))
  else none

theorem replaceParamLoop_found {fuel pc : Nat} {opcodes : List Nat} {vch : Valtype}
    {rest : List UInt8} (h : getOp (s.drop pc) = some (findOp, vch, rest)) :
    replaceParamLoop s findOp posBefore vchParam (fuel + 1) opcodes pc =
      replaceAt s posBefore vchParam opcodes := by
  rw [replaceParamLoop, h]
  dsimp only
  rw [if_pos rfl]
  rfl

theorem replaceParamLoop_next {fuel pc : Nat} {opcodes : List Nat} {op : Opcode} {vch : Valtype}
    {rest : List UInt8} (h : getOp (s.drop pc) = some (op, vch, rest)) (hop : op ≠ findOp) :
    replaceParamLoop s findOp posBefore vchParam (fuel + 1) opcodes pc =
      replaceParamLoop s findOp posBefore vchParam fuel (opcodes ++ [s.length - rest.length])
        (s.length - rest.length) := by
  rw [replaceParamLoop, h]
  dsimp only
  rw [if_neg hop]

/-- Past instructions other than `findOp` the loop records where each one
    ends, and at `findOp` it stops. -/
theorem replaceParamLoop_join {u rest : List UInt8} {vch : Valtype}
    (hu : getOp u = some (findOp, vch, rest)) (ops : List ScriptOp)
    (hops : ∀ o ∈ ops, o.opcode ≠ findOp) (fuel : Nat) (opcodes : List Nat) (pc : Nat)
    (hs : s.drop pc = join ops ++ u) (hfuel : ops.length < fuel) :
    replaceParamLoop s findOp posBefore vchParam fuel opcodes pc =
      replaceAt s posBefore vchParam (opcodes ++ Lists.endOffsets pc (ops.map bytes)) := by
  induction ops generalizing fuel opcodes pc with
  | nil =>
    obtain _ | fuel := fuel
    · exact absurd hfuel (Nat.lt_irrefl 0)
    rw [join_nil, List.nil_append] at hs
    rw [replaceParamLoop_found (by rw [hs]; exact hu), List.map_nil, Lists.endOffsets, List.append_nil]
  | cons o ops ih =>
    obtain _ | fuel := fuel
    · exact absurd hfuel (Nat.not_lt_zero _)
    rw [join_cons, List.append_assoc] at hs
    obtain ⟨hpc, hdrop⟩ := Lists.drop_add_of_drop_eq hs o.bytes_ne_nil
    rw [replaceParamLoop_next (by rw [hs]; exact o.reads _) (hops o List.mem_cons_self), hpc,
      ih (fun o' ho' => hops o' (List.mem_cons_of_mem o ho')) fuel _ _ hdrop
        (by rw [List.length_cons] at hfuel; omega),
      List.map_cons, Lists.endOffsets, List.append_assoc, List.singleton_append]

/-- The loop returns a script only at a `findOp` read after instructions
    other than `findOp`. -/
theorem replaceParamLoop_eq_some {r : CScript} (fuel : Nat) (opcodes : List Nat) (pc : Nat)
    (h : replaceParamLoop s findOp posBefore vchParam fuel opcodes pc = some r) :
    ∃ (ops : List ScriptOp) (u : List UInt8) (vch : Valtype) (rest : List UInt8),
      (∀ o ∈ ops, o.opcode ≠ findOp) ∧ s.drop pc = join ops ++ u ∧
      getOp u = some (findOp, vch, rest) ∧
      replaceAt s posBefore vchParam (opcodes ++ Lists.endOffsets pc (ops.map bytes)) = some r := by
  induction fuel generalizing opcodes pc with
  | zero => cases h
  | succ fuel ih =>
    cases hg : getOp (s.drop pc) with
    | none =>
      rw [replaceParamLoop, hg] at h
      cases h
    | some i =>
      obtain ⟨op, vch, rest⟩ := i
      by_cases hop : op = findOp
      · subst hop
        refine ⟨[], s.drop pc, vch, rest, fun o ho => absurd ho List.not_mem_nil, rfl, hg, ?_⟩
        rw [← replaceParamLoop_found hg, List.map_nil, Lists.endOffsets, List.append_nil]
        exact h
      · -- one instruction other than `findOp`, then the rest of the run
        rw [replaceParamLoop_next hg hop] at h
        obtain ⟨o, rfl, rfl, hsplit⟩ := ScriptOp.ofGetOp hg
        obtain ⟨hpc, hdrop⟩ := Lists.drop_add_of_drop_eq hsplit o.bytes_ne_nil
        rw [hpc] at h
        obtain ⟨ops, u, vch', rest', hops, hs, hu, hr⟩ := ih _ _ h
        refine ⟨o :: ops, u, vch', rest', ?_, ?_, hu, ?_⟩
        · intro o' ho'
          rcases List.mem_cons.mp ho' with rfl | ho'
          · exact hop
          · exact hops o' ho'
        · rw [hsplit, ← hdrop, hs, join_cons, List.append_assoc]
        · rw [List.map_cons, Lists.endOffsets, ← List.singleton_append, ← List.append_assoc]
          exact hr

/-- Read from the start, with `posBefore ≥ 1`: the instruction `posBefore`
    places before `findOp` is replaced by the push. -/
theorem replaceAt_join (ops : List ScriptOp) (u : List UInt8) (hpb : 1 ≤ posBefore) :
    replaceAt (join ops ++ u) posBefore vchParam (0 :: Lists.endOffsets 0 (ops.map bytes)) =
      if posBefore < ops.length then
        some (join (ops.take (ops.length - posBefore)) ++ pushPrefix vchParam ++ vchParam ++
          (join (ops.drop (ops.length - posBefore + 1)) ++ u))
      else none := by
  rw [replaceAt, List.length_cons, Lists.length_endOffsets, List.length_map]
  by_cases hlt : posBefore < ops.length
  · have h1 : ops.length + 1 - 1 - posBefore = ops.length - posBefore := by omega
    have h2 : ops.length + 1 - posBefore = ops.length - posBefore + 1 := by omega
    rw [if_pos (by omega), if_pos hlt, h1, h2,
      Lists.getD_cons_endOffsets _ _ (by rw [List.length_map]; omega),
      Lists.getD_cons_endOffsets _ _ (by rw [List.length_map]; omega), Nat.zero_add, Nat.zero_add,
      join, Lists.take_flatten_append, Lists.drop_flatten_append, pushData_eq, join, join,
      List.map_take, List.map_drop]
  · rw [if_neg (by omega), if_neg hlt]

/-- `ReplaceParam` on instructions other than `findOp` followed by `findOp`. -/
theorem replaceParam_join {ops : List ScriptOp} (hops : ∀ o ∈ ops, o.opcode ≠ findOp)
    {u rest : List UInt8} {vch : Valtype} (hu : getOp u = some (findOp, vch, rest))
    (hpb : 1 ≤ posBefore) (hlt : posBefore < ops.length) (vchParam : Valtype) :
    CScript.replaceParam (join ops ++ u) findOp posBefore vchParam =
      some (join (ops.take (ops.length - posBefore)) ++ pushPrefix vchParam ++ vchParam ++
        (join (ops.drop (ops.length - posBefore + 1)) ++ u)) := by
  have hfuel : ops.length < (join ops ++ u).length := by
    have hjoin := length_le_join ops
    have hu' := getOp_length hu
    rw [List.length_append]
    omega
  rw [replaceParam, if_neg (by omega), Int.toNat_natCast,
    replaceParamLoop_join hu ops hops _ [0] 0 List.drop_zero hfuel, List.singleton_append,
    replaceAt_join ops u hpb, if_pos hlt]

/-- What `ReplaceParam` returns, and the script it read it from. -/
theorem replaceParam_eq_some {r : CScript} (hpb : 1 ≤ posBefore)
    (h : s.replaceParam findOp posBefore vchParam = some r) :
    ∃ (ops : List ScriptOp) (u : List UInt8) (vch : Valtype) (rest : List UInt8),
      (∀ o ∈ ops, o.opcode ≠ findOp) ∧ s = join ops ++ u ∧ getOp u = some (findOp, vch, rest) ∧
      posBefore < ops.length ∧
      r = join (ops.take (ops.length - posBefore)) ++ pushPrefix vchParam ++ vchParam ++
        (join (ops.drop (ops.length - posBefore + 1)) ++ u) := by
  rw [replaceParam, if_neg (by omega), Int.toNat_natCast] at h
  obtain ⟨ops, u, vch, rest, hops, hs, hu, hr⟩ := replaceParamLoop_eq_some _ _ _ h
  rw [List.drop_zero] at hs
  rw [List.singleton_append, hs, replaceAt_join ops u hpb] at hr
  by_cases hlt : posBefore < ops.length
  · rw [if_pos hlt] at hr
    exact ⟨ops, u, vch, rest, hops, hs, hu, hlt, (Option.some.inj hr).symm⟩
  · rw [if_neg hlt] at hr
    cases hr

/-! ## Writing a push in place of an instruction -/

variable {a : Valtype} {r : CScript}

/-- The push `ReplaceParam` writes is read back as one instruction other than
    `findOp`: the script after it is the instructions before, one of them set
    to the push, followed by the same tail. -/
theorem replaceParam_eq_join_set (hfind : OP_PUSHDATA4 < findOp) (hpb : 1 ≤ posBefore)
    (ha : a.length < 2 ^ 32) (h : s.replaceParam findOp posBefore a = some r) :
    ∃ (ops : List ScriptOp) (u : List UInt8) (vch : Valtype) (rest : List UInt8) (o : ScriptOp),
      (∀ o ∈ ops, o.opcode ≠ findOp) ∧ (∀ o' ∈ ops.set (ops.length - posBefore) o, o'.opcode ≠ findOp) ∧
      s = join ops ++ u ∧ getOp u = some (findOp, vch, rest) ∧ posBefore < ops.length ∧ o.vch = a ∧
      r = join (ops.set (ops.length - posBefore) o) ++ u := by
  obtain ⟨ops, u, vch, rest, hops, hs, hu, hlt, hr⟩ := replaceParam_eq_some hpb h
  obtain ⟨o, hbytes, hvch, hop⟩ := ScriptOp.exists_push ha
  have hne : o.opcode ≠ findOp := fun heq => absurd (heq ▸ hop) (Std.not_le.mpr hfind)
  refine ⟨ops, u, vch, rest, o, hops, ?_, hs, hu, hlt, hvch, ?_⟩
  · intro o' ho'
    rcases List.mem_or_eq_of_mem_set ho' with ho' | rfl
    · exact hops o' ho'
    · exact hne
  · rw [hr, join_set (by omega), hbytes]
    simp only [List.append_assoc]

/-- Replacing twice is replacing once: the second replacement succeeds,
    and returns what replacing the original would. -/
theorem replaceParam_twice (hfind : OP_PUSHDATA4 < findOp) (hpb : 1 ≤ posBefore)
    (ha : a.length < 2 ^ 32) (h : s.replaceParam findOp posBefore a = some r) (b : Valtype) :
    ∃ r', r.replaceParam findOp posBefore b = some r' ∧ s.replaceParam findOp posBefore b = some r' := by
  obtain ⟨ops, u, vch, rest, o, hops, hops', rfl, hu, hlt, -, rfl⟩ :=
    replaceParam_eq_join_set hfind hpb ha h
  have hlen : (ops.set (ops.length - posBefore) o).length = ops.length := List.length_set
  refine ⟨_, ?_, replaceParam_join hops hu hpb hlt b⟩
  rw [replaceParam_join hops' hu hpb (by rw [hlen]; exact hlt) b, hlen,
    List.take_set_of_le (Nat.le_refl _), List.drop_set_of_lt (Nat.lt_succ_self _)]

/-- A replacement keeps the count of `findOp`. -/
theorem find_replaceParam (hfind : OP_PUSHDATA4 < findOp) (hpb : 1 ≤ posBefore)
    (ha : a.length < 2 ^ 32) (h : s.replaceParam findOp posBefore a = some r) :
    r.find findOp = s.find findOp := by
  obtain ⟨ops, u, vch, rest, o, hops, hops', rfl, -, -, -, rfl⟩ :=
    replaceParam_eq_join_set hfind hpb ha h
  rw [find_join_append findOp hops' u, find_join_append findOp hops u]

end ReplaceParam

/-! ## The sender signature -/

section SenderSig

variable {s r : CScript} {a : Valtype}

theorem OP_PUSHDATA4_lt_OP_SENDER : OP_PUSHDATA4 < OP_SENDER := by decide

theorem updateSenderSig_twice (ha : a.length < 2 ^ 32) (h : s.updateSenderSig a = some r)
    (b : Valtype) :
    ∃ r', r.updateSenderSig b = some r' ∧ s.updateSenderSig b = some r' :=
  @replaceParam_twice s OP_SENDER 1 a r OP_PUSHDATA4_lt_OP_SENDER (Nat.le_refl 1) ha h b

theorem hasOpSender_updateSenderSig (ha : a.length < 2 ^ 32) (h : s.updateSenderSig a = some r) :
    r.hasOpSender = s.hasOpSender := by
  rw [hasOpSender, hasOpSender,
    @find_replaceParam s OP_SENDER 1 a r OP_PUSHDATA4_lt_OP_SENDER (Nat.le_refl 1) ha h]

/-- The script without its sender signature does not depend on the
    signature. -/
theorem withoutSenderSig_updateSenderSig (ha : a.length < 2 ^ 32)
    (h : s.updateSenderSig a = some r) : r.withoutSenderSig = s.withoutSenderSig := by
  obtain ⟨r', h₁, h₂⟩ := updateSenderSig_twice ha h []
  rw [withoutSenderSig, withoutSenderSig, h₁, h₂, Option.getD_some, Option.getD_some]

/-- Giving an output its sender signature keeps the output without it. -/
theorem getOutputWithoutSenderSig_update {o : CTxOut} (ha : a.length < 2 ^ 32)
    (h : o.scriptPubKey.updateSenderSig a = some r) :
    getOutputWithoutSenderSig { o with scriptPubKey := r } = getOutputWithoutSenderSig o := by
  rw [getOutputWithoutSenderSig, getOutputWithoutSenderSig, withoutSenderSig_updateSenderSig ha h]

/-- ... and, for an output with one `OP_SENDER`, the bytes
    `GetOutputsOpSenderSHA256` writes for it. -/
theorem opSenderOutputBytes_update {o : CTxOut} (hs : o.scriptPubKey.hasOpSender = true)
    (ha : a.length < 2 ^ 32) (h : o.scriptPubKey.updateSenderSig a = some r) :
    opSenderOutputBytes { o with scriptPubKey := r } = opSenderOutputBytes o := by
  have hr : r.hasOpSender = true := by rw [hasOpSender_updateSenderSig ha h, hs]
  rw [opSenderOutputBytes, opSenderOutputBytes, if_pos hr, if_pos hs, getOutputWithoutSenderSig_update ha h]

end SenderSig

/-! ## `SignatureHashOutput` over a changed output -/

section SigHash

variable (sha256 : List UInt8 → Hash256)

theorem getOutputsOpSenderSHA256_setOutput {txTo : SigHashTx} {k : Nat} {o o' : CTxOut}
    (hk : txTo.tx.vout[k]? = some o) (hb : opSenderOutputBytes o' = opSenderOutputBytes o) :
    getOutputsOpSenderSHA256 sha256 (txTo.setOutput k o') = getOutputsOpSenderSHA256 sha256 txTo := by
  obtain ⟨hlt, hget⟩ := List.getElem?_eq_some_iff.mp hk
  rw [getOutputsOpSenderSHA256, getOutputsOpSenderSHA256, SigHashTx.setOutput_vout, List.map_set, hb,
    ← List.map_set, ← hget, List.set_getElem_self]

/-- `SignatureHashOutput` reads an output only through the output without
    its sender signature and the bytes `GetOutputsOpSenderSHA256` writes for
    it: an output changed in neither gives every output the same hash. -/
theorem signatureHashOutput_setOutput {txTo : SigHashTx} {k : Nat} {o o' : CTxOut}
    (hk : txTo.tx.vout[k]? = some o)
    (hw : getOutputWithoutSenderSig o' = getOutputWithoutSenderSig o)
    (hb : opSenderOutputBytes o' = opSenderOutputBytes o) (scriptCode : CScript) (nOut : Nat)
    (nHashType : Int32) (amount : CAmount) (cache : Option PrecomputedHashes) :
    signatureHashOutput sha256 scriptCode (txTo.setOutput k o') nOut nHashType amount cache =
      signatureHashOutput sha256 scriptCode txTo nOut nHashType amount cache := by
  have hlt : k < txTo.tx.vout.length := (List.getElem?_eq_some_iff.mp hk).1
  unfold signatureHashOutput
  rw [getOutputsOpSenderSHA256_setOutput sha256 hk hb, SigHashTx.setOutput_vout]
  -- the signed output is the changed one, or read from the same place
  by_cases hn : k = nOut
  · subst hn
    rw [List.getElem?_set_self hlt, hk]
    dsimp only
    rw [hw]
    rfl
  · rw [List.getElem?_set_ne hn]
    rfl

end SigHash

/-- Sender signatures do not change what they sign.  A script whose sender
    signature was replaced takes any other one as the original would, and
    has the same script without it; so, for an output with one `OP_SENDER`,
    signing it leaves `SignatureHashOutput` of every output as it was, and
    outputs can be signed in any order.  Pushes of `2 ^ 32` bytes or more are
    left out: `script << a` writes the size in four bytes. -/
theorem senderSig_replacement_stable :
    (∀ (s r : CScript) (a b : Valtype), a.length < 2 ^ 32 → s.updateSenderSig a = some r →
      (∃ r', r.updateSenderSig b = some r' ∧ s.updateSenderSig b = some r') ∧
        r.withoutSenderSig = s.withoutSenderSig) ∧
    (∀ (sha256 : List UInt8 → Hash256) (txTo : SigHashTx) (k : Nat) (o : CTxOut) (a : Valtype)
      (r : CScript), txTo.tx.vout[k]? = some o → o.scriptPubKey.hasOpSender = true →
      a.length < 2 ^ 32 → o.scriptPubKey.updateSenderSig a = some r →
      ∀ (scriptCode : CScript) (nOut : Nat) (nHashType : Int32) (amount : CAmount)
        (cache : Option PrecomputedHashes),
        signatureHashOutput sha256 scriptCode (txTo.setOutput k { o with scriptPubKey := r }) nOut
            nHashType amount cache =
          signatureHashOutput sha256 scriptCode txTo nOut nHashType amount cache) := by
  refine ⟨fun s r a b ha h => ⟨updateSenderSig_twice ha h b, withoutSenderSig_updateSenderSig ha h⟩, ?_⟩
  intro sha256 txTo k o a r hk hs ha h scriptCode nOut nHashType amount cache
  exact signatureHashOutput_setOutput sha256 hk (getOutputWithoutSenderSig_update ha h)
    (opSenderOutputBytes_update hs ha h) scriptCode nOut nHashType amount cache

/-- The script `OP_1 OP_0 OP_0 OP_SENDER` signed with `[7]`, then with
    `[8, 9]`, in a transaction of that one output. -/
theorem senderSig_replacement_stable_single :
    CScript.updateSenderSig [0x51, 0x00, 0x00, 0xc4] [7] = some [0x51, 0x00, 0x01, 0x07, 0xc4] ∧
    ((∃ r', CScript.updateSenderSig [0x51, 0x00, 0x01, 0x07, 0xc4] [8, 9] = some r' ∧
        CScript.updateSenderSig [0x51, 0x00, 0x00, 0xc4] [8, 9] = some r') ∧
      CScript.withoutSenderSig [0x51, 0x00, 0x01, 0x07, 0xc4] =
        CScript.withoutSenderSig [0x51, 0x00, 0x00, 0xc4]) ∧
    CScript.hasOpSender [0x51, 0x00, 0x00, 0xc4] = true ∧
    signatureHashOutput (fun _ => 0) [] ((⟨1, ⟨[], [⟨5, [0x51, 0x00, 0x00, 0xc4]⟩]⟩, [], 0, rfl⟩ :
        SigHashTx).setOutput 0 ⟨5, [0x51, 0x00, 0x01, 0x07, 0xc4]⟩) 0 SIGHASH_ALL 5 none =
      signatureHashOutput (fun _ => 0) [] ⟨1, ⟨[], [⟨5, [0x51, 0x00, 0x00, 0xc4]⟩]⟩, [], 0, rfl⟩ 0
        SIGHASH_ALL 5 none := by
  have hupd : CScript.updateSenderSig [0x51, 0x00, 0x00, 0xc4] [7] =
      some [0x51, 0x00, 0x01, 0x07, 0xc4] := by decide
  have hs : CScript.hasOpSender [0x51, 0x00, 0x00, 0xc4] = true := by decide
  exact ⟨hupd, senderSig_replacement_stable.1 _ _ [7] [8, 9] (by decide) hupd, hs,
    senderSig_replacement_stable.2 (fun _ => 0) ⟨1, ⟨[], [⟨5, [0x51, 0x00, 0x00, 0xc4]⟩]⟩, [], 0, rfl⟩
      0 ⟨5, [0x51, 0x00, 0x00, 0xc4]⟩ [7] _ rfl hs (by decide) hupd [] 0 SIGHASH_ALL 5 none⟩

end Revo
