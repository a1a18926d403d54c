/-
  Revo.Coins.CompressorProofs

  The coins-database compression reads back what it wrote.

    * Amounts: an amount up to `MAX_MONEY` is `m * 10 ^ e` for the `m`
      and `e` that `stripZeros` finds, and `DecompressAmount` recovers the
      last digit of `m` and the rest of it from the remainder and quotient
      by `9` of what `CompressAmount` folded them into.  No step leaves
      `uint64_t`.
    * Scripts: each special form's code byte is its own `VARINT`, and
      `DecompressScript` rebuilds the script from the hash or the x
      coordinate; an uncompressed key comes back by
      `Secp256k1.RecoversValidKeys`.  Any other script comes back from its
      length prefix.
    * Outputs: the amount and the script codecs read one after the other
      (`Codec.roundTrip_seq`).
-/

import Revo.Coins.CoinsView
import Revo.Coins.Compressor
import Revo.Lib.Bits
import Revo.Lib.Lists
import Revo.Serialize.SerializeProofs

namespace Revo

/-! ## Amounts -/

/-- From `e ≤ 9`, `stripZeros` divides `n` by `10` once for every zero it
    counts, stops at `9` at the latest, and before `9` stops on a last
    digit that is not zero. -/
theorem stripZeros_spec (n e : Nat) (he : e ≤ 9) :
    n = (stripZeros n e).1 * 10 ^ ((stripZeros n e).2 - e) ∧ e ≤ (stripZeros n e).2 ∧
      (stripZeros n e).2 ≤ 9 ∧ ((stripZeros n e).2 < 9 → (stripZeros n e).1 % 10 ≠ 0) := by
  induction n, e using stripZeros.induct with
  | case1 n e h ih =>
    rw [stripZeros, if_pos h]
    obtain ⟨hn, he', h9, hd⟩ := ih (by omega)
    refine ⟨?_, by omega, h9, hd⟩
    -- one more zero: `n` is ten times what the rest of the loop starts from
    have hk : (stripZeros (n / 10) (e + 1)).2 - e = (stripZeros (n / 10) (e + 1)).2 - (e + 1) + 1 := by
      omega
    rw [hk, Nat.pow_succ, ← Nat.mul_assoc, ← hn]
    omega
  | case2 n e h =>
    rw [stripZeros, if_neg h]
    exact ⟨by rw [Nat.sub_self, Nat.pow_zero, Nat.mul_one], Nat.le_refl e, he,
      fun h9 h0 => h ⟨h0, h9⟩⟩

/-- The `assert(d >= 1 && d <= 9)` of `CompressAmount` holds. -/
theorem stripZeros_digit {n : Nat} (h : (stripZeros n 0).2 < 9) :
    1 ≤ (stripZeros n 0).1 % 10 ∧ (stripZeros n 0).1 % 10 ≤ 9 := by
  have hd := (stripZeros_spec n 0 (Nat.zero_le 9)).2.2.2 h
  omega

theorem timesTen_eq {n : Nat} (e : Nat) (hn : n < 2 ^ 64) : timesTen n e = n * 10 ^ e % 2 ^ 64 := by
  induction e generalizing n with
  | zero => rw [timesTen, Nat.pow_zero, Nat.mul_one, Nat.mod_eq_of_lt hn]
  | succ e ih =>
    rw [timesTen, ih (Nat.mod_lt _ (by decide)), Nat.mod_mul_mod, Nat.pow_succ 10 e,
      Nat.mul_comm (10 ^ e) 10, ← Nat.mul_assoc]

/-- `DecompressAmount` of `1 + 10 * q + e`, for `e ≤ 9`. -/
theorem decompressAmount_eq (q e : Nat) (he : e ≤ 9) :
    decompressAmount (1 + q * 10 + e) =
      timesTen (if e < 9 then q / 9 * 10 + (q % 9 + 1) else q + 1) e := by
  have hsub : 1 + q * 10 + e - 1 = q * 10 + e := by omega
  have hmod : (q * 10 + e) % 10 = e := by omega
  have hdiv : (q * 10 + e) / 10 = q := by omega
  rw [decompressAmount, if_neg (by omega)]
  dsimp only
  rw [hsub, hmod, hdiv]

theorem MAX_MONEY_eq : MAX_MONEY = 21389505000000000 := rfl

/-- `DecompressAmount` undoes `CompressAmount` on every amount up to
    `MAX_MONEY`. -/
theorem decompressAmount_compressAmount {n : Nat} (hn : (n : Int) ≤ MAX_MONEY) :
    decompressAmount (compressAmount n) = n := by
  rw [MAX_MONEY_eq] at hn
  by_cases h0 : n = 0
  · rw [h0]
    rfl
  obtain ⟨hm, -, h9, hd⟩ := stripZeros_spec n 0 (Nat.zero_le 9)
  generalize hr : stripZeros n 0 = r at hm h9 hd
  obtain ⟨m, e⟩ := r
  dsimp only at hm h9 hd
  rw [Nat.sub_zero] at hm
  have hm0 : m ≠ 0 := fun h => h0 (by rw [hm, h, Nat.zero_mul])
  have hm_le : m ≤ n := by
    rw [hm]
    exact Nat.le_mul_of_pos_right m (Nat.pow_pos (by decide))
  rw [compressAmount, if_neg h0, hr]
  dsimp only
  by_cases he : e < 9
  · -- the last digit `m % 10` is not zero and comes back as the remainder by `9`, plus one
    have hd' := hd he
    rw [if_pos he, Nat.mod_eq_of_lt (by omega), decompressAmount_eq _ e (by omega), if_pos he,
      show (m / 10 * 9 + m % 10 - 1) / 9 * 10 + ((m / 10 * 9 + m % 10 - 1) % 9 + 1) = m by omega,
      timesTen_eq e (by omega), ← hm, Nat.mod_eq_of_lt (by omega)]
  · -- nine zeros: `m` itself is stored, less one
    have he9 : e = 9 := by omega
    rw [if_neg he, Nat.mod_eq_of_lt (by omega), decompressAmount_eq _ 9 (Nat.le_refl 9),
      if_neg (Nat.lt_irrefl 9), Nat.sub_add_cancel (Nat.one_le_iff_ne_zero.mpr hm0),
      timesTen_eq 9 (by omega), ← he9, ← hm, Nat.mod_eq_of_lt (by omega)]

/-- `CompressAmount` undoes `DecompressAmount` on what it writes for the
    amounts up to `MAX_MONEY`. -/
theorem compressAmount_decompressAmount {x : Nat}
    (h : ∃ n : Nat, (n : Int) ≤ MAX_MONEY ∧ compressAmount n = x) :
    compressAmount (decompressAmount x) = x := by
  obtain ⟨n, hn, rfl⟩ := h
  rw [decompressAmount_compressAmount hn]

theorem compressAmount_lt (n : Nat) : compressAmount n < 2 ^ 64 := by
  unfold compressAmount
  split
  · exact Nat.two_pow_pos 64
  · split
    split
    · exact Nat.mod_lt _ (Nat.two_pow_pos 64)
    · exact Nat.mod_lt _ (Nat.two_pow_pos 64)

/-- `AmountCompression` round-trips every amount from `0` to `MAX_MONEY`. -/
theorem amountCompression_roundTrip :
    Codec.RoundTrip (fun v : CAmount => 0 ≤ v ∧ v ≤ MAX_MONEY) amountCompressionSer
      amountCompressionUnser := by
  apply Codec.roundTrip_comp (fun n hn rest => readVarInt_writeVarInt 64 hn rest)
  · intro v _
    exact compressAmount_lt _
  · -- `omega` reads the bounds only when they are stated over `Int`, not `CAmount`
    rintro (v : Int) ⟨h0, hv⟩
    have h0' : (0 : Int) ≤ v := h0
    have hv' : v ≤ (21389505000000000 : Int) := by
      rw [MAX_MONEY_eq] at hv
      exact hv
    have hn : ((v.toNat : Nat) : Int) ≤ MAX_MONEY := by
      have : ((v.toNat : Nat) : Int) ≤ 21389505000000000 := by omega
      rw [MAX_MONEY_eq]
      exact this
    have hv64 : v % 2 ^ 64 = v := Int.emod_eq_of_lt h0' (by omega)
    rw [hv64, decompressAmount_compressAmount hn, CAmount.ofUInt64, if_pos (by omega),
      Int.toNat_of_nonneg h0']

/-! ## Scripts -/

/-- The hash `IsToKeyID` returns has 20 bytes, and the script is the P2PKH
    template around it. -/
theorem isToKeyID_eq_some {script hash : List UInt8} (h : isToKeyID script = some hash) :
    hash.length = 20 ∧ script = [OP_DUP, OP_HASH160, 20] ++ hash ++ [OP_EQUALVERIFY, OP_CHECKSIG] := by
  unfold isToKeyID at h
  split at h
  case isFalse => cases h
  case isTrue hc =>
    obtain ⟨hlen, h0, h1, h2, h23, h24⟩ := hc
    cases h
    have hpre : script.take 3 = [OP_DUP, OP_HASH160, 20] := by
      rw [Lists.take_eq_map_getD script 0 (by omega)]
      show [script.getD 0 0, script.getD 1 0, script.getD 2 0] = _
      rw [h0, h1, h2]
    have hsuf : script.drop 23 = [OP_EQUALVERIFY, OP_CHECKSIG] := by
      rw [Lists.drop_eq_map_getD script 0 23, hlen]
      show [script.getD 23 0, script.getD 24 0] = _
      rw [h23, h24]
    refine ⟨by rw [List.length_take, List.length_drop, hlen]; rfl, ?_⟩
    calc script = script.take 3 ++ (script.drop 3).take 20 ++ script.drop 23 :=
          Lists.eq_take_append_take_drop script 3 20
      _ = _ := by rw [hpre, hsuf]

/-- The hash `IsToScriptID` returns has 20 bytes, and the script is the
    P2SH template around it. -/
theorem isToScriptID_eq_some {script hash : List UInt8} (h : isToScriptID script = some hash) :
    hash.length = 20 ∧ script = [OP_HASH160, 20] ++ hash ++ [OP_EQUAL] := by
  unfold isToScriptID at h
  split at h
  case isFalse => cases h
  case isTrue hc =>
    obtain ⟨hlen, h0, h1, h22⟩ := hc
    cases h
    have hpre : script.take 2 = [OP_HASH160, 20] := by
      rw [Lists.take_eq_map_getD script 0 (by omega)]
      show [script.getD 0 0, script.getD 1 0] = _
      rw [h0, h1]
    have hsuf : script.drop 22 = [OP_EQUAL] := by
      rw [Lists.drop_eq_map_getD script 0 22, hlen]
      show [script.getD 22 0] = _
      rw [h22]
    refine ⟨by rw [List.length_take, List.length_drop, hlen]; rfl, ?_⟩
    calc script = script.take 2 ++ (script.drop 2).take 20 ++ script.drop 22 :=
          Lists.eq_take_append_take_drop script 2 20
      _ = _ := by rw [hpre, hsuf]

/-- The key `IsToPubKey` returns is a compressed key of 33 bytes or a fully
    valid uncompressed one of 65, and the script pushes it and ends in
    `OP_CHECKSIG`. -/
theorem isToPubKey_eq_some {secp : Secp256k1} {script pk : List UInt8}
    (h : isToPubKey secp script = some pk) :
    (pk.length = 33 ∧ (pk.getD 0 0 = 0x02 ∨ pk.getD 0 0 = 0x03) ∧
        script = [33] ++ pk ++ [OP_CHECKSIG]) ∨
      (pk.length = 65 ∧ pk.getD 0 0 = 0x04 ∧ secp.isFullyValid pk = true ∧
        script = [65] ++ pk ++ [OP_CHECKSIG]) := by
  unfold isToPubKey at h
  split at h
  case isTrue hc =>
    obtain ⟨hlen, h0, h34, h1⟩ := hc
    cases h
    have hpre : script.take 1 = [33] := by
      rw [Lists.take_eq_map_getD script 0 (by omega)]
      show [script.getD 0 0] = _
      rw [h0]
    have hsuf : script.drop 34 = [OP_CHECKSIG] := by
      rw [Lists.drop_eq_map_getD script 0 34, hlen]
      show [script.getD 34 0] = _
      rw [h34]
    have hfirst : ((script.drop 1).take 33).getD 0 0 = script.getD 1 0 :=
      Lists.getD_take_drop script 0 (by decide)
    refine Or.inl ⟨by rw [List.length_take, List.length_drop, hlen]; rfl, by rw [hfirst]; exact h1, ?_⟩
    calc script = script.take 1 ++ (script.drop 1).take 33 ++ script.drop 34 :=
          Lists.eq_take_append_take_drop script 1 33
      _ = _ := by rw [hpre, hsuf]
  case isFalse =>
    split at h
    case isFalse => cases h
    case isTrue hc =>
      obtain ⟨hlen, h0, h66, h1⟩ := hc
      split at h
      case isFalse => cases h
      case isTrue hvalid =>
        cases h
        have hpre : script.take 1 = [65] := by
          rw [Lists.take_eq_map_getD script 0 (by omega)]
          show [script.getD 0 0] = _
          rw [h0]
        have hsuf : script.drop 66 = [OP_CHECKSIG] := by
          rw [Lists.drop_eq_map_getD script 0 66, hlen]
          show [script.getD 66 0] = _
          rw [h66]
        have hfirst : ((script.drop 1).take 65).getD 0 0 = script.getD 1 0 :=
          Lists.getD_take_drop script 0 (by decide)
        refine Or.inr ⟨by rw [List.length_take, List.length_drop, hlen]; rfl, by rw [hfirst]; exact h1,
          hvalid, ?_⟩
        calc script = script.take 1 ++ (script.drop 1).take 65 ++ script.drop 66 :=
              Lists.eq_take_append_take_drop script 1 65
          _ = _ := by rw [hpre, hsuf]

/-- The code byte of an uncompressed key: `4` and the parity of `y`. -/
theorem uncompressedCode_toNat (b : UInt8) : (0x04 ||| (b &&& 0x01)).toNat = 4 + b.toNat % 2 := by
  have hpar : b.toNat % 2 ||| 4 = b.toNat % 2 + 4 :=
    Bits.or_two_pow_of_lt (show b.toNat % 2 < 2 ^ 2 by omega)
  rw [UInt8.toNat_or, UInt8.toNat_and]
  show 4 ||| b.toNat &&& 1 = _
  rw [Nat.and_one_is_mod, Nat.or_comm, hpar, Nat.add_comm]

/-- A compressed key is stored as its first byte and its x coordinate, and
    `DecompressScript` pushes them back. -/
theorem decompressScript_compressedKey (secp : Secp256k1) {pk : List UInt8} (hlen : pk.length = 33)
    (hcode : (pk.getD 0 0).toNat = 2 ∨ (pk.getD 0 0).toNat = 3) :
    decompressScript secp (pk.getD 0 0).toNat ((pk.drop 1).take 32) = some ([33] ++ pk ++ [OP_CHECKSIG]) := by
  have hx : ((pk.drop 1).take 32).take 32 = pk.drop 1 := by
    rw [List.take_take, Nat.min_self, List.take_of_length_le (by rw [List.length_drop, hlen])]
  rw [decompressScript, if_neg (by omega), if_neg (by omega), if_pos hcode, UInt8.ofNat_toNat, hx]
  conv_rhs => rw [Lists.eq_getD_cons_drop pk 0 (List.ne_nil_of_length_pos (by omega))]
  rfl

/-- An uncompressed key is stored as `4` or `5` and its x coordinate, and
    `DecompressScript` has secp256k1 recover it. -/
theorem decompressScript_uncompressedKey {secp : Secp256k1} (hsecp : secp.RecoversValidKeys)
    {pk : List UInt8} (hlen : pk.length = 65) (h4 : pk.getD 0 0 = 0x04)
    (hvalid : secp.isFullyValid pk = true) :
    decompressScript secp (4 + (pk.getD 64 0).toNat % 2) ((pk.drop 1).take 32) =
      some ([65] ++ pk ++ [OP_CHECKSIG]) := by
  have hx : ((pk.drop 1).take 32).take 32 = (pk.drop 1).take 32 := by
    rw [List.take_take, Nat.min_self]
  have hpar : 4 + (pk.getD 64 0).toNat % 2 - 2 = 2 + (pk.getD 64 0).toNat % 2 := by omega
  rw [decompressScript, if_neg (by omega), if_neg (by omega), if_neg (by omega), if_pos (by omega),
    hpar, hx, hsecp pk hlen h4 hvalid]
  rfl

/-- What `CompressScript` writes is a code byte below `nSpecialScripts` and
    as many bytes as `GetSpecialScriptSize` gives it, from which
    `DecompressScript` rebuilds the script. -/
theorem compressScript_spec {secp : Secp256k1} (hsecp : secp.RecoversValidKeys)
    {script compr : List UInt8} (h : compressScript secp script = some compr) :
    ∃ code tail, compr = code :: tail ∧ code.toNat < nSpecialScripts ∧
      tail.length = getSpecialScriptSize code.toNat ∧
      decompressScript secp code.toNat tail = some script := by
  unfold compressScript at h
  cases hk : isToKeyID script with
  | some hash =>
    rw [hk] at h
    cases h
    obtain ⟨hlen, rfl⟩ := isToKeyID_eq_some hk
    refine ⟨0x00, hash, rfl, by decide, hlen, ?_⟩
    have hcode : (0x00 : UInt8).toNat = 0x00 := rfl
    rw [decompressScript, if_pos hcode, List.take_of_length_le (Nat.le_of_eq hlen)]
  | none =>
    rw [hk] at h
    cases hs : isToScriptID script with
    | some hash =>
      rw [hs] at h
      cases h
      obtain ⟨hlen, rfl⟩ := isToScriptID_eq_some hs
      refine ⟨0x01, hash, rfl, by decide, hlen, ?_⟩
      have hcode : (0x01 : UInt8).toNat = 0x01 := rfl
      rw [decompressScript, if_neg (by rw [hcode]; decide), if_pos hcode,
        List.take_of_length_le (Nat.le_of_eq hlen)]
    | none =>
      rw [hs] at h
      cases hp : isToPubKey secp script with
      | none =>
        rw [hp] at h
        cases h
      | some pk =>
        rw [hp] at h
        dsimp only at h
        rcases isToPubKey_eq_some hp with ⟨hlen, hc, rfl⟩ | ⟨hlen, h4, hvalid, rfl⟩
        · -- a compressed key: its first byte, `2` or `3`, is the code
          have hx : ((pk.drop 1).take 32).length = 32 := by
            rw [List.length_take, List.length_drop]
            omega
          rw [if_pos hc] at h
          cases h
          have hcode : (pk.getD 0 0).toNat = 2 ∨ (pk.getD 0 0).toNat = 3 :=
            hc.imp (fun h => by rw [h]; rfl) (fun h => by rw [h]; rfl)
          refine ⟨_, _, rfl, by unfold nSpecialScripts; omega, ?_,
            decompressScript_compressedKey secp hlen hcode⟩
          rw [hx, getSpecialScriptSize, if_neg (by omega), if_pos (by omega)]
        · -- an uncompressed key: the code is `4` and the parity of `y`
          have hx : ((pk.drop 1).take 32).length = 32 := by
            rw [List.length_take, List.length_drop]
            omega
          rw [if_neg (by rw [h4]; decide), if_pos h4] at h
          cases h
          have hcode := uncompressedCode_toNat (pk.getD 64 0)
          refine ⟨_, _, rfl, by unfold nSpecialScripts; omega, ?_, ?_⟩
          · rw [hx, hcode, getSpecialScriptSize, if_neg (by omega), if_pos (by omega)]
          · rw [hcode]
            exact decompressScript_uncompressedKey hsecp hlen h4 hvalid

/-- `ScriptCompression::Unser` of a code byte and its bytes decompresses
    them. -/
theorem scriptCompressionUnser_special (secp : Secp256k1) (script₀ : CScript)
    {code : UInt8} {tail script rest : List UInt8} (hcode : code.toNat < nSpecialScripts)
    (htail : tail.length = getSpecialScriptSize code.toNat)
    (hdec : decompressScript secp code.toNat tail = some script) :
    scriptCompressionUnser secp script₀ (code :: tail ++ rest) = .ok (script, rest) := by
  have hbyte : code.toNat ≤ 0x7F := by
    unfold nSpecialScripts at hcode
    omega
  rw [scriptCompressionUnser, List.cons_append, readVarInt_byte (by decide) hbyte]
  dsimp only [Except.bind]
  rw [if_pos hcode, streamRead_append tail rest htail]
  dsimp only [Except.map]
  rw [hdec]
  rfl

/-- `ScriptCompression::Unser` of a size prefix and the script's bytes reads
    the script. -/
theorem scriptCompressionUnser_raw (secp : Secp256k1) (script₀ : CScript) {script : CScript}
    (hs : script.length ≤ MAX_SCRIPT_SIZE) (rest : List UInt8) :
    scriptCompressionUnser secp script₀
      (writeVarInt ((script.length + nSpecialScripts) % 2 ^ 32) ++ script ++ rest) =
      .ok (script, rest) := by
  have hmax : MAX_SCRIPT_SIZE = 129000 := rfl
  have hsize : (script.length + nSpecialScripts) % 2 ^ 32 = script.length + 6 :=
    Nat.mod_eq_of_lt (by unfold nSpecialScripts; omega)
  rw [hsize, List.append_assoc, scriptCompressionUnser, readVarInt_writeVarInt 32 (by omega)]
  dsimp only [Except.bind]
  have hlen : script.length + 6 - nSpecialScripts = script.length := rfl
  rw [if_neg (by unfold nSpecialScripts; omega), hlen, if_neg (by omega),
    streamRead_append script rest rfl]

/-- `ScriptCompression` round-trips every script within `MAX_SCRIPT_SIZE`,
    whatever script it reads into. -/
theorem scriptCompression_roundTrip {secp : Secp256k1} (hsecp : secp.RecoversValidKeys)
    (script₀ : CScript) :
    Codec.RoundTrip (fun s : CScript => s.length ≤ MAX_SCRIPT_SIZE) (scriptCompressionSer secp)
      (scriptCompressionUnser secp script₀) := by
  intro script hs rest
  unfold scriptCompressionSer
  cases hc : compressScript secp script with
  | some compr =>
    obtain ⟨code, tail, rfl, hcode, htail, hdec⟩ := compressScript_spec hsecp hc
    exact scriptCompressionUnser_special secp script₀ hcode htail hdec
  | none => exact scriptCompressionUnser_raw secp script₀ hs rest

/-! ## Outputs -/

/-- `TxOutCompression` round-trips every output with an amount in
    `[0, MAX_MONEY]` and a script within `MAX_SCRIPT_SIZE`. -/
theorem txOutCompression_roundTrip {secp : Secp256k1} (hsecp : secp.RecoversValidKeys)
    (out₀ : CTxOut) :
    Codec.RoundTrip
      (fun out : CTxOut => 0 ≤ out.nValue ∧ out.nValue ≤ MAX_MONEY ∧
        out.scriptPubKey.length ≤ MAX_SCRIPT_SIZE)
      (txOutCompressionSer secp) (txOutCompressionUnser secp out₀) := by
  -- an output is read as the pair of its amount and its script
  have hpair := Codec.roundTrip_seq amountCompression_roundTrip
    (scriptCompression_roundTrip hsecp out₀.scriptPubKey)
  have hf : ∀ out : CTxOut, (0 ≤ out.nValue ∧ out.nValue ≤ MAX_MONEY ∧
      out.scriptPubKey.length ≤ MAX_SCRIPT_SIZE) →
      (fun p : CAmount × CScript => (0 ≤ p.1 ∧ p.1 ≤ MAX_MONEY) ∧ p.2.length ≤ MAX_SCRIPT_SIZE)
        (out.nValue, out.scriptPubKey) := by
    rintro out ⟨h0, hv, hs⟩
    exact ⟨⟨h0, hv⟩, hs⟩
  have hser : txOutCompressionSer secp = fun out => (fun p : CAmount × CScript =>
      amountCompressionSer p.1 ++ scriptCompressionSer secp p.2) (out.nValue, out.scriptPubKey) := rfl
  rw [hser, txOutCompressionUnser]
  exact Codec.roundTrip_comp hpair hf (fun out _ => rfl)

/-- The script of a coin that `AddCoin` stores is within `MAX_SCRIPT_SIZE`. -/
theorem CScript.length_le_of_isUnspendable_eq_false {s : CScript} (h : s.isUnspendable = false) :
    s.length ≤ MAX_SCRIPT_SIZE := by
  unfold CScript.isUnspendable at h
  rw [Bool.or_eq_false_iff] at h
  exact Nat.le_of_not_gt (of_decide_eq_false h.2)

/-- An uncompressed key, `04 ‖ 01 … 01`. -/
def oneKey : List UInt8 := 0x04 :: List.replicate 64 0x01

/-- A secp256k1 with one fully valid uncompressed key, `oneKey`, which
    `Decompress` recovers from `03 ‖ 01 … 01`. -/
def secpOneKey : Secp256k1 where
  isFullyValid pk := pk == oneKey
  decompress k := if k = 0x03 :: List.replicate 32 0x01 then some oneKey else none
  decompress_length k pk h := by
    split at h
    case isTrue =>
      cases h
      rfl
    case isFalse => cases h

end Revo
