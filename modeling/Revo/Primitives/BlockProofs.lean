/-
  Revo.Primitives.BlockProofs

  `vchBlockSigDlgt` packs a signature and an optional proof of delegation
  so that they read back unambiguously, and signing keeps what
  `GetHashWithoutSign` covers.

    * `SignedPart`: a signature with, maybe, a 65-byte proof, such that with
      a proof the signature has at least 65 bytes and without one fewer than
      130.  Every vector is the packing of the parts it is read as
      (`pack_signedPart`), and the packing of parts is read back as them
      (`read_pack`).
    * `SetBlockSignature` and `SetProofOfDelegation` act on the packing as
      `SignedPart.setSig` and `SignedPart.setPoD`, whenever the new parts
      are well formed.  A signature of fewer than 65 bytes after a proof, or
      one of 130 bytes or more without, is read back as other parts
      (`setBlockSignature_short_merges`, `setBlockSignature_long_splits`).
    * `GetHashWithoutSign` reads the fields before the vector and the proof
      of delegation only, so replacing the signature keeps it.
-/

import Revo.Primitives.Block

namespace Revo

open CBlockHeader

theorem compact_signature_size : COMPACT_SIGNATURE_SIZE = 65 := rfl

/-! ## Signed parts -/

/-- The parts a vector can be read back into: a proof of 65 bytes after a
    signature of at least 65, or a signature alone of fewer than 130. -/
def SignedPart.WF (sig : List UInt8) : Option (List UInt8) → Prop
  | none => sig.length < 2 * COMPACT_SIGNATURE_SIZE
  | some pod => pod.length = COMPACT_SIGNATURE_SIZE ∧ COMPACT_SIGNATURE_SIZE ≤ sig.length

/-- A block signature and, maybe, a proof of delegation, that a packing
    keeps apart. -/
@[ext] structure SignedPart where
  sig : List UInt8
  pod : Option (List UInt8)
  wf : SignedPart.WF sig pod

namespace SignedPart

/-- The vector that holds the parts: the signature, then the proof. -/
def pack (x : SignedPart) : List UInt8 := x.sig ++ x.pod.getD []

/-- Replacing the signature. -/
def setSig (x : SignedPart) (sig : List UInt8) (h : WF sig x.pod) : SignedPart := ⟨sig, x.pod, h⟩

/-- The signature `SetProofOfDelegation` keeps: cut or padded to 65 bytes. -/
def podSig (sig : List UInt8) : List UInt8 :=
  if sig.length ≠ COMPACT_SIGNATURE_SIZE then Lists.resize sig COMPACT_SIGNATURE_SIZE 0 else sig

theorem length_podSig (sig : List UInt8) : (podSig sig).length = COMPACT_SIGNATURE_SIZE := by
  unfold podSig
  split
  · exact Lists.length_resize _ _ _
  · rename_i h
    exact not_not.mp h

/-- Setting a proof of 65 bytes, after the signature cut or padded to 65. -/
def setPoD (x : SignedPart) (pod : List UInt8) (h : pod.length = COMPACT_SIGNATURE_SIZE) : SignedPart :=
  ⟨podSig x.sig, some pod, h, Nat.le_of_eq (length_podSig x.sig).symm⟩

end SignedPart

/-! ## Reading a header's vector -/

theorem wf_read (h : CBlockHeader) :
    SignedPart.WF h.getBlockSignature
      (if h.hasProofOfDelegation then some h.getProofOfDelegation else none) := by
  have h65 := compact_signature_size
  unfold getBlockSignature getProofOfDelegation hasProofOfDelegation
  by_cases hlt : h.vchBlockSigDlgt.length < 2 * COMPACT_SIGNATURE_SIZE
  · rw [if_pos hlt, if_neg (by simpa using hlt)]
    exact hlt
  · -- the last 65 bytes are the proof, and at least 65 come before them
    rw [if_neg hlt, if_neg hlt, if_pos (by simpa using hlt)]
    refine ⟨?_, ?_⟩
    · rw [List.length_drop]
      omega
    · rw [List.length_take]
      omega

/-- The parts a header's vector is read as. -/
def CBlockHeader.signedPart (h : CBlockHeader) : SignedPart :=
  ⟨h.getBlockSignature, if h.hasProofOfDelegation then some h.getProofOfDelegation else none, wf_read h⟩

theorem signedPart_pod (h : CBlockHeader) :
    h.signedPart.pod = if h.hasProofOfDelegation then some h.getProofOfDelegation else none := rfl

theorem signedPart_pod_of_has {h : CBlockHeader} (hpod : h.hasProofOfDelegation = true) :
    h.signedPart.pod = some h.getProofOfDelegation := by
  rw [signedPart_pod, hpod, if_pos rfl]

theorem signedPart_pod_of_not_has {h : CBlockHeader} (hpod : h.hasProofOfDelegation = false) :
    h.signedPart.pod = none := by
  rw [signedPart_pod, hpod, if_neg Bool.false_ne_true]

/-- Every vector is the packing of the parts it is read as. -/
theorem pack_signedPart (h : CBlockHeader) : h.signedPart.pack = h.vchBlockSigDlgt := by
  unfold CBlockHeader.signedPart SignedPart.pack getBlockSignature getProofOfDelegation hasProofOfDelegation
  dsimp only
  by_cases hlt : h.vchBlockSigDlgt.length < 2 * COMPACT_SIGNATURE_SIZE
  · rw [if_pos hlt, if_neg (by simpa using hlt), Option.getD_none, List.append_nil]
  · rw [if_neg hlt, if_pos (by simpa using hlt), if_neg hlt, Option.getD_some, List.take_append_drop]

/-- The packing of parts is read back as those parts. -/
theorem read_pack {h : CBlockHeader} (x : SignedPart) (hv : h.vchBlockSigDlgt = x.pack) :
    h.getBlockSignature = x.sig ∧ h.getProofOfDelegation = x.pod.getD [] ∧
      h.hasProofOfDelegation = x.pod.isSome := by
  obtain ⟨sig, pod, hwf⟩ := x
  have h65 := compact_signature_size
  unfold getBlockSignature getProofOfDelegation hasProofOfDelegation
  cases pod with
  | none =>
    -- a signature alone is shorter than two
    have hlt : sig.length < 2 * COMPACT_SIGNATURE_SIZE := hwf
    have hv' : h.vchBlockSigDlgt = sig := by
      rw [hv, SignedPart.pack, Option.getD_none, List.append_nil]
    rw [hv', if_pos hlt, if_pos hlt]
    exact ⟨rfl, rfl, decide_eq_false (Nat.not_le.mpr hlt)⟩
  | some pod =>
    -- the proof is the last 65 bytes, and the signature what comes before
    have hv' : h.vchBlockSigDlgt = sig ++ pod := by
      rw [hv, SignedPart.pack, Option.getD_some]
    clear hv
    obtain ⟨hp, hs⟩ := hwf
    have hlen : (sig ++ pod).length - COMPACT_SIGNATURE_SIZE = sig.length := by
      rw [List.length_append, hp, Nat.add_sub_cancel]
    have hge : ¬(sig ++ pod).length < 2 * COMPACT_SIGNATURE_SIZE := by
      rw [List.length_append, hp]
      omega
    rw [hv', if_neg hge, if_neg hge, hlen, List.take_left' rfl, List.drop_left' rfl]
    exact ⟨rfl, rfl, decide_eq_true (Nat.le_of_not_lt hge)⟩

theorem signedPart_eq_of_pack {h : CBlockHeader} (x : SignedPart) (hv : h.vchBlockSigDlgt = x.pack) :
    h.signedPart = x := by
  obtain ⟨hsig, hpod, hhas⟩ := read_pack x hv
  obtain ⟨sig, pod, hwf⟩ := x
  ext1
  · exact hsig
  · show (if h.hasProofOfDelegation then some h.getProofOfDelegation else none) = pod
    rw [hhas, hpod]
    cases pod <;> rfl

/-! ## The setters act on the parts -/

/-- `SetBlockSignature` replaces the signature of the packing and keeps the
    proof. -/
theorem setBlockSignature_vch (h : CBlockHeader) (s : List UInt8) :
    (h.setBlockSignature s).vchBlockSigDlgt = s ++ h.signedPart.pod.getD [] := by
  unfold setBlockSignature
  cases hhas : h.hasProofOfDelegation
  · rw [signedPart_pod_of_not_has hhas, if_neg Bool.false_ne_true, Option.getD_none, List.append_nil]
  · rw [signedPart_pod_of_has hhas, if_pos rfl, Option.getD_some]

theorem signedPart_setBlockSignature (h : CBlockHeader) {s : List UInt8}
    (hs : SignedPart.WF s h.signedPart.pod) :
    (h.setBlockSignature s).signedPart = h.signedPart.setSig s hs :=
  signedPart_eq_of_pack _ (setBlockSignature_vch h s)

theorem signedPart_setProofOfDelegation (h : CBlockHeader) {pod : List UInt8}
    (hp : pod.length = COMPACT_SIGNATURE_SIZE) :
    (h.setProofOfDelegation pod).signedPart = h.signedPart.setPoD pod hp :=
  signedPart_eq_of_pack _ rfl

/-- After a proof, a signature of fewer than 65 bytes takes the proof in:
    the vector is too short to hold both. -/
theorem setBlockSignature_short_merges {h : CBlockHeader} {s : List UInt8}
    (hpod : h.hasProofOfDelegation = true) (hs : s.length < COMPACT_SIGNATURE_SIZE) :
    (h.setBlockSignature s).hasProofOfDelegation = false ∧
      (h.setBlockSignature s).getBlockSignature = s ++ h.getProofOfDelegation := by
  have hwf := (h.signedPart).wf
  have hpart := signedPart_pod_of_has hpod
  rw [hpart] at hwf
  obtain ⟨hp, -⟩ := hwf
  have hv := setBlockSignature_vch h s
  rw [hpart, Option.getD_some] at hv
  have hlt : (s ++ h.getProofOfDelegation).length < 2 * COMPACT_SIGNATURE_SIZE := by
    rw [List.length_append, hp]
    omega
  obtain ⟨hsig, -, hhas⟩ := read_pack ⟨s ++ h.getProofOfDelegation, none, hlt⟩
    (by rw [hv, SignedPart.pack, Option.getD_none, List.append_nil])
  exact ⟨hhas, hsig⟩

/-- Without a proof, a signature of 130 bytes or more is read as a
    signature and a proof: its last 65 bytes. -/
theorem setBlockSignature_long_splits {h : CBlockHeader} {s : List UInt8}
    (hpod : h.hasProofOfDelegation = false) (hs : 2 * COMPACT_SIGNATURE_SIZE ≤ s.length) :
    (h.setBlockSignature s).hasProofOfDelegation = true ∧
      (h.setBlockSignature s).getProofOfDelegation = s.drop (s.length - COMPACT_SIGNATURE_SIZE) := by
  have hv : (h.setBlockSignature s).vchBlockSigDlgt = s := by
    unfold setBlockSignature
    rw [hpod, if_neg Bool.false_ne_true]
  unfold hasProofOfDelegation getProofOfDelegation
  rw [hv, if_neg (Nat.not_lt.mpr hs)]
  exact ⟨decide_eq_true hs, rfl⟩

/-! ## The hash without the signature -/

theorem serFields_with (h : CBlockHeader) (v : List UInt8) :
    ({ h with vchBlockSigDlgt := v } : CBlockHeader).serFields = h.serFields := rfl

theorem serFields_setBlockSignature (h : CBlockHeader) (s : List UInt8) :
    (h.setBlockSignature s).serFields = h.serFields := by
  unfold setBlockSignature
  split <;> rfl

/-- `CBlockHeaderSign` writes the fields, then the proof of the parts. -/
theorem serializeSign_eq (h : CBlockHeader) :
    h.serializeSign = h.serFields ++ (h.signedPart.pod.map serBytes).getD [] := by
  unfold serializeSign
  cases hhas : h.hasProofOfDelegation
  · rw [signedPart_pod_of_not_has hhas, if_neg Bool.false_ne_true, Option.map_none, Option.getD_none]
  · rw [signedPart_pod_of_has hhas, if_pos rfl, Option.map_some, Option.getD_some]

/-- `GetHashWithoutSign` reads the fields and the proof of delegation only. -/
theorem getHashWithoutSign_eq_of {β : Type} (hash : List UInt8 → β) {h h' : CBlockHeader}
    (hf : h.serFields = h'.serFields) (hp : h.signedPart.pod = h'.signedPart.pod) :
    h.getHashWithoutSign hash = h'.getHashWithoutSign hash := by
  unfold getHashWithoutSign
  rw [serializeSign_eq, serializeSign_eq, hf, hp]

/-- Signing keeps the hash without the signature whenever the new
    signature fits beside the proof the header has. -/
theorem getHashWithoutSign_setBlockSignature {β : Type} (hash : List UInt8 → β) (h : CBlockHeader)
    {s : List UInt8} (hs : SignedPart.WF s h.signedPart.pod) :
    (h.setBlockSignature s).getHashWithoutSign hash = h.getHashWithoutSign hash :=
  getHashWithoutSign_eq_of hash (serFields_setBlockSignature h s)
    (by rw [signedPart_setBlockSignature h hs]; rfl)

/-! ## Signing after a proof of delegation -/

/-- A new signature that fits beside the header's proof is read back as
    itself, with that proof. -/
theorem read_setBlockSignature (h : CBlockHeader) {s : List UInt8} (hs : SignedPart.WF s h.signedPart.pod) :
    (h.setBlockSignature s).getBlockSignature = s ∧
      (h.setBlockSignature s).getProofOfDelegation = h.signedPart.pod.getD [] ∧
      (h.setBlockSignature s).hasProofOfDelegation = h.signedPart.pod.isSome :=
  read_pack (h.signedPart.setSig s hs) (setBlockSignature_vch h s)

/-- A proof of delegation of 65 bytes and then a signature of at least 65
    read back as set, and signing keeps the hash without the signature; a
    signature of fewer than 130 bytes on a header without a proof reads back
    as set, with no proof, and keeps that hash too. -/
theorem blockSignature_delegation_packing :
    (∀ (h : CBlockHeader) (vchPoD s : List UInt8), vchPoD.length = 65 → 65 ≤ s.length →
      ((h.setProofOfDelegation vchPoD).setBlockSignature s).getBlockSignature = s ∧
      ((h.setProofOfDelegation vchPoD).setBlockSignature s).getProofOfDelegation = vchPoD ∧
      ((h.setProofOfDelegation vchPoD).setBlockSignature s).hasProofOfDelegation = true ∧
      ∀ (β : Type) (hash : List UInt8 → β),
        ((h.setProofOfDelegation vchPoD).setBlockSignature s).getHashWithoutSign hash =
          (h.setProofOfDelegation vchPoD).getHashWithoutSign hash) ∧
    (∀ (h : CBlockHeader) (s : List UInt8), h.hasProofOfDelegation = false → s.length < 130 →
      (h.setBlockSignature s).getBlockSignature = s ∧ (h.setBlockSignature s).getProofOfDelegation = [] ∧
      ∀ (β : Type) (hash : List UInt8 → β),
        (h.setBlockSignature s).getHashWithoutSign hash = h.getHashWithoutSign hash) := by
  refine ⟨fun h vchPoD s hp hs => ?_, fun h s hpod hs => ?_⟩
  · -- the proof is set whole, and the signature fits beside it
    have hpart : (h.setProofOfDelegation vchPoD).signedPart.pod = some vchPoD := by
      rw [signedPart_setProofOfDelegation h hp]
      rfl
    have hwf : SignedPart.WF s (h.setProofOfDelegation vchPoD).signedPart.pod := by
      rw [hpart]
      exact ⟨hp, hs⟩
    obtain ⟨hsig, hdlgt, hhas⟩ := read_setBlockSignature _ hwf
    rw [hpart] at hdlgt hhas
    exact ⟨hsig, hdlgt, hhas, fun β hash => getHashWithoutSign_setBlockSignature hash _ hwf⟩
  · -- without a proof, a signature of fewer than 130 bytes stays alone
    have hpart := signedPart_pod_of_not_has hpod
    have hwf : SignedPart.WF s h.signedPart.pod := by
      rw [hpart]
      exact hs
    obtain ⟨hsig, hdlgt, -⟩ := read_setBlockSignature _ hwf
    rw [hpart] at hdlgt
    exact ⟨hsig, hdlgt, fun β hash => getHashWithoutSign_setBlockSignature hash _ hwf⟩

theorem blockSignature_delegation_packing_null :
    ((List.replicate 65 (7 : UInt8)).length = 65 ∧ 65 ≤ (List.replicate 70 (1 : UInt8)).length ∧
      ((CBlockHeader.null.setProofOfDelegation (List.replicate 65 7)).setBlockSignature
        (List.replicate 70 1)).getBlockSignature = List.replicate 70 1 ∧
      ((CBlockHeader.null.setProofOfDelegation (List.replicate 65 7)).setBlockSignature
        (List.replicate 70 1)).getProofOfDelegation = List.replicate 65 7 ∧
      ((CBlockHeader.null.setProofOfDelegation (List.replicate 65 7)).setBlockSignature
        (List.replicate 70 1)).hasProofOfDelegation = true ∧
      ((CBlockHeader.null.setProofOfDelegation (List.replicate 65 7)).setBlockSignature
        (List.replicate 70 1)).getHashWithoutSign id =
        (CBlockHeader.null.setProofOfDelegation (List.replicate 65 7)).getHashWithoutSign id) ∧
    (CBlockHeader.null.hasProofOfDelegation = false ∧ (List.replicate 72 (1 : UInt8)).length < 130 ∧
      (CBlockHeader.null.setBlockSignature (List.replicate 72 1)).getBlockSignature = List.replicate 72 1 ∧
      (CBlockHeader.null.setBlockSignature (List.replicate 72 1)).getProofOfDelegation = [] ∧
      (CBlockHeader.null.setBlockSignature (List.replicate 72 1)).getHashWithoutSign id =
        CBlockHeader.null.getHashWithoutSign id) := by
  have hp : (List.replicate 65 (7 : UInt8)).length = 65 := List.length_replicate
  have hs : 65 ≤ (List.replicate 70 (1 : UInt8)).length := by rw [List.length_replicate]; decide
  have hnull : CBlockHeader.null.hasProofOfDelegation = false := rfl
  have hs' : (List.replicate 72 (1 : UInt8)).length < 130 := by rw [List.length_replicate]; decide
  obtain ⟨hsig, hdlgt, hhas, hhash⟩ := blockSignature_delegation_packing.1 CBlockHeader.null _ _ hp hs
  obtain ⟨hsig', hdlgt', hhash'⟩ := blockSignature_delegation_packing.2 CBlockHeader.null _ hnull hs'
  exact ⟨⟨hp, hs, hsig, hdlgt, hhas, hhash _ id⟩, ⟨hnull, hs', hsig', hdlgt', hhash' _ id⟩⟩

end Revo
