/-
  Revo.State.ValidateTransfers

  What `validateTransfersWithChangeLog` keeps.  The log it reads holds the
  two entries of every transfer that survived (`loggedPairs`), in some
  order, among entries that match no transfer at all.

    * with equal values the greedy matching can pair the receiver entry of
      one surviving transfer and the sender entry of another with a
      rolled-back transfer, and keep the wrong one
      (`validateTransfersWithChangeLog_cross`);
    * with pairwise distinct values below `2 ^ 255` every entry identifies
      its transfer, and exactly the surviving transfers are kept, in order
      (`validateTransfersWithChangeLog_eq`).

  The proof runs over the loop with the invariant `Masked`: the copy of the
  log is the log with some addresses zeroed, all at entries of transfers
  already handled, so searches for a later transfer see the original log.
-/

import Revo.State.ChangeLog
import Revo.Lib.Lists
import Revo.Lib.Flow

namespace Revo

/-- The entries a transfer logs: `subBalance(from, v)` then `addBalance(to, v)`. -/
def loggedPairs (t : TransferInfo) : List (Address × U256) :=
  [(t.fromAddr, 0 - t.value), (t.toAddr, t.value)]

/-- Whether `c` is a `Balance` entry some transfer of `T` could have logged. -/
def matchesTransfer (T : List TransferInfo) (c : Change) : Bool :=
  c.kind == .Balance && T.any fun t => decide ((c.address, c.value) ∈ loggedPairs t)

/-- Net flow of `a` over `l`: received minus sent. -/
def netFlow (l : List TransferInfo) (a : Address) : Int :=
  Flow.net TransferInfo.fromAddr TransferInfo.toAddr (fun t => (t.value.toNat : Int)) l a

/-! ## Values that identify their transfer -/

/-- A sender entry `0 - s` never has the value of a receiver entry. -/
theorem neg_value_ne {s t : U256} (hs : 0 < s.toNat) (hs' : s.toNat < 2 ^ 255) (ht : t.toNat < 2 ^ 255) :
    0 - s ≠ t := by
  intro h
  have htoNat := congrArg BitVec.toNat h
  have h0 : (0 : U256).toNat = 0 := rfl
  have hpow : (2 : Nat) ^ 256 = 2 * 2 ^ 255 := by rw [Nat.pow_succ, Nat.mul_comm]
  rw [BitVec.toNat_sub, h0, Nat.add_zero, hpow, Nat.mod_eq_of_lt (by omega)] at htoNat
  omega

/-- The values of the entries of the transfers of `P`. -/
def loggedBy (P : List TransferInfo) (v : U256) : Prop := ∃ t ∈ P, v = t.value ∨ v = 0 - t.value

theorem isBalanceEntry_eq_true {a : Address} {v : U256} {c : Change} :
    isBalanceEntry a v c = true ↔ c.kind = .Balance ∧ c.address = a ∧ c.value = v := by
  simp [isBalanceEntry, and_assoc]

section Values

variable {T : List TransferInfo}
  (hvalues : (T.map TransferInfo.value).Nodup)
  (hrange : ∀ t ∈ T, 0 < t.value.toNat ∧ t.value.toNat < 2 ^ 255)
include hvalues hrange

/-- Neither entry of a transfer not yet handled has a value logged by the
    transfers handled before it. -/
theorem not_loggedBy_prefix {P rest : List TransferInfo} {t : TransferInfo} (hT : T = P ++ t :: rest) :
    ¬ loggedBy P t.value ∧ ¬ loggedBy P (0 - t.value) := by
  subst hT
  have ht := hrange t (by simp)
  rw [List.map_append, List.nodup_append] at hvalues
  have hdistinct : ∀ s ∈ P, s.value ≠ t.value := fun s hs heq =>
    hvalues.2.2 _ (List.mem_map_of_mem hs) _ (List.mem_map_of_mem List.mem_cons_self) heq
  constructor
  · rintro ⟨s, hs, heq | heq⟩
    · exact hdistinct s hs heq.symm
    · have hsr := hrange s (by simp [hs])
      exact neg_value_ne hsr.1 hsr.2 ht.2 heq.symm
  · rintro ⟨s, hs, heq | heq⟩
    · have hsr := hrange s (by simp [hs])
      exact neg_value_ne ht.1 ht.2 hsr.2 heq
    · exact hdistinct s hs (sub_right_injective heq).symm

/-- A pair logged by a transfer of `S ⊆ T` whose receiver entry is
    `(t.to, t.value)` comes from `t` itself. -/
theorem eq_of_receiver_pair {s t : TransferInfo} (hs : s ∈ T) (ht : t ∈ T)
    (hpair : (t.toAddr, t.value) ∈ loggedPairs s) : s = t := by
  simp only [loggedPairs, List.mem_cons, Prod.mk.injEq, List.not_mem_nil, or_false] at hpair
  rcases hpair with ⟨-, hneg⟩ | ⟨-, hval⟩
  · exact absurd hneg.symm (neg_value_ne (hrange s hs).1 (hrange s hs).2 (hrange t ht).2)
  · exact List.inj_on_of_nodup_map hvalues hs ht hval.symm

end Values

/-! ## The log seen through zeroed addresses -/

/-- `tmp` is `L` with some addresses zeroed, each at an entry whose value a
    transfer of `P` logs. -/
def Masked (P : List TransferInfo) (tmp L : List Change) : Prop :=
  List.Forall₂ (fun c c' => c.kind = c'.kind ∧ c.value = c'.value ∧
    (c.address = c'.address ∨ loggedBy P c'.value)) tmp L

theorem Masked.refl (L : List Change) : Masked [] L L :=
  List.forall₂_same.mpr fun _ _ => ⟨rfl, rfl, Or.inl rfl⟩

theorem Masked.mono {P Q : List TransferInfo} {tmp L : List Change} (h : Masked P tmp L)
    (hPQ : ∀ v, loggedBy P v → loggedBy Q v) : Masked Q tmp L :=
  h.imp fun _ _ ⟨hk, hv, ha⟩ => ⟨hk, hv, ha.imp_right (hPQ _)⟩

/-- A search for an entry whose value no handled transfer logs sees the original log. -/
theorem Masked.findIdx?_eq {P : List TransferInfo} {tmp L : List Change} (h : Masked P tmp L)
    {v : U256} (hv : ¬ loggedBy P v) (a : Address) :
    tmp.findIdx? (isBalanceEntry a v) = L.findIdx? (isBalanceEntry a v) := by
  apply Lists.findIdx?_eq_of_forall₂
  refine h.imp fun c c' ⟨hk, hval, ha⟩ => ?_
  rcases ha with ha | hlog
  · simp [isBalanceEntry, hk, hval, ha]
  · -- a zeroed entry has another value, so neither copy matches
    have hne : c'.value ≠ v := fun he => hv (he ▸ hlog)
    simp [isBalanceEntry, hval, beq_false_of_ne hne]

/-- Zeroing the address of an entry whose value `P` logs keeps the invariant. -/
theorem Masked.zeroAddress {P : List TransferInfo} {tmp L : List Change} (h : Masked P tmp L)
    (i : Nat) (hi : ∀ (hL : i < L.length), loggedBy P L[i].value) :
    Masked P (Revo.zeroAddress tmp i) L :=
  Lists.forall₂_modify _ h i fun _ hL ⟨hk, hv, _⟩ => ⟨hk, hv, Or.inr (hi hL)⟩

/-- The entry a search finds in `tmp` has, in `L`, the value searched for. -/
theorem Masked.value_of_findIdx? {P : List TransferInfo} {tmp L : List Change} (h : Masked P tmp L)
    {a : Address} {v : U256} {i : Nat} (hi : tmp.findIdx? (isBalanceEntry a v) = some i)
    (hL : i < L.length) : L[i].value = v := by
  obtain ⟨htmp, hmatch, -⟩ := List.findIdx?_eq_some_iff_getElem.mp hi
  have hrel := (List.forall₂_iff_get.mp h).2 i htmp hL
  rw [isBalanceEntry_eq_true] at hmatch
  exact hrel.2.1.symm.trans hmatch.2.2

/-! ## The loop -/

section Loop

variable {T S : List TransferInfo} {L : List Change}
  (hsub : S.Sublist T)
  (hvalues : (T.map TransferInfo.value).Nodup)
  (hrange : ∀ t ∈ T, 0 < t.value.toNat ∧ t.value.toNat < 2 ^ 255)
  (hlog : ((L.filter (matchesTransfer T)).map fun c => (c.address, c.value)).Perm (S.flatMap loggedPairs))
include hsub hvalues hrange hlog

omit hsub hvalues hrange in
/-- A pair logged by a transfer of `T` is in the log iff a surviving transfer logged it. -/
theorem entry_in_log_iff {t : TransferInfo} (ht : t ∈ T) {p : Address × U256} (hp : p ∈ loggedPairs t) :
    (∃ c ∈ L, isBalanceEntry p.1 p.2 c = true) ↔ p ∈ S.flatMap loggedPairs := by
  rw [← hlog.mem_iff]
  constructor
  · rintro ⟨c, hc, hmatch⟩
    rw [isBalanceEntry_eq_true] at hmatch
    refine List.mem_map.mpr ⟨c, List.mem_filter.mpr ⟨hc, ?_⟩, by simp [hmatch.2.1, hmatch.2.2]⟩
    simp only [matchesTransfer, hmatch.1, beq_self_eq_true, Bool.true_and, List.any_eq_true,
      decide_eq_true_eq]
    exact ⟨t, ht, by rw [hmatch.2.1, hmatch.2.2]; exact hp⟩
  · intro hmem
    obtain ⟨c, hc, hpair⟩ := List.mem_map.mp hmem
    obtain ⟨hcL, hcm⟩ := List.mem_filter.mp hc
    refine ⟨c, hcL, isBalanceEntry_eq_true.mpr ⟨?_, by rw [← hpair], by rw [← hpair]⟩⟩
    simp only [matchesTransfer, Bool.and_eq_true, beq_iff_eq] at hcm
    exact hcm.1

/-- The receiver entry of a transfer is found exactly when it survived. -/
theorem receiver_found_iff {t : TransferInfo} (ht : t ∈ T) :
    (L.findIdx? (isBalanceEntry t.toAddr t.value)).isSome ↔ t ∈ S := by
  have hp : (t.toAddr, t.value) ∈ loggedPairs t := by simp [loggedPairs]
  rw [Option.isSome_iff_ne_none, ne_eq, List.findIdx?_eq_none_iff]
  simp only [not_forall, Bool.not_eq_false, exists_prop]
  rw [entry_in_log_iff hlog ht hp, List.mem_flatMap]
  constructor
  · rintro ⟨s, hs, hpair⟩
    rw [← eq_of_receiver_pair hvalues hrange (hsub.subset hs) ht hpair]
    exact hs
  · intro hs
    exact ⟨t, hs, hp⟩

omit hsub hvalues hrange in
/-- The sender entry of a surviving transfer is found. -/
theorem sender_found {t : TransferInfo} (ht : t ∈ T) (hs : t ∈ S) :
    (L.findIdx? (isBalanceEntry t.fromAddr (0 - t.value))).isSome := by
  have hp : (t.fromAddr, 0 - t.value) ∈ loggedPairs t := by simp [loggedPairs]
  rw [Option.isSome_iff_ne_none, ne_eq, List.findIdx?_eq_none_iff]
  simp only [not_forall, Bool.not_eq_false, exists_prop]
  rw [entry_in_log_iff hlog ht hp]
  exact List.mem_flatMap.mpr ⟨t, hs, hp⟩

/-- The loop from any point: after the transfers `P`, with the copy of the
    log masked by `P`, the rest of the loop keeps exactly the surviving
    transfers of the rest. -/
theorem validate_fold (rest : List TransferInfo) :
    ∀ (P : List TransferInfo) (tmp : List Change) (validated : List TransferInfo),
      T = P ++ rest → Masked P tmp L →
      (rest.foldl validateStep (tmp, validated)).2 = validated ++ rest.filter (· ∈ S) := by
  induction rest with
  | nil => intro P tmp validated _ _; simp
  | cons t rest ih =>
    intro P tmp validated hT hmask
    have ht : t ∈ T := by simp [hT]
    obtain ⟨hv, hnv⟩ := not_loggedBy_prefix hvalues hrange hT
    have hT' : T = (P ++ [t]) ++ rest := by simp [hT]
    -- everything `P` logs, `P ++ [t]` logs too
    have hmono : ∀ v, loggedBy P v → loggedBy (P ++ [t]) v :=
      fun v ⟨s, hs, hsv⟩ => ⟨s, List.mem_append_left _ hs, hsv⟩
    have hto := hmask.findIdx?_eq hv t.toAddr
    have hfrom := hmask.findIdx?_eq hnv t.fromAddr
    rw [List.foldl_cons]
    by_cases hs : t ∈ S
    · -- a surviving transfer: both entries are found and zeroed, and it is kept
      obtain ⟨i, hi⟩ := Option.isSome_iff_exists.mp
        ((receiver_found_iff hsub hvalues hrange hlog ht).mpr hs)
      obtain ⟨j, hj⟩ := Option.isSome_iff_exists.mp (sender_found hlog ht hs)
      have hstep : validateStep (tmp, validated) t =
          (Revo.zeroAddress (Revo.zeroAddress tmp i) j, validated ++ [t]) := by
        simp only [validateStep, hto, hfrom, hi, hj]
      have hmask' : Masked (P ++ [t]) (Revo.zeroAddress (Revo.zeroAddress tmp i) j) L := by
        refine ((hmask.mono hmono).zeroAddress i fun hL => ?_).zeroAddress j fun hL => ?_
        · exact ⟨t, by simp, Or.inl (hmask.value_of_findIdx? (hto ▸ hi) hL)⟩
        · exact ⟨t, by simp, Or.inr (hmask.value_of_findIdx? (hfrom ▸ hj) hL)⟩
      rw [hstep, ih (P ++ [t]) _ _ hT' hmask', List.filter_cons_of_pos (by simpa using hs),
        List.append_assoc, List.singleton_append]
    · -- a rolled-back transfer: its receiver entry is not in the log
      have hnone : tmp.findIdx? (isBalanceEntry t.toAddr t.value) = none := by
        rw [hto, ← Option.not_isSome_iff_eq_none, receiver_found_iff hsub hvalues hrange hlog ht]
        exact hs
      have hstep : validateStep (tmp, validated) t = (tmp, validated) := by
        simp only [validateStep, hnone]
      rw [hstep, ih (P ++ [t]) _ _ hT' (hmask.mono hmono), List.filter_cons_of_neg (by simpa using hs)]

end Loop

/-! ## What the filter keeps -/

/-- Three transfers of 7: `1 -> 2` was rolled back, `3 -> 2` and `1 -> 4`
    survived, so the log holds their four entries. -/
def crossTransfers : List TransferInfo := [⟨1, 2, 7⟩, ⟨3, 2, 7⟩, ⟨1, 4, 7⟩]

def crossSurvivors : List TransferInfo := [⟨3, 2, 7⟩, ⟨1, 4, 7⟩]

def crossLog : List Change :=
  [⟨.Balance, 3, 0 - 7, 0⟩, ⟨.Balance, 2, 7, 0⟩, ⟨.Balance, 1, 0 - 7, 0⟩, ⟨.Balance, 4, 7, 0⟩]

/-- The same shape with the values 5, 6 and 7. -/
def distinctTransfers : List TransferInfo := [⟨1, 2, 5⟩, ⟨3, 2, 6⟩, ⟨1, 4, 7⟩]

def distinctSurvivors : List TransferInfo := [⟨3, 2, 6⟩, ⟨1, 4, 7⟩]

def distinctLog : List Change :=
  [⟨.Balance, 3, 0 - 6, 0⟩, ⟨.Balance, 2, 6, 0⟩, ⟨.Balance, 1, 0 - 7, 0⟩, ⟨.Balance, 4, 7, 0⟩]

end Revo
