/-
  Revo.Util.AsmapProofs

  What `SanityCheckASMap` guarantees `Interpret`.  A state of the check's
  loop is reached from the start by passes that go on (`Reaches`), and an
  accepted run is accepted from each of its states
  (`sanityLoop_of_reaches`).  One lemma for each kind of instruction says
  what an accepted pass over it checks and where it goes on
  (`accept_return`, `accept_jump`, `accept_match`, `accept_default`).  The
  jump stack is a stack: a target pushed onto it is reached later by the
  walk, with the input bits the jump left (`reaches_jump_target`).

  So every state of `Interpret` is covered by a state of the accepted walk
  at the same place with no more input bits (`Cover`), and the interpreter,
  by induction on its own recursion, returns without `assert(false)`
  (`interpretLoop_safe`): an ASN decoded from the map, or the `0` it starts
  from when a `MATCH` fails before any `DEFAULT`.
-/

import Revo.Util.Asmap
import Mathlib

namespace Revo

namespace Asmap

variable {asmap : List Bool}

-- ============================================================================
-- The check's loop
-- ============================================================================

/-- `s'` is reached from `s` by passes of the check that go on. -/
def Reaches (asmap : List Bool) : SanityState → SanityState → Prop :=
  Relation.ReflTransGen fun s s' => sanityStep asmap s = .inr s'

theorem sanityLoop_nil {s : SanityState} (h : s.pos = []) : sanityLoop asmap s = false := by
  rw [sanityLoop.eq_1]
  split
  · rfl
  · simp_all

theorem sanityLoop_of_inl {s : SanityState} {r : Bool} (hpos : s.pos ≠ []) (h : sanityStep asmap s = .inl r) :
    sanityLoop asmap s = r := by
  rw [sanityLoop.eq_1]
  split
  · contradiction
  · split <;> simp_all

theorem sanityLoop_of_step {s s' : SanityState} (h : sanityStep asmap s = .inr s') :
    sanityLoop asmap s = sanityLoop asmap s' := by
  obtain ⟨bit, rest, hpos, -⟩ := sanityStep_suffix h
  rw [sanityLoop.eq_1]
  split
  · simp_all
  · split <;> simp_all

theorem sanityLoop_of_reaches {s s' : SanityState} (h : Reaches asmap s s') :
    sanityLoop asmap s = sanityLoop asmap s' := by
  induction h with
  | refl => rfl
  | tail _ hstep ih => exact ih.trans (sanityLoop_of_step hstep)

theorem Reaches.suffix {s s' : SanityState} (h : Reaches asmap s s') (hs : s.pos <:+ asmap) : s'.pos <:+ asmap := by
  induction h with
  | refl => exact hs
  | tail _ hstep ih =>
    obtain ⟨bit, rest, hpos, hsuf⟩ := sanityStep_suffix hstep
    exact hsuf.trans ((List.suffix_cons bit rest).trans (hpos ▸ ih))

/-- An accepted state is not at the end of the map, and its pass does not
    reject it. -/
theorem accepted_pass {s : SanityState} (h : sanityLoop asmap s = true) :
    s.pos ≠ [] ∧ sanityStep asmap s ≠ .inl false := by
  have hpos : s.pos ≠ [] := by
    intro hnil
    rw [sanityLoop_nil hnil] at h
    cases h
  refine ⟨hpos, fun hstep => ?_⟩
  rw [sanityLoop_of_inl hpos hstep] at h
  cases h

-- ============================================================================
-- One pass over each kind of instruction
-- ============================================================================

section Pass

variable {s : SanityState}

theorem accept_type (hok : sanityStep asmap s ≠ .inl false) : (decodeType s.pos).1 ≠ none := by
  intro hnone
  apply hok
  simp only [sanityStep, hnone]
  split <;> rfl

theorem accept_return {asn : Nat} {pos : List Bool} (hop : (decodeType s.pos).1 = some .RETURN)
    (ha : decodeASN (decodeType s.pos).2 = (asn, pos)) (hok : sanityStep asmap s ≠ .inl false) :
    asn ≠ INVALID := by
  intro hinv
  apply hok
  simp only [sanityStep, hop, ha, hinv]
  split_ifs <;> rfl

theorem accept_jump {jump : Nat} {pos : List Bool} (hop : (decodeType s.pos).1 = some .JUMP)
    (hj : decodeJump (decodeType s.pos).2 = (jump, pos)) (hok : sanityStep asmap s ≠ .inl false) :
    jump ≠ INVALID ∧ jump ≤ pos.length ∧ s.bits ≠ 0 ∧
      ∃ s', sanityStep asmap s = .inr s' ∧ s'.pos = pos ∧ s'.bits = s.bits - 1 ∧
        s'.jumps = (asmap.length - pos.length + jump, s.bits - 1) :: s.jumps := by
  simp only [sanityStep, hop, hj] at hok ⊢
  split_ifs at hok ⊢ with h1 h2 h3 h4 h5
  all_goals first
    | exact absurd rfl hok
    | exact ⟨h2, by omega, h4, _, rfl, rfl, rfl, rfl⟩

theorem accept_match {m : Nat} {pos : List Bool} (hop : (decodeType s.pos).1 = some .MATCH)
    (hm : decodeMatch (decodeType s.pos).2 = (m, pos)) (hok : sanityStep asmap s ≠ .inl false) :
    m ≠ INVALID ∧ countBits m - 1 ≤ s.bits ∧
      ∃ s', sanityStep asmap s = .inr s' ∧ s'.pos = pos ∧ s'.bits = s.bits - (countBits m - 1) ∧
        s'.jumps = s.jumps := by
  simp only [sanityStep, hop, hm] at hok ⊢
  split_ifs at hok ⊢ with h1 h2 h3 h4
  all_goals first
    | exact absurd rfl hok
    | exact ⟨h2, by omega, _, rfl, rfl, rfl, rfl⟩

theorem accept_default {asn : Nat} {pos : List Bool} (hop : (decodeType s.pos).1 = some .DEFAULT)
    (ha : decodeASN (decodeType s.pos).2 = (asn, pos)) (hok : sanityStep asmap s ≠ .inl false) :
    asn ≠ INVALID ∧ ∃ s', sanityStep asmap s = .inr s' ∧ s'.pos = pos ∧ s'.bits = s.bits ∧ s'.jumps = s.jumps := by
  simp only [sanityStep, hop, ha] at hok ⊢
  split_ifs at hok ⊢ with h1 h2 h3
  all_goals first
    | exact absurd rfl hok
    | exact ⟨h3, _, rfl, rfl, rfl, rfl⟩

/-- The check accepts only at a `RETURN` with no jump left to follow. -/
theorem sanityStep_inl_true (h : sanityStep asmap s = .inl true) : s.jumps = [] := by
  simp only [sanityStep] at h
  repeat' split at h
  all_goals first
    | assumption
    | cases h

/-- What a pass that goes on does to the jump stack: nothing, a push, or a
    pop at the popped target with the bits it saved. -/
theorem sanityStep_jumps {s' : SanityState} (h : sanityStep asmap s = .inr s') :
    s'.jumps = s.jumps ∨ (∃ x, s'.jumps = x :: s.jumps) ∨
      ∃ target, s.jumps = (target, s'.bits) :: s'.jumps ∧ asmap.length - s'.pos.length = target := by
  simp only [sanityStep] at h
  repeat' split at h
  all_goals first
    | (cases h; exact .inl rfl)
    | (cases h; exact .inr (.inl ⟨_, rfl⟩))
    | (cases h; exact .inr (.inr ⟨_, by dsimp only; assumption, by dsimp only; omega⟩))
    | cases h

end Pass

-- ============================================================================
-- Jump targets
-- ============================================================================

/-- A target on the jump stack of an accepted state is reached by the walk,
    with the input bits the jump saved.  The induction is on the check's
    loop; the targets above it on the stack are popped first. -/
theorem reaches_jump_target {target bits : Nat} {J : List (Nat × Nat)} :
    ∀ (s : SanityState) (top : List (Nat × Nat)), sanityLoop asmap s = true →
      s.jumps = top ++ (target, bits) :: J →
      ∃ s', Reaches asmap s s' ∧ asmap.length - s'.pos.length = target ∧ s'.bits = bits := by
  intro s
  induction s using sanityLoop.induct asmap with
  | case1 s hpos =>
    intro top hacc
    rw [sanityLoop_nil hpos] at hacc
    cases hacc
  | case2 s bit rest hpos r hstep =>
    intro top hacc hjumps
    rw [sanityLoop_of_inl (by simp [hpos]) hstep] at hacc
    subst hacc
    rw [sanityStep_inl_true hstep] at hjumps
    cases top <;> cases hjumps
  | case3 s bit rest hpos s' hstep ih =>
    intro top hacc hjumps
    rw [sanityLoop_of_step hstep] at hacc
    rcases sanityStep_jumps hstep with hsame | ⟨x, hpush⟩ | ⟨t, hpop, hoff⟩
    · obtain ⟨s'', hr, h⟩ := ih top hacc (hsame.trans hjumps)
      exact ⟨s'', hr.head hstep, h⟩
    · obtain ⟨s'', hr, h⟩ := ih (x :: top) hacc (by rw [hpush, hjumps]; rfl)
      exact ⟨s'', hr.head hstep, h⟩
    · rw [hjumps] at hpop
      cases top with
      | nil =>
        -- the target itself is popped: the walk is there
        rw [List.nil_append, List.cons.injEq, Prod.mk.injEq] at hpop
        obtain ⟨⟨rfl, hb⟩, -⟩ := hpop
        exact ⟨s', Relation.ReflTransGen.single hstep, hoff, hb.symm⟩
      | cons y top =>
        rw [List.cons_append, List.cons.injEq] at hpop
        obtain ⟨s'', hr, h⟩ := ih top hacc hpop.2.symm
        exact ⟨s'', hr.head hstep, h⟩

-- ============================================================================
-- Interpret against the check
-- ============================================================================

theorem matchLoop_eq_some {ip : List Bool} {m : Nat} (k : Nat) :
    ∀ {bits bits' : Nat}, matchLoop ip m k bits = some bits' → bits' = bits - k := by
  induction k with
  | zero =>
    intro bits bits' h
    simp only [matchLoop, Option.some.injEq] at h
    omega
  | succ k ih =>
    intro bits bits' h
    rw [matchLoop] at h
    split at h
    · cases h
    · rw [ih h]
      omega

/-- The decoders only add to the value they start from, or stop at
    `INVALID`. -/
theorem min_le_decodeMantissa (val k : Nat) (bitpos : List Bool) :
    min val INVALID ≤ (decodeMantissa val k bitpos).1 := by
  induction bitpos generalizing val k with
  | nil => cases k <;> simp [decodeMantissa]
  | cons bit bitpos ih =>
    cases k with
    | zero => exact Nat.min_le_left val INVALID
    | succ k =>
      rw [decodeMantissa]
      exact (min_le_min_right INVALID (Nat.le_add_right val _)).trans (ih _ k)

theorem min_le_decodeBits (val : Nat) (sizes : List Nat) (bitpos : List Bool) :
    min val INVALID ≤ (decodeBits val sizes bitpos).1 := by
  fun_induction decodeBits val sizes bitpos with
  | case1 => exact Nat.min_le_right _ _
  | case2 val size bitpos => exact min_le_decodeMantissa val size bitpos
  | case3 => exact Nat.min_le_right _ _
  | case4 val size head tail bitpos ih => exact (min_le_min_right INVALID (Nat.le_add_right val _)).trans ih
  | case5 val size head tail bit bitpos => exact min_le_decodeMantissa val size bitpos

/-- `0` is no ASN: `DecodeASN` starts from `1`. -/
theorem decodeASN_ne_zero (bitpos : List Bool) : (decodeASN bitpos).1 ≠ 0 := by
  have := min_le_decodeBits 1 ASN_BIT_SIZES bitpos
  rw [decodeASN]
  have hinv : min 1 INVALID = 1 := by decide
  omega

/-- A value `Interpret` may return: not `INVALID`, and either the `0` it
    starts from or an ASN decoded from the map. -/
def AsnOf (asmap : List Bool) (v : Nat) : Prop :=
  v ≠ INVALID ∧ (v = 0 ∨ ∃ p, p <:+ asmap ∧ (decodeASN p).1 = v)

/-- A state of the check's walk from `s0` that covers `Interpret` at `pos`
    with `bits` input bits left. -/
structure Cover (asmap : List Bool) (s0 : SanityState) (pos : List Bool) (bits : Nat) (s : SanityState) : Prop where
  reaches : Reaches asmap s0 s
  pos_eq : s.pos = pos
  bits_le : s.bits ≤ bits

section Simulation

variable {s0 s : SanityState} (hacc : sanityLoop asmap s0 = true) {pos : List Bool} {bits : Nat}
include hacc

theorem Cover.accepted (hs : Cover asmap s0 pos bits s) : sanityLoop asmap s = true :=
  (sanityLoop_of_reaches hs.reaches).symm.trans hacc

omit hacc in
theorem Cover.suffix (hs : Cover asmap s0 pos bits s) (hsuf : s0.pos <:+ asmap) : pos <:+ asmap :=
  hs.pos_eq ▸ hs.reaches.suffix hsuf

omit hacc in
theorem Cover.next {s' : SanityState} {pos' : List Bool} {bits' : Nat} (hs : Cover asmap s0 pos bits s)
    (hstep : sanityStep asmap s = .inr s') (hpos : s'.pos = pos') (hbits : s'.bits ≤ bits') :
    Cover asmap s0 pos' bits' s' :=
  ⟨hs.reaches.tail hstep, hpos, hbits⟩

theorem Cover.ne_nil (hs : Cover asmap s0 pos bits s) : pos ≠ [] :=
  hs.pos_eq ▸ (accepted_pass (hs.accepted hacc)).1

theorem Cover.of_type (hs : Cover asmap s0 pos bits s) : (decodeType pos).1 ≠ none :=
  hs.pos_eq ▸ accept_type (accepted_pass (hs.accepted hacc)).2

theorem Cover.of_return (hs : Cover asmap s0 pos bits s) (hop : (decodeType pos).1 = some .RETURN) :
    (decodeASN (decodeType pos).2).1 ≠ INVALID := by
  rw [← hs.pos_eq] at hop ⊢
  exact accept_return hop rfl (accepted_pass (hs.accepted hacc)).2

theorem Cover.of_default {asn : Nat} {pos' : List Bool} (hs : Cover asmap s0 pos bits s)
    (hop : (decodeType pos).1 = some .DEFAULT) (ha : decodeASN (decodeType pos).2 = (asn, pos')) :
    asn ≠ INVALID ∧ ∃ s', Cover asmap s0 pos' bits s' := by
  rw [← hs.pos_eq] at hop ha
  obtain ⟨hinv, s', hstep, hpos', hbits', -⟩ := accept_default hop ha (accepted_pass (hs.accepted hacc)).2
  exact ⟨hinv, s', hs.next hstep hpos' (hbits' ▸ hs.bits_le)⟩

theorem Cover.of_match {m : Nat} {pos' : List Bool} (hs : Cover asmap s0 pos bits s)
    (hop : (decodeType pos).1 = some .MATCH) (hm : decodeMatch (decodeType pos).2 = (m, pos')) :
    m ≠ INVALID ∧ countBits m - 1 ≤ bits ∧ ∃ s', Cover asmap s0 pos' (bits - (countBits m - 1)) s' := by
  rw [← hs.pos_eq] at hop hm
  obtain ⟨hinv, hle, s', hstep, hpos', hbits', -⟩ := accept_match hop hm (accepted_pass (hs.accepted hacc)).2
  have hb := hs.bits_le
  exact ⟨hinv, by omega, s', hs.next hstep hpos' (by omega)⟩

/-- A jump the interpreter may take: the check has seen both ways on, and
    the walk reaches the target, which is therefore inside the map. -/
theorem Cover.of_jump {jump : Nat} {pos' : List Bool} (hsuf : s0.pos <:+ asmap) (hs : Cover asmap s0 pos bits s)
    (hop : (decodeType pos).1 = some .JUMP) (hj : decodeJump (decodeType pos).2 = (jump, pos')) :
    jump ≠ INVALID ∧ bits ≠ 0 ∧ jump < pos'.length ∧ (∃ s', Cover asmap s0 pos' (bits - 1) s') ∧
      ∃ s', Cover asmap s0 (pos'.drop jump) (bits - 1) s' := by
  rw [← hs.pos_eq] at hop hj
  obtain ⟨hinv, hle, hb, s', hstep, hpos', hbits', hjumps'⟩ := accept_jump hop hj (accepted_pass (hs.accepted hacc)).2
  have hbs := hs.bits_le
  have hc' : Cover asmap s0 pos' (bits - 1) s' := hs.next hstep hpos' (by omega)
  obtain ⟨s'', hr, hoff, hbits''⟩ := reaches_jump_target s' [] (hc'.accepted hacc) hjumps'
  have hc'' : Cover asmap s0 s''.pos (bits - 1) s'' := ⟨hc'.reaches.trans hr, rfl, by omega⟩
  -- the target is an accepted state, so not the end of the map
  have hne : 0 < s''.pos.length := List.length_pos_of_ne_nil (hc''.ne_nil hacc)
  have hsuf' : pos' <:+ asmap := hc'.suffix hsuf
  have hsuf'' : s''.pos <:+ asmap := hc''.suffix hsuf
  have hlen' := hsuf'.length_le
  have hlen'' := hsuf''.length_le
  have hlt : jump < pos'.length := by omega
  -- two suffixes of the map of one length are one suffix
  have htarget : s''.pos = pos'.drop jump := by
    rw [List.suffix_iff_eq_drop.mp hsuf'', List.suffix_iff_eq_drop.mp ((List.drop_suffix jump pos').trans hsuf'),
      List.length_drop]
    congr 1
    omega
  exact ⟨hinv, by omega, hlt, ⟨s', hc'⟩, s'', htarget ▸ hc''⟩

/-- `Interpret` from a covered state returns, and what it returns is an ASN
    of the map or the `0` it started from.  The induction follows the
    interpreter's own recursion: each branch that breaks out of the loop
    is one the check has refused, and each recursive call is covered again. -/
theorem interpretLoop_safe (hsuf : s0.pos <:+ asmap) (ip pos : List Bool) (bits d : Nat) :
    ∀ {s : SanityState}, Cover asmap s0 pos bits s → AsnOf asmap d →
      ∃ v, interpretLoop ip pos bits d = some v ∧ AsnOf asmap v := by
  -- the last hypothesis of each case is named by `rename_i`
  fun_induction interpretLoop ip pos bits d with
  | case1 bits d =>
    intro s hs _
    exact absurd rfl (hs.ne_nil hacc)
  | case2 bits d bit rest opcode hop asn =>
    rename_i hinv
    intro s hs _
    exact absurd hinv (hs.of_return hacc hop)
  | case3 bits d bit rest opcode hop asn =>
    rename_i hinv
    intro s hs _
    -- `RETURN`: the ASN is decoded after the type
    have hp : opcode.2 <:+ asmap := (decodeType_cons_suffix bit rest).trans
      ((List.suffix_cons bit rest).trans (hs.suffix hsuf))
    exact ⟨asn.1, rfl, hinv, .inr ⟨opcode.2, hp, rfl⟩⟩
  | case4 bits d bit rest opcode hop jump =>
    rename_i hinv
    intro s hs _
    exact absurd hinv (hs.of_jump hacc hsuf hop (show decodeJump opcode.2 = (jump.1, jump.2) from rfl)).1
  | case5 d bit rest opcode hop jump =>
    intro s hs _
    exact absurd rfl (hs.of_jump hacc hsuf hop (show decodeJump opcode.2 = (jump.1, jump.2) from rfl)).2.1
  | case6 bits d bit rest opcode hop jump hinv hbits =>
    rename_i hlen
    intro s hs _
    exact absurd (hs.of_jump hacc hsuf hop (show decodeJump opcode.2 = (jump.1, jump.2) from rfl)).2.2.1
      (Nat.not_lt.mpr hlen)
  | case7 bits d bit rest opcode hop jump hinv hbits hlen hbit =>
    rename_i ih
    intro s hs hd
    -- the jump is taken: the walk reaches its target
    obtain ⟨s'', hc''⟩ := (hs.of_jump hacc hsuf hop (show decodeJump opcode.2 = (jump.1, jump.2) from rfl)).2.2.2.2
    exact ih hc'' hd
  | case8 bits d bit rest opcode hop jump hinv hbits hlen hbit =>
    rename_i ih
    intro s hs hd
    obtain ⟨s', hc'⟩ := (hs.of_jump hacc hsuf hop (show decodeJump opcode.2 = (jump.1, jump.2) from rfl)).2.2.2.1
    exact ih hc' hd
  | case9 bits d bit rest opcode hop m =>
    rename_i hinv
    intro s hs _
    exact absurd hinv (hs.of_match hacc hop (show decodeMatch opcode.2 = (m.1, m.2) from rfl)).1
  | case10 bits d bit rest opcode hop m hinv matchlen =>
    rename_i hlt
    intro s hs _
    exact absurd (hs.of_match hacc hop (show decodeMatch opcode.2 = (m.1, m.2) from rfl)).2.1 (Nat.not_le.mpr hlt)
  | case11 bits d =>
    intro s _ hd
    -- a bit differs: `Interpret` returns `default_asn`
    exact ⟨d, rfl, hd⟩
  | case12 bits d bit rest opcode hop m hinv matchlen hlt bits' hmatch =>
    rename_i ih
    intro s hs hd
    obtain ⟨-, -, s', hc'⟩ := hs.of_match hacc hop (show decodeMatch opcode.2 = (m.1, m.2) from rfl)
    rw [← matchLoop_eq_some matchlen hmatch] at hc'
    exact ih hc' hd
  | case13 bits d bit rest opcode hop asn =>
    rename_i hinv
    intro s hs _
    exact absurd hinv (hs.of_default hacc hop (show decodeASN opcode.2 = (asn.1, asn.2) from rfl)).1
  | case14 bits d bit rest opcode hop asn hinv =>
    rename_i ih
    intro s hs _
    -- `DEFAULT`: the new `default_asn` is decoded after the type
    obtain ⟨-, s', hc'⟩ := hs.of_default hacc hop (show decodeASN opcode.2 = (asn.1, asn.2) from rfl)
    have hp : opcode.2 <:+ asmap := (decodeType_cons_suffix bit rest).trans
      ((List.suffix_cons bit rest).trans (hs.suffix hsuf))
    exact ih hc' ⟨hinv, .inr ⟨opcode.2, hp, rfl⟩⟩
  | case15 bits d bit rest opcode =>
    rename_i hop
    intro s hs _
    exact absurd hop (hs.of_type hacc)

end Simulation

-- ============================================================================
-- Interpret on a checked map
-- ============================================================================

/-- On a map the check accepts for `bits` input bits, `Interpret` returns
    on every input of at least that many bits. -/
theorem interpret_safe {asmap ip : List Bool} {bits : Nat} (hcheck : sanityCheckASMap asmap bits = true)
    (hip : bits ≤ ip.length % 256) :
    ∃ v, interpret asmap ip = some v ∧ AsnOf asmap v :=
  interpretLoop_safe hcheck (List.suffix_refl asmap) ip asmap (ip.length % 256) 0
    ⟨Relation.ReflTransGen.refl, rfl, hip⟩ ⟨by decide, .inl rfl⟩

theorem interpret_of_sanityCheck (asmap ip : List Bool) (hcheck : sanityCheckASMap asmap 128 = true)
    (hip : ip.length = 128) :
    ∃ v, interpret asmap ip = some v ∧ v ≠ INVALID ∧ (v = 0 ∨ ∃ p, p <:+ asmap ∧ (decodeASN p).1 = v) :=
  interpret_safe hcheck (by rw [hip])

/-- A jump on the first input bit between `RETURN 1` and `RETURN 2`. -/
theorem interpret_of_sanityCheck_jump :
    sanityCheckASMap ([true, false, false, false, false, false, false, false] ++
        ([false, false] ++ List.replicate 15 false) ++ ([false, false] ++ List.replicate 14 false ++ [true])) 128 = true ∧
      (List.replicate 128 false).length = 128 ∧
      ∃ v, interpret ([true, false, false, false, false, false, false, false] ++
          ([false, false] ++ List.replicate 15 false) ++ ([false, false] ++ List.replicate 14 false ++ [true]))
          (List.replicate 128 false) = some v ∧ v ≠ INVALID ∧
        (v = 0 ∨ ∃ p, p <:+ ([true, false, false, false, false, false, false, false] ++
          ([false, false] ++ List.replicate 15 false) ++ ([false, false] ++ List.replicate 14 false ++ [true])) ∧
          (decodeASN p).1 = v) :=
  ⟨by decide +kernel, List.length_replicate, interpret_of_sanityCheck _ _ (by decide +kernel) List.length_replicate⟩

/-- A map the check accepts, `MATCH 0` on one bit then `RETURN 1`, on which
    `Interpret` returns `0` for an input starting with a one: no ASN is
    `0` (`decodeASN_ne_zero`). -/
theorem interpret_returns_zero :
    sanityCheckASMap ([true, true, false, false, false] ++ ([false, false] ++ List.replicate 15 false)) 128 = true ∧
      (true :: List.replicate 127 false).length = 128 ∧
      interpret ([true, true, false, false, false] ++ ([false, false] ++ List.replicate 15 false))
        (true :: List.replicate 127 false) = some 0 := by
  decide +kernel

end Asmap

end Revo
