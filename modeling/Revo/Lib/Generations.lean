/-
  Revo.Lib.Generations

  A store of cells stamped with cycling generation numbers.  Generation
  `t`, counted from `0`, has the number `stamp t`, one of `1`, `2`, `3`;
  `0` marks an empty cell.  A write stamps cells with the current number,
  and a new generation first empties the cells holding its own number,
  which is that of the generation three before it.

    * `Recent cells T t cs`: every cell of `cs` was last written at a
      generation from `t` to the current one `T`;
    * `Recent.write`, `Recent.wipe`: writes keep it, and so does a new
      generation for cells written at most one generation before the
      current one;
    * `Recent.ne_zero`: such cells are not empty.

  `Store` is the whole store: a generation ends once it holds `E` entries.
  `counters E n` are its two counters after `n` inserts, and
  `Store.run_recent` says that every insert of the current generation and
  of the two before it still finds its cells stamped; by
  `counters_gen_le_add_two` these include the last `2 * E + 1` inserts.
-/

import Mathlib.Data.BitVec

namespace Generations

/-- The number of generation `t`: `1`, `2`, `3`, `1`, ... -/
def stamp (t : Nat) : Nat := t % 3 + 1

/-- The next number: up by one, and from `3` back to `1`. -/
def next (g : Nat) : Nat := if g + 1 = 4 then 1 else g + 1

theorem next_stamp (t : Nat) : next (stamp t) = stamp (t + 1) := by
  rw [next, stamp, stamp]
  split <;> omega

theorem stamp_pos (t : Nat) : 0 < stamp t := Nat.succ_pos _

theorem stamp_lt (t : Nat) : stamp t < 4 := by
  rw [stamp]
  omega

/-- Three generations in a row have three numbers. -/
theorem stamp_ne {t t' : Nat} (h1 : t < t') (h2 : t' < t + 3) : stamp t ≠ stamp t' := by
  rw [stamp, stamp]
  omega

variable {α : Type}

/-- A new generation `t`: the cells holding its number are emptied. -/
def wipe (cells : α → Nat) (t : Nat) : α → Nat := fun c => if cells c = stamp t then 0 else cells c

/-- Every cell of `cs` was last written at a generation between `t` and
    the current one `T`. -/
def Recent (cells : α → Nat) (T t : Nat) (cs : List α) : Prop :=
  ∀ c ∈ cs, ∃ t', t ≤ t' ∧ t' ≤ T ∧ cells c = stamp t'

variable {cells : α → Nat} {T t : Nat} {cs : List α}

/-- A new generation keeps the cells written since the one before the
    current one: their numbers differ from the new one. -/
theorem Recent.wipe (h : Recent cells T t cs) (ht : T ≤ t + 1) : Recent (wipe cells (T + 1)) (T + 1) t cs := by
  intro c hc
  obtain ⟨t', ht', hT, hcell⟩ := h c hc
  refine ⟨t', ht', Nat.le_succ_of_le hT, ?_⟩
  rw [Generations.wipe, hcell, if_neg (stamp_ne (by omega) (by omega))]

theorem Recent.ne_zero (h : Recent cells T t cs) : ∀ c ∈ cs, cells c ≠ 0 := by
  intro c hc
  obtain ⟨t', -, -, hcell⟩ := h c hc
  rw [hcell]
  exact Nat.succ_ne_zero _

variable [DecidableEq α]

/-- The cells `cs`, one after the other, stamped with the number of
    generation `t`. -/
def write (cells : α → Nat) (t : Nat) (cs : List α) : α → Nat :=
  cs.foldl (fun cells c => Function.update cells c (stamp t)) cells

theorem write_apply (cells : α → Nat) (t : Nat) (cs : List α) (c : α) :
    write cells t cs c = if c ∈ cs then stamp t else cells c := by
  induction cs generalizing cells with
  | nil => rfl
  | cons c' cs ih =>
    rw [write, List.foldl_cons, ← write, ih, Function.update_apply]
    by_cases hc : c ∈ cs
    · rw [if_pos hc, if_pos (List.mem_cons_of_mem c' hc)]
    · by_cases hcc : c = c'
      · rw [if_neg hc, if_pos hcc, if_pos (hcc ▸ List.mem_cons_self)]
      · rw [if_neg hc, if_neg hcc, if_neg fun h => (List.mem_cons.mp h).elim hcc hc]

theorem Recent.write_self (cells : α → Nat) (T : Nat) (cs : List α) : Recent (write cells T cs) T T cs := by
  intro c hc
  exact ⟨T, Nat.le_refl _, Nat.le_refl _, by rw [write_apply, if_pos hc]⟩

theorem Recent.write (h : Recent cells T t cs) (ht : t ≤ T) (cs' : List α) :
    Recent (Generations.write cells T cs') T t cs := by
  intro c hc
  rw [write_apply]
  split
  · exact ⟨T, ht, Nat.le_refl _, rfl⟩
  · exact h c hc

/-! ## The counters -/

/-- One insert on the counters `(entries, generation)`: a new generation
    once the current one holds `E` entries. -/
def countersStep (E : Nat) (p : Nat × Nat) : Nat × Nat := if p.1 = E then (1, p.2 + 1) else (p.1 + 1, p.2)

/-- The counters after `n` inserts into an empty store. -/
def counters (E : Nat) : Nat → Nat × Nat
  | 0 => (0, 0)
  | n + 1 => countersStep E (counters E n)

theorem counters_gen_le_succ (E n : Nat) : (counters E n).2 ≤ (counters E (n + 1)).2 := by
  rw [counters, countersStep]
  split <;> simp

theorem counters_gen_mono (E : Nat) {m n : Nat} (h : m ≤ n) : (counters E m).2 ≤ (counters E n).2 :=
  monotone_nat_of_le_succ (f := fun n => (counters E n).2) (counters_gen_le_succ E) h

/-- With `E = 0` the first insert starts generation `1`, which never ends. -/
theorem counters_zero_succ (n : Nat) : counters 0 (n + 1) = (n + 1, 1) := by
  induction n with
  | zero => rfl
  | succ n ih => rw [counters, ih, countersStep, if_neg (Nat.succ_ne_zero n)]

/-- Otherwise insert `n + 1` is entry `n % E + 1` of generation `n / E`. -/
theorem counters_succ {E : Nat} (hE : 0 < E) (n : Nat) : counters E (n + 1) = (n % E + 1, n / E) := by
  induction n with
  | zero => rw [counters, counters, countersStep, if_neg (Nat.ne_of_lt hE), Nat.zero_mod, Nat.zero_div]
  | succ n ih =>
    have hsplit := Nat.div_add_mod n E
    have hlt := Nat.mod_lt n hE
    rw [counters, ih, countersStep]
    dsimp only
    by_cases hend : n % E + 1 = E
    · -- the generation is full: `n + 1` is a multiple of `E`
      have hmul : n + 1 = E * (n / E + 1) := by rw [Nat.mul_succ]; omega
      rw [if_pos hend, hmul, Nat.mul_mod_right, Nat.mul_div_cancel_left _ hE, Nat.zero_add]
    · have hmul : n + 1 = (n % E + 1) + E * (n / E) := by omega
      have hrest : n % E + 1 < E := by omega
      rw [if_neg hend, hmul, Nat.add_mul_mod_self_left, Nat.add_mul_div_left _ _ hE, Nat.mod_eq_of_lt hrest,
        Nat.div_eq_of_lt hrest, Nat.zero_add]

/-- The last `2 * E + 1` inserts are of the current generation or of the
    two before it. -/
theorem counters_gen_le_add_two (E : Nat) {i n : Nat} (hi : i < n) (hn : n ≤ i + 2 * E + 1) :
    (counters E n).2 ≤ (counters E (i + 1)).2 + 2 := by
  obtain ⟨m, rfl⟩ : ∃ m, n = m + 1 := ⟨n - 1, by omega⟩
  rcases Nat.eq_zero_or_pos E with rfl | hE
  · rw [counters_zero_succ, counters_zero_succ]
    omega
  · rw [counters_succ hE, counters_succ hE]
    calc m / E ≤ (i + 2 * E) / E := Nat.div_le_div_right (by omega)
      _ = i / E + 2 := Nat.add_mul_div_right i 2 hE

/-! ## The store -/

/-- A store: the entries of the current generation, the generation, and
    the cells. -/
structure Store (α : Type) where
  entries : Nat
  gen : Nat
  cells : α → Nat

/-- The store after a reset: generation `0`, every cell empty. -/
def Store.empty : Store α := ⟨0, 0, fun _ => 0⟩

/-- An insert stamping the cells `cs`; once the current generation holds
    `E` entries, a new one first, with its wipe. -/
def Store.insert (E : Nat) (st : Store α) (cs : List α) : Store α :=
  if st.entries = E then ⟨1, st.gen + 1, write (wipe st.cells (st.gen + 1)) (st.gen + 1) cs⟩
  else ⟨st.entries + 1, st.gen, write st.cells st.gen cs⟩

/-- A sequence of inserts. -/
def Store.run (E : Nat) (st : Store α) (css : List (List α)) : Store α := css.foldl (Store.insert E) st

theorem Store.insert_counters (E : Nat) (st : Store α) (cs : List α) :
    ((st.insert E cs).entries, (st.insert E cs).gen) = countersStep E (st.entries, st.gen) := by
  rw [Store.insert, countersStep]
  split <;> rfl

theorem Store.run_append_singleton (E : Nat) (st : Store α) (css : List (List α)) (cs : List α) :
    st.run E (css ++ [cs]) = (st.run E css).insert E cs := by
  rw [Store.run, List.foldl_append]
  rfl

/-- The counters of a run are `counters`, whatever the cells. -/
theorem Store.run_counters (E : Nat) (css : List (List α)) :
    (((Store.empty : Store α).run E css).entries, ((Store.empty : Store α).run E css).gen) = counters E css.length := by
  induction css using List.reverseRecOn with
  | nil => rfl
  | append_singleton css cs ih =>
    rw [Store.run_append_singleton, Store.insert_counters, ih, List.length_append, List.length_singleton, counters]

/-- An insert keeps the cells of generation `t` on, while `t` is at most two
    generations back. -/
theorem Recent.insert {E : Nat} {st : Store α} {t : Nat} (h : Recent st.cells st.gen t cs) (hgen : t ≤ st.gen)
    (ht : (st.insert E cs').gen ≤ t + 2) : Recent (st.insert E cs').cells (st.insert E cs').gen t cs := by
  rw [Store.insert] at ht ⊢
  split_ifs at ht ⊢
  · -- a new generation: `t` is at most one back before it
    dsimp only at ht ⊢
    exact (h.wipe (by omega)).write (by omega) cs'
  · exact h.write hgen cs'

theorem Recent.insert_self (E : Nat) (st : Store α) (cs : List α) :
    Recent (st.insert E cs).cells (st.insert E cs).gen (st.insert E cs).gen cs := by
  rw [Store.insert]
  split
  · exact Recent.write_self _ _ cs
  · exact Recent.write_self _ _ cs

/-- The run invariant: every insert of the current generation or of the two
    before it finds its cells stamped since its own generation.  Induction
    on the run, one insert at the end at a time. -/
theorem Store.run_recent (E : Nat) (css : List (List α)) :
    ∀ i (hi : i < css.length), (counters E css.length).2 ≤ (counters E (i + 1)).2 + 2 →
      Recent ((Store.empty : Store α).run E css).cells (counters E css.length).2 (counters E (i + 1)).2 css[i] := by
  induction css using List.reverseRecOn with
  | nil => intro i hi; exact absurd hi (Nat.not_lt_zero i)
  | append_singleton css cs ih =>
    intro i hi hrecent
    have hlen : (css ++ [cs]).length = css.length + 1 := by rw [List.length_append, List.length_singleton]
    have hgen : ((Store.empty : Store α).run E css).gen = (counters E css.length).2 :=
      congrArg Prod.snd (Store.run_counters E css)
    have hgen' : (((Store.empty : Store α).run E css).insert E cs).gen = (counters E (css.length + 1)).2 := by
      rw [← Store.run_append_singleton, ← hlen]
      exact congrArg Prod.snd (Store.run_counters E (css ++ [cs]))
    rw [hlen] at hi hrecent
    rw [Store.run_append_singleton, hlen, ← hgen']
    rcases Nat.lt_succ_iff_lt_or_eq.mp hi with hi | rfl
    · -- an earlier insert: the invariant before, and one more insert
      rw [List.getElem_append_left hi]
      have hmono := counters_gen_mono E (by omega : i + 1 ≤ css.length)
      have hstep := counters_gen_le_succ E css.length
      have hbefore := ih i hi (by omega)
      rw [← hgen] at hbefore hmono
      exact hbefore.insert hmono (by omega)
    · -- the last insert: its own cells
      rw [List.getElem_concat_length rfl, ← hgen']
      exact Recent.insert_self E _ cs

end Generations
