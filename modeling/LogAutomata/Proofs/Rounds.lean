import LogAutomata.Automaton.Minimize
import LogAutomata.Proofs.Quotient
import LogAutomata.Proofs.Transpose

/-!
# Rounds of merging

A round merges an automaton from the left, then its transpose, and turns the
result around again. No step can fail on an automaton without a reachable cycle,
and the result has no cycle at all. What every round keeps holds when the rounds
have settled.
-/

namespace LogAutomata.Automaton

variable {W : Type} [LogWeight W]

/-- The automata between the steps of a round from `a` to `b`, and the images of
the states under its two merges. -/
structure Round (a l t m b : Automaton W) (p q : Nat → Nat) : Prop where
  left : a.Merges l p
  turn : l.Transposes t
  right : t.Merges m q
  back : m.Transposes b
  wellFormed_left : l.WellFormed
  wellFormed_turn : t.WellFormed
  wellFormed_right : m.WellFormed
  wellFormed : b.WellFormed

namespace Round

variable {a l t m b : Automaton W} {p q : Nat → Nat} (h : Round a l t m b p q)
include h

theorem acyclic_turn : t.Acyclic := fun i _ =>
  h.turn.opposite.not_onCycle h.left.not_onCycle i

theorem not_onCycle (i : Nat) : ¬b.OnCycle i :=
  h.back.opposite.not_onCycle h.right.not_onCycle i

theorem acyclic : b.Acyclic := fun i _ => h.not_onCycle i

theorem size_le_left : b.size ≤ l.size := by
  rw [h.back.size_eq, ← h.turn.size_eq]
  exact h.right.size_le h.wellFormed_turn

theorem size_le (ha : a.WellFormed) : b.size ≤ a.size :=
  Nat.le_trans h.size_le_left (h.left.size_le ha)

theorem spells_iff (ha : a.Acyclic) (s : List Symbol) : b.Spells s ↔ a.Spells s := by
  rw [h.back.spells_iff_reverse, h.right.spells_iff h.acyclic_turn, h.turn.spells_iff_reverse,
    List.reverse_reverse, h.left.spells_iff ha]

theorem reaches_final_iff : b.Reaches 0 1 ↔ a.Reaches 0 1 := by
  have hb : b.Reaches 0 1 ↔ m.Reaches 0 1 := ⟨h.back.opposite.symm.reaches, h.back.opposite.reaches⟩
  have ht : t.Reaches 0 1 ↔ l.Reaches 0 1 := ⟨h.turn.opposite.symm.reaches, h.turn.opposite.reaches⟩
  rw [hb, h.right.reaches_final_iff, ht, h.left.reaches_final_iff]

/-- Every state but Init leads to Final, since the second merge drops what does not. -/
theorem leads_to_final {i : Nat} (hi : i < b.size) (h0 : i ≠ 0) : b.Reaches i 1 := by
  have hlt : mirror i < m.size := by
    rw [mirror_lt h.wellFormed_right.two_le_size, ← h.back.size_eq]
    exact hi
  have hne : mirror i ≠ 1 := fun he => h0 (mirror_inj.1 he)
  have := h.back.opposite.reaches (h.right.reaches_of_lt hlt hne)
  rwa [mirror_mirror] at this

/-- If Init leads to Final at all, no state is a dead end. -/
theorem reaches_final (ha : a.Reaches 0 1) {i : Nat} (hi : i < b.size) : b.Reaches i 1 := by
  by_cases h0 : i = 0
  · rw [h0]
    exact h.reaches_final_iff.2 ha
  · exact h.leads_to_final hi h0

theorem successors_final (ha : a.Reaches 0 1) : b.successors 1 = [] := by
  refine List.eq_nil_iff_forall_not_mem.2 fun j hj => h.not_onCycle 1 (onCycle_iff.2 ⟨j, hj, ?_⟩)
  exact h.reaches_final ha (lt_size_of_mem_successors hj).2

end Round

variable [DefinedSums W]

theorem mergeRound_ok {a : Automaton W} (ha : a.WellFormed) (hc : a.Acyclic) :
    ∃ l t m b p q, a.mergeRound = .ok b ∧ Round a l t m b p q := by
  obtain ⟨l, p, hl, wl, left⟩ := leftMerge_ok ha hc
  obtain ⟨t, ht, wt, turn⟩ := transpose_ok wl
  have ct : t.Acyclic := fun i _ => turn.opposite.not_onCycle left.not_onCycle i
  obtain ⟨m, q, hm, wm, right⟩ := leftMerge_ok wt ct
  obtain ⟨b, hb, wb, back⟩ := transpose_ok wm
  refine ⟨l, t, m, b, p, q, ?_, left, turn, right, back, wl, wt, wm, wb⟩
  rw [mergeRound, hl, ok_bind, ht, ok_bind, hm, ok_bind, hb]

omit [DefinedSums W] in
structure Mergeable (a : Automaton W) : Prop where
  wellFormed : a.WellFormed
  acyclic : a.Acyclic

theorem Mergeable.round {a : Automaton W} (h : a.Mergeable) :
    ∃ l t m b p q, a.mergeRound = .ok b ∧ Round a l t m b p q ∧ b.Mergeable := by
  obtain ⟨l, t, m, b, p, q, hb, hr⟩ := mergeRound_ok h.wellFormed h.acyclic
  exact ⟨l, t, m, b, p, q, hb, hr, hr.wellFormed, hr.acyclic⟩

-- ---------------------------------------------------------------------------
-- Rounds until nothing changes
-- ---------------------------------------------------------------------------

/-- Rounds one after the other, of which the last and no other leaves as many states as it
found. -/
inductive SettlesIn : Automaton W → Nat → Automaton W → Prop
  | last {a b : Automaton W} : a.mergeRound = .ok b → b.size = a.size → SettlesIn a 1 b
  | more {a b c : Automaton W} {n : Nat} : a.mergeRound = .ok b → b.size ≠ a.size →
      SettlesIn b n c → SettlesIn a (n + 1) c

section
omit [DefinedSums W]

variable {P : Automaton W → Prop} {a b : Automaton W} {n : Nat}
  (round : ∀ a, P a → ∃ b, a.mergeRound = .ok b ∧ P b ∧ b.size ≤ a.size)
include round

theorem settle_ok (ha : P a) : ∃ n b, a.settle = .ok (n, b) ∧ a.SettlesIn n b := by
  induction hn : a.size using Nat.strong_induction_on generalizing a with
  | _ n ih =>
    obtain ⟨b, hb, hP, hle⟩ := round a ha
    by_cases hlt : b.size < a.size
    · obtain ⟨n, c, hc, hs⟩ := ih b.size (hn ▸ hlt) hP rfl
      refine ⟨n + 1, c, ?_, .more hb hlt.ne hs⟩
      rw [settle, hb, ok_bind, if_pos hlt, hc]
      rfl
    · refine ⟨1, b, ?_, .last hb (Nat.le_antisymm hle (Nat.le_of_not_lt hlt))⟩
      rw [settle, hb, ok_bind, if_neg hlt]
      rfl

theorem SettlesIn.rounds_le (h : a.SettlesIn n b) (ha : P a) : n + b.size ≤ a.size + 1 := by
  induction h with
  | last hb hsize => omega
  | more hb hne _ ih =>
    obtain ⟨b', hb', hP, hle⟩ := round _ ha
    cases hb.symm.trans hb'
    have := ih hP
    omega

/-- What every round keeps holds of the settled automaton and of the one before it, from
which the last round has taken no state. -/
theorem SettlesIn.last_round (h : a.SettlesIn n b) (ha : P a) :
    ∃ c, P c ∧ c.mergeRound = .ok b ∧ P b ∧ b.size = c.size := by
  induction h with
  | last hb hsize =>
    obtain ⟨b', hb', hP, -⟩ := round _ ha
    cases hb.symm.trans hb'
    exact ⟨_, ha, hb, hP, hsize⟩
  | more hb _ _ ih =>
    obtain ⟨b', hb', hP, -⟩ := round _ ha
    cases hb.symm.trans hb'
    exact ih hP

end

end LogAutomata.Automaton
