import LogAutomata.Proofs.Minimize

/-!
# Minimization ends

It refuses an automaton exactly if a cycle can be reached from Init. Otherwise each of its
loops comes to its end: the sweep, since no walk from Init has more links than there are
states, and the rounds of merging, since each round but the last takes a state away. A cycle
that Init does not reach does no harm, because the sweep drops it.
-/

namespace LogAutomata.Automaton

open ExactWeight (Proper)

variable {a : Automaton ExactWeight}

theorem Roundable.next (h : a.Roundable) :
    ∃ b, a.mergeRound = .ok b ∧ b.Roundable ∧ b.size ≤ a.size := by
  obtain ⟨l, t, m, b, p, q, hb, hr, rb⟩ := h.round
  exact ⟨b, hb, rb, hr.size_le h.wellFormed⟩

/-- The sentinels are never merged, so there are fewer rounds than states. -/
theorem Roundable.settle_ok (h : a.Roundable) :
    ∃ n b, a.settle = .ok (n, b) ∧ a.SettlesIn n b ∧ n < a.size ∧ b.Roundable := by
  have next : ∀ a : Automaton ExactWeight, a.Roundable → _ := fun _ => Roundable.next
  obtain ⟨n, b, hn, hs⟩ := Automaton.settle_ok next h
  obtain ⟨-, -, -, rb, -⟩ := hs.last_round next h
  have rounds := hs.rounds_le next h
  have two := rb.wellFormed.two_le_size
  exact ⟨n, b, hn, hs, by omega, rb⟩

theorem minimize_eq_error (ha : a.WellFormed) (hc : ¬a.Acyclic) :
    ∃ ids, a.minimize true = .error (.cycle ids) := by
  obtain ⟨ids, h⟩ := checkAcyclic_eq_error ha hc
  refine ⟨ids, ?_⟩
  simp only [minimize, h]
  rfl

theorem minimize_returns (h : a.Roundable) :
    ∃ x n y b, a.pushWeights = .ok x ∧ x.settle = .ok (n, y) ∧ x.SettlesIn n y ∧ n ≤ a.size ∧
      y.normalize = .ok b ∧ a.minimize true = .ok b := by
  obtain ⟨x, hx, push, hw⟩ := pushWeights_proper h.wellFormed h.acyclic h.proper
  have rx : x.Roundable := ⟨⟨push.wellFormed, push.retraces_pushed.acyclic h.acyclic⟩, hw⟩
  obtain ⟨n, y, hy, hs, hn, ry⟩ := rx.settle_ok
  obtain ⟨b, hb, -⟩ := normalize_proper ry.wellFormed ry.proper
  exact ⟨x, n, y, b, hx, hy, hs, push.size_eq ▸ hn.le, hb,
    (minimize_eq h.wellFormed h.acyclic hx hy true).trans hb⟩

/-- An automaton is refused exactly if Init reaches a cycle. Otherwise there is a result, after no
more rounds than there are states. -/
theorem minimize_ends (ha : a.Built) (hw : ∀ l ∈ a.links, l.weight.Proper) :
    ((∃ ids, a.minimize true = .error (.cycle ids)) ↔ ¬a.Acyclic) ∧
      (a.Acyclic → ∃ x n y b, a.pushWeights = .ok x ∧ x.settle = .ok (n, y) ∧
        x.SettlesIn n y ∧ n ≤ a.size ∧ y.normalize = .ok b ∧ a.minimize true = .ok b) := by
  have wf := ha.wellFormed
  have returns := fun hc : a.Acyclic => minimize_returns ⟨⟨wf, hc⟩, wf.weighted hw⟩
  refine ⟨⟨?_, minimize_eq_error wf⟩, returns⟩
  rintro ⟨ids, refused⟩ hc
  obtain ⟨-, -, -, b, -, -, -, -, -, hb⟩ := returns hc
  cases refused.symm.trans hb

-- ---------------------------------------------------------------------------
-- A cycle that Init does not reach
-- ---------------------------------------------------------------------------

def strayArcs : List (Arc ExactWeight) :=
  [⟨0, 2, .finite 0⟩, ⟨2, 1, .finite 0⟩, ⟨3, 3, .finite 0⟩, ⟨3, 1, .finite 0⟩]

def stray : Automaton ExactWeight := sides.withArcs strayArcs

theorem strayArcs_proper : ∀ r ∈ strayArcs, r.weight.Proper := by
  simp [strayArcs, Proper]

theorem stray_built : stray.Built :=
  Built.empty.addState none _ |>.addState none _ |>.withProperArcs (by decide) strayArcs_proper

theorem stray_acyclic : stray.Acyclic :=
  acyclic_of_reached_arcs (fun i => [1, 3, 2].getD i 0) (by decide) (by decide)

theorem stray_onCycle : stray.OnCycle 3 := ⟨⟨3, 0⟩, [], .cons (j := 3) rfl (.nil 3)⟩

theorem stray_reaches : stray.Reaches 3 1 := ⟨[⟨3, 1⟩], .cons (j := 1) rfl (.nil 1)⟩

/-- The cycle leads to Final, and still no step fails. -/
theorem minimize_stray : (stray.OnCycle 3 ∧ stray.Reaches 3 1) ∧
    ∃ x n y b, stray.pushWeights = .ok x ∧ x.settle = .ok (n, y) ∧ x.SettlesIn n y ∧
      n ≤ stray.size ∧ y.normalize = .ok b ∧ stray.minimize true = .ok b :=
  ⟨⟨stray_onCycle, stray_reaches⟩, (minimize_ends stray_built
    (stray_built.wellFormed.forall_links strayArcs_proper)).2 stray_acyclic⟩

end LogAutomata.Automaton
