import LogAutomata.Proofs.Idempotence

/-!
# What minimization leaves

Every interior state is on a walk from Init to Final, and no link leads back to Init or on
from Final. No two interior states with one symbol have the same predecessors or the same
successors: a state count that did not change means that neither merge of the last round
found anything to do, and that neither dropped a state which the other would have missed.
-/

namespace LogAutomata.Automaton

variable {W : Type}

/-- Nothing can be dropped, and neither merge has two states to make one of. -/
structure Condensed (a : Automaton W) : Prop where
  onWalk : ∀ i, 2 ≤ i → i < a.size → ∃ ps, a.IsWalk 0 ps 1 ∧ i ∈ a.entered ps
  init : ∀ i, 0 ∉ a.successors i
  final : a.successors 1 = []
  single : a.Single
  predecessors : ∀ i j, 2 ≤ i → 2 ≤ j → i < a.size → j < a.size →
    a.symbolAt i = a.symbolAt j → (∀ n, i ∈ a.successors n ↔ j ∈ a.successors n) → i = j
  successors : ∀ i j, 2 ≤ i → 2 ≤ j → i < a.size → j < a.size →
    a.symbolAt i = a.symbolAt j → (∀ n, n ∈ a.successors i ↔ n ∈ a.successors j) → i = j

theorem Path.end_mem {a : Automaton W} {i k : Nat} {js : List Nat} (h : a.Path i js k)
    (hne : i ≠ k) : k ∈ js := by
  rcases List.eq_nil_or_concat js with rfl | ⟨js, m, rfl⟩
  · exact absurd (path_nil_iff.1 h) hne
  · rw [List.concat_eq_append] at h ⊢
    obtain ⟨rfl, -⟩ := path_concat_iff.1 h
    simp

theorem exists_isWalk_through {a : Automaton W} {i : Nat} (hi : i ≠ 0) (h0 : a.Reaches 0 i)
    (h1 : a.Reaches i 1) : ∃ ps, a.IsWalk 0 ps 1 ∧ i ∈ a.entered ps := by
  obtain ⟨js, hj⟩ := reaches_iff_path.1 h0
  obtain ⟨ks, hk⟩ := reaches_iff_path.1 h1
  obtain ⟨ps, hp, entered⟩ := (hj.append hk).exists_walk
  refine ⟨ps, hp, ?_⟩
  rw [entered]
  exact List.mem_append_left _ (hj.end_mem (Ne.symm hi))

/-- What merging from the left leaves alone, and leaves alone when it is turned around, is
condensed. -/
theorem Reduced.condensed {a b : Automaton W} (ha : a.Reduced) (hb : b.Reduced)
    (h : b.Transposes a) : a.Condensed where
  onWalk i h2 hi := by
    have back : a.Reaches (mirror i) (mirror 0) :=
      h.opposite.reaches (hb.reached i (h.size_eq ▸ hi) (by omega))
    rw [mirror_of_le h2] at back
    exact exists_isWalk_through (by omega) (ha.reached i hi (by omega)) back
  init i h0 := by
    have : mirror i ∈ b.successors 1 := (h.opposite i 0).1 h0
    simp [hb.final] at this
  final := ha.final
  single := ha.single
  predecessors := ha.distinct
  successors i j hi2 hj2 hi hj hs hn := by
    refine hb.distinct i j hi2 hj2 (h.size_eq ▸ hi) (h.size_eq ▸ hj) ?_ fun n => ?_
    · rw [← h.symbolAt i hi2, ← h.symbolAt j hj2, hs]
    · have := hn (mirror n)
      rwa [h.opposite, h.opposite, mirror_mirror, mirror_of_le hi2, mirror_of_le hj2] at this

theorem Condensed.retraced {a b : Automaton W} (h : a.Condensed) (size_eq : b.size = a.size)
    (symbolAt : ∀ i, b.symbolAt i = a.symbolAt i)
    (same : ∀ i, b.successors i = a.successors i) : b.Condensed where
  onWalk i h2 hi := by
    obtain ⟨ps, hp, hm⟩ := h.onWalk i h2 (size_eq ▸ hi)
    have retraces : a.Retraces b := ⟨symbolAt, fun i _ => same i⟩
    obtain ⟨qs, hq, entered⟩ := ((retraces.path_iff (.refl a 0)).2 hp.path).exists_walk
    exact ⟨qs, hq, entered ▸ hm⟩
  init i := same i ▸ h.init i
  final := same 1 ▸ h.final
  single i := same i ▸ h.single i
  predecessors i j hi2 hj2 hi hj := by
    simpa only [symbolAt, same] using h.predecessors i j hi2 hj2 (size_eq ▸ hi) (size_eq ▸ hj)
  successors i j hi2 hj2 hi hj := by
    simpa only [symbolAt, same] using h.successors i j hi2 hj2 (size_eq ▸ hi) (size_eq ▸ hj)

/-- What minimization returns is condensed, and it returns something unless weights are out of
bounds. -/
theorem minimize_condensed [LogWeight W] [DefinedSums W] {P : W → Prop} (bounded : Bounded P)
    {a : Automaton W} (ha : a.Built) (hc : a.Acyclic) (checked : Bool) :
    a.Overruns P checked ∨ ∃ b, a.minimize checked = .ok b ∧ b.Condensed := by
  rcases minimize_cases ha.wellFormed hc bounded checked with
    overruns | ⟨c, l, t, m, y, p, q, b, hb, rc, last, -, settled, norm⟩
  · exact .inl overruns
  have left : y.Reduced := last.reduced rc.wellFormed rc.acyclic settled
  have right : m.Reduced := last.reduced_right rc.acyclic
  exact .inr ⟨b, hb, (left.condensed right last.back).retraced norm.size_eq norm.symbolAt
    norm.successors_normalized⟩

theorem minimize_diamond_condensed : ∃ b,
    (diamond (.finite 0) .impossible).minimize true = .ok b ∧ b.Condensed :=
  (minimize_condensed bounded_proper (diamond_built rfl rfl) (diamond_acyclic rfl rfl)
    true).resolve_left
      (not_overruns (diamond_built rfl rfl)
        (diamond_weights (v := .finite 0) (w := .impossible) rfl rfl trivial trivial) true)

theorem minimize_steep_not_condensed : steep.Built ∧ steep.Acyclic ∧
    (∀ l ∈ steep.links, l.weight.isFinite = true ∨ isImpossible l.weight = true) ∧
    ¬∃ b, steep.minimize true = .ok b ∧ b.Condensed := by
  refine ⟨steep_built, steep_acyclic, steep_weights, ?_⟩
  rintro ⟨b, hb, -⟩
  obtain ⟨e, refused⟩ := minimize_steep true
  cases hb.symm.trans refused

end LogAutomata.Automaton
