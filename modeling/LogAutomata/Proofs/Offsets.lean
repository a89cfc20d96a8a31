import LogAutomata.Proofs.Minimize
import LogAutomata.Proofs.Redrawn

/-!
# Offsets cancel

Pushing adds one offset to all links of a state, since they all come from its last visit, and
normalization takes off whatever the links of a state have in common. So an automaton that is
pushed and then normalized has the links of the normalized automaton, but for the states that
Init does not reach, which have lost theirs.
-/

namespace LogAutomata.ExactWeight

theorem sub_normalizer_offset {ws : List ExactWeight} (h : ∀ w ∈ ws, w.Proper) {o : ExactWeight}
    (ho : o.Finite) {w : ExactWeight} (hw : w ∈ ws) :
    o + w - normalizer (ws.map (o + ·)) = w - normalizer ws := by
  have hm : ∀ v ∈ ws, (o + v).mass = o.mass * v.mass := fun v hv => mass_add ho.proper (h v hv)
  have shifted : ∀ v ∈ ws.map (o + ·), v.Proper := by
    intro v hv
    obtain ⟨u, hu, rfl⟩ := List.mem_map.1 hv
    exact ho.proper.add (h u hu)
  have total : ((ws.map (o + ·)).map mass).sum = o.mass * (ws.map mass).sum := by
    rw [List.map_map, ← List.sum_map_mul_left]
    exact congrArg List.sum (List.map_congr_left hm)
  have hmem : o + w ∈ ws.map (o + ·) := List.mem_map_of_mem hw
  refine (proper_sub_normalizer shifted hmem).eq_of_mass (proper_sub_normalizer h hw) ?_
  rw [mass_sub_normalizer shifted hmem, mass_sub_normalizer h hw, total, hm w hw,
    mul_div_mul_left _ _ (finite_iff.1 ho).2.ne']

theorem sub_normalizer_of_sum_eq_one {ws : List ExactWeight} (h : ∀ w ∈ ws, w.Proper)
    (hs : (ws.map mass).sum = 1) {w : ExactWeight} (hw : w ∈ ws) : w - normalizer ws = w := by
  refine (proper_sub_normalizer h hw).eq_of_mass (h w hw) ?_
  rw [mass_sub_normalizer h hw, hs, div_one]

end LogAutomata.ExactWeight

namespace LogAutomata.Automaton

-- ---------------------------------------------------------------------------
-- Pushed and normalized
-- ---------------------------------------------------------------------------

open ExactWeight (Proper)

variable {a x : Automaton ExactWeight}

theorem Rebuilds.normalizedFrom_pushed (h : a.Rebuilds x a.pushedFrom) (hw : a.Weighted Proper)
    {i : Nat} (hi : a.Reaches 0 i) (ho : (a.offsetAt i).Finite) :
    x.normalizedFrom i = a.normalizedFrom i := by
  have weights : (x.arcsFrom i).map Prod.snd =
      ((a.arcsFrom i).map Prod.snd).map (a.offsetAt i + ·) := by
    rw [h.arcsFrom, pushedFrom_of_reaches hi, List.map_map, List.map_map]
    rfl
  rw [normalizedFrom, weights, h.arcsFrom, pushedFrom_of_reaches hi, List.map_map, normalizedFrom]
  refine List.map_congr_left fun e he => Prod.ext rfl ?_
  exact ExactWeight.sub_normalizer_offset (hw.weights i) ho (List.mem_map_of_mem he)

/-- Normalization undoes pushing, up to the links that Init does not reach. -/
theorem normalize_pushWeights (ha : a.Built) (hc : a.Acyclic)
    (hw : ∀ l ∈ a.links, l.weight.Finite) :
    ∃ p n m, a.pushWeights = .ok p ∧ p.normalize = .ok n ∧ a.normalize = .ok m ∧
      n.profiles = m.profiles ∧ (∀ i, a.Reaches 0 i → n.linksFrom i = m.linksFrom i) ∧
      ∀ i, ¬a.Reaches 0 i → n.linksFrom i = [] := by
  have wf := ha.wellFormed
  have finite : a.Weighted ExactWeight.Finite := wf.weighted hw
  have proper : a.Weighted Proper := fun i e he => (finite i e he).proper
  obtain ⟨p, hp, push, pw⟩ := pushWeights_proper wf hc proper
  obtain ⟨n, hn, pushed⟩ := normalize_proper push.wellFormed pw
  obtain ⟨m, hm, direct⟩ := normalize_proper wf proper
  refine ⟨p, n, m, hp, hn, hm, ?_, fun i hi => ?_, fun i hi => ?_⟩
  · rw [profiles_of_normalize hn, profiles_of_normalize hm, remap_congr push.size_eq push.symbolAt]
  · have offset : (a.offsetAt i).Finite :=
      finite.offsetAt ExactWeight.finite_zero (fun _ _ => ExactWeight.Finite.add) wf hc hi
    rw [pushed.wellFormed.linksFrom_eq, direct.wellFormed.linksFrom_eq, pushed.arcsFrom,
      direct.arcsFrom, push.normalizedFrom_pushed proper hi offset]
  · rw [pushed.wellFormed.linksFrom_eq, pushed.arcsFrom, normalizedFrom, push.arcsFrom,
      pushedFrom_of_not_reaches hi]
    rfl

-- ---------------------------------------------------------------------------
-- A state with two visits
-- ---------------------------------------------------------------------------

def revisitedArcs : List (Arc ExactWeight) :=
  [⟨0, 2, .finite 0⟩, ⟨0, 3, .finite 1⟩, ⟨2, 3, .finite 0⟩, ⟨3, 1, .finite 0⟩, ⟨3, 1, .finite 1⟩,
    ⟨4, 3, .finite 1⟩]

def revisited : Automaton ExactWeight :=
  ((((empty : Automaton ExactWeight).addState none (letter "a")).addState none
    (letter "b")).addState none (letter "c")).withArcs revisitedArcs

theorem revisitedArcs_finite : ∀ r ∈ revisitedArcs, r.weight.Finite := by
  simp [revisitedArcs, ExactWeight.Finite]

theorem revisited_built : revisited.Built :=
  ((Built.empty.addState none (letter "a")).addState none (letter "b")).addState none
    (letter "c") |>.withProperArcs (by decide) fun r hr => (revisitedArcs_finite r hr).proper

theorem revisited_acyclic : revisited.Acyclic :=
  acyclic_of_arcs (fun i => [0, 3, 1, 2, 1].getD i 0) (by decide)

theorem revisited_not_reaches : ¬revisited.Reaches 0 4 := by
  intro h
  obtain h | ⟨j, -, hj⟩ := h.eq_or_step
  · cases h
  · obtain ⟨w, hw⟩ := mem_successors_iff_mem_arcs.1 hj
    have arcs : revisited.arcs = revisitedArcs := rfl
    simp [arcs, revisitedArcs] at hw

theorem normalize_pushWeights_revisited : revisited.linksFrom 4 ≠ [] ∧
    ∃ p n m, revisited.pushWeights = .ok p ∧ p.normalize = .ok n ∧ revisited.normalize = .ok m ∧
      n.linksFrom 3 = m.linksFrom 3 ∧ n.linksFrom 4 = [] := by
  obtain ⟨p, n, m, hp, hn, hm, -, reached, lost⟩ := normalize_pushWeights revisited_built
    revisited_acyclic (revisited_built.wellFormed.forall_links revisitedArcs_finite)
  have reached3 : revisited.Reaches 0 3 := reaches_of_mem_successors (by decide)
  exact ⟨nofun, p, n, m, hp, hn, hm, reached 3 reached3, lost 4 revisited_not_reaches⟩

end LogAutomata.Automaton
