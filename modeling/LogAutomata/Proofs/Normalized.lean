import LogAutomata.Proofs.Minimize
import LogAutomata.Proofs.Redrawn
import LogAutomata.Proofs.Refusals

/-!
# Normalization shares out what there is

All links of a state lose the same finite weight, namely what they have together. So their
distances stay, impossible links stay impossible and a state with a finite link has mass one.
Then there is nothing more to share out. A single infinite weight leaves nothing to the others
and has no share itself: normalization refuses it.
-/

namespace LogAutomata

namespace ExactWeight

theorem proper_normalized {ws : List ExactWeight} (h : ∀ w ∈ ws, w.Proper) :
    ∀ v ∈ ws.map (· - normalizer ws), v.Proper :=
  List.forall_mem_map.2 fun _ hw => proper_sub_normalizer h hw

theorem logSum_normalized {ws : List ExactWeight} (h : ∀ w ∈ ws, w.Proper) {w : ExactWeight}
    (hw : w ∈ ws) (finite : w.Finite) : logSum (ws.map (· - normalizer ws)) = 0 := by
  refine (proper_logSum (proper_normalized h)).eq_of_mass proper_zero ?_
  rw [mass_logSum (proper_normalized h), sum_mass_normalized h,
    div_self (sum_mass_pos hw finite).ne', mass_zero]

theorem sub_normalizer_normalized {ws : List ExactWeight} (h : ∀ w ∈ ws, w.Proper)
    {v : ExactWeight} (hv : v ∈ ws.map (· - normalizer ws)) :
    v - normalizer (ws.map (· - normalizer ws)) = v := by
  have proper := proper_normalized h
  refine (proper_sub_normalizer proper hv).eq_of_mass (proper v hv) ?_
  rw [mass_sub_normalizer proper hv, sum_mass_normalized h]
  by_cases none : (ws.map mass).sum = 0
  · obtain ⟨w, hw, rfl⟩ := List.mem_map.1 hv
    rw [mass_sub_normalizer h hw, none, div_zero, zero_div]
  · rw [div_self none, div_one]

end ExactWeight

namespace Automaton

open ExactWeight (Proper)

def weightOf {W : Type} (a : Automaton W) (p : Place) : Option W := (a.linkAt p).map Link.weight

structure Balances (a b : Automaton ExactWeight) : Prop where
  ends : ∀ i, (b.linksFrom i).map Link.ends = (a.linksFrom i).map Link.ends
  shared : ∀ i, (∃ l ∈ a.linksFrom i, l.weight.Finite) →
    logSum ((b.linksFrom i).map Link.weight) = 0
  /-- The weights of two links of one state stay as far apart as they are. -/
  apart : ∀ i m n x y, a.weightOf ⟨i, m⟩ = some (.finite x) →
    a.weightOf ⟨i, n⟩ = some (.finite y) → ∃ x' y', b.weightOf ⟨i, m⟩ = some (.finite x') ∧
      b.weightOf ⟨i, n⟩ = some (.finite y') ∧ x' - y' = x - y
  impossible : ∀ p, a.weightOf p = some .impossible → b.weightOf p = some .impossible
  unchanged : ∀ i, (∀ l ∈ a.linksFrom i, l.weight = .impossible) → b.linksFrom i = a.linksFrom i

variable {a b : Automaton ExactWeight}

-- ---------------------------------------------------------------------------
-- Nothing is infinite
-- ---------------------------------------------------------------------------

theorem WellFormed.weighted_proper (ha : a.WellFormed)
    (h : ∀ l ∈ a.links, l.weight ≠ .infinite) : a.Weighted Proper := by
  refine ha.weighted fun l hl => ExactWeight.proper_iff.2 ⟨?_, h l hl⟩
  obtain ⟨i, hi⟩ := mem_links_iff.1 hl
  exact ha.defined i l hi

theorem WellFormed.weights_eq (ha : a.WellFormed) (i : Nat) :
    (a.linksFrom i).map Link.weight = (a.arcsFrom i).map Prod.snd := by
  rw [ha.linksFrom_eq, List.map_map]
  rfl

namespace Rebuilds
variable (h : a.Rebuilds b a.normalizedFrom) (ha : a.WellFormed) (hw : a.Weighted Proper)
include h ha hw

theorem linksFrom_normalized (i : Nat) : ∃ x, b.linksFrom i =
    (a.linksFrom i).map fun l => { l with weight := l.weight - .finite x } := by
  obtain ⟨x, hx, -⟩ := ExactWeight.normalizer_eq (hw.weights i)
  refine ⟨x, ?_⟩
  rw [h.linksFrom_eq, normalizedFrom, hx, ha.linksFrom_eq, List.map_map, List.map_map]
  rfl

theorem weightOf_normalized (i : Nat) : ∃ x, ∀ n,
    b.weightOf ⟨i, n⟩ = (a.weightOf ⟨i, n⟩).map (· - .finite x) := by
  obtain ⟨x, hx⟩ := h.linksFrom_normalized ha hw i
  refine ⟨x, fun n => ?_⟩
  simp only [weightOf, linkAt, hx, List.getElem?_map, Option.map_map]
  rfl

theorem balances : a.Balances b where
  ends i := by
    obtain ⟨x, hx⟩ := h.linksFrom_normalized ha hw i
    rw [hx, List.map_map]
    rfl
  shared i := by
    rintro ⟨l, hl, finite⟩
    have held : l.weight ∈ (a.arcsFrom i).map Prod.snd := by
      rw [← ha.weights_eq]
      exact List.mem_map_of_mem hl
    rw [h.wellFormed.weights_eq, h.arcsFrom, map_snd_normalizedFrom]
    exact ExactWeight.logSum_normalized (hw.weights i) held finite
  apart i m n x y hm hn := by
    obtain ⟨c, hc⟩ := h.weightOf_normalized ha hw i
    refine ⟨x - c, y - c, ?_, ?_, sub_sub_sub_cancel_right x y c⟩
    · rw [hc, hm]
      rfl
    · rw [hc, hn]
      rfl
  impossible p hp := by
    obtain ⟨c, hc⟩ := h.weightOf_normalized ha hw p.state
    exact (hc p.number).trans (congrArg _ hp)
  unchanged i none := by
    obtain ⟨c, hc⟩ := h.linksFrom_normalized ha hw i
    rw [hc]
    refine (List.map_congr_left fun l hl => ?_).trans (List.map_id _)
    obtain ⟨src, dest, w⟩ := l
    cases none _ hl
    rfl

omit ha in
theorem normalizedFrom_normalized (i : Nat) : b.normalizedFrom i = a.normalizedFrom i := by
  rw [normalizedFrom, h.arcsFrom, map_snd_normalizedFrom]
  refine (List.map_congr_left fun e he => ?_).trans (List.map_id _)
  refine Prod.ext rfl (ExactWeight.sub_normalizer_normalized (hw.weights i) ?_)
  rw [← map_snd_normalizedFrom]
  exact List.mem_map_of_mem he

end Rebuilds

theorem exists_balanced (ha : a.WellFormed) (none : ∀ l ∈ a.links, l.weight ≠ .infinite) :
    ∃ b, a.normalize = .ok b ∧
      b.states.toList.map (·.symbol) = a.states.toList.map (·.symbol) ∧ a.Balances b ∧
      b.normalize = .ok b := by
  have hw := ha.weighted_proper none
  obtain ⟨b, hb, h⟩ := normalize_proper ha hw
  obtain ⟨c, hc, again⟩ := normalize_proper h.wellFormed (h.weighted_normalized hw)
  have same : c = b := h.eq_of_redraws again (redraws_of_normalize hb) (redraws_of_normalize hc)
    (h.normalizedFrom_normalized hw)
  exact ⟨b, hb, h.symbols_eq, h.balances ha hw, same ▸ hc⟩

-- ---------------------------------------------------------------------------
-- Something is infinite
-- ---------------------------------------------------------------------------

theorem normalize_infinite (ha : a.WellFormed) (h : ∃ l ∈ a.links, l.weight = .infinite) :
    ∃ src dest, a.normalize = .error (.undefinedWeight src dest) := by
  obtain ⟨l, hl, infinite⟩ := h
  rw [ha.links_eq] at hl
  obtain ⟨⟨i, j, w⟩, hr, rfl⟩ := List.mem_map.1 hl
  obtain rfl : w = .infinite := infinite
  have held : (j, .infinite) ∈ a.arcsFrom i := mem_arcs_iff.1 hr
  have lost : ¬isUndefined (.infinite - normalizer ((a.arcsFrom i).map Prod.snd)) = false :=
    fun defined => (ExactWeight.defined_sub_normalizer_iff
      (List.forall_mem_map.2 fun e he => ha.weight_defined he)
      (List.mem_map_of_mem held)).1 defined rfl
  exact normalize_undefined ha ⟨i, _, List.mem_map_of_mem held, eq_true_of_ne_false lost⟩

/-- Normalization refuses infinite weights and nothing else. Without them it balances the weights
of each state and changes nothing more. A second time it changes nothing at all. -/
theorem normalize_balances (ha : a.Built) :
    ((∃ src dest, a.normalize = .error (.undefinedWeight src dest)) ↔
      ∃ l ∈ a.links, l.weight = .infinite) ∧
    ((∀ l ∈ a.links, l.weight ≠ .infinite) → ∃ b, a.normalize = .ok b ∧
      b.states.toList.map (·.symbol) = a.states.toList.map (·.symbol) ∧ a.Balances b ∧
      b.normalize = .ok b) := by
  have wf := ha.wellFormed
  refine ⟨⟨?_, normalize_infinite wf⟩, exists_balanced wf⟩
  rintro ⟨src, dest, refused⟩
  by_contra none
  push Not at none
  obtain ⟨b, hb, -⟩ := exists_balanced wf none
  cases refused.symm.trans hb

-- ---------------------------------------------------------------------------
-- One weight beside others
-- ---------------------------------------------------------------------------

def mixedArcs (w : ExactWeight) : List (Arc ExactWeight) :=
  [⟨0, 2, .finite 0⟩, ⟨0, 2, w⟩, ⟨0, 1, .finite 1⟩, ⟨2, 1, .impossible⟩]

/-- Init has finite links and one of weight `w`. The state at 2 has an impossible one only. -/
def mixed (w : ExactWeight) : Automaton ExactWeight :=
  ((empty : Automaton ExactWeight).addState none (letter "a")).withArcs (mixedArcs w)

theorem mixed_built {w : ExactWeight} (hw : isUndefined w = false) : (mixed w).Built := by
  have ends : ∀ r ∈ mixedArcs w, r.src < 3 ∧ r.dest < 3 := by simp [mixedArcs]
  have defined : ∀ r ∈ mixedArcs w, isUndefined r.weight = false := by
    simp only [mixedArcs, List.forall_mem_cons]
    exact ⟨rfl, hw, rfl, rfl, nofun⟩
  exact Built.withArcs (Built.empty.addState none (letter "a")) fun r hr =>
    ⟨(ends r hr).1, (ends r hr).2, defined r hr⟩

theorem mixed_not_infinite : ∀ l ∈ (mixed .impossible).links, l.weight ≠ .infinite := by
  have bounded : ∀ r ∈ mixedArcs .impossible, r.weight ≠ .infinite := by simp [mixedArcs]
  exact (mixed_built (w := .impossible) rfl).wellFormed.forall_links (P := (· ≠ .infinite)) bounded

theorem normalize_mixed :
    (∃ src dest, (mixed .infinite).normalize = .error (.undefinedWeight src dest)) ∧
    ∃ b, (mixed .impossible).normalize = .ok b ∧ (mixed .impossible).Balances b ∧
      b.normalize = .ok b := by
  have infinite : ⟨.inner 0, .inner 2, .infinite⟩ ∈ (mixed .infinite).links :=
    mem_links_iff.2 ⟨0, List.mem_cons_of_mem _ List.mem_cons_self⟩
  obtain ⟨b, hb, -, balanced, again⟩ := (normalize_balances (mixed_built rfl)).2 mixed_not_infinite
  exact ⟨(normalize_balances (mixed_built rfl)).1.2 ⟨_, infinite, rfl⟩, b, hb, balanced, again⟩

end Automaton

end LogAutomata
