import LogAutomata.Proofs.PushWeights
import LogAutomata.Proofs.Weighted
import Mathlib.Data.List.Lex

/-!
# The last visit

The sweep comes to walks with fewer links first, and to walks with as many links in the
order of their link numbers. So the visit of a state that counts is the longest walk to it,
and among the longest ones the last in that order. Its weight stands in front of all links
of the state.
-/

namespace LogAutomata

/-- The numbers of the links of a walk, each among the links of its state. -/
def numbers (ps : List Place) : List Nat := ps.map Place.number

theorem numbers_concat (ps : List Place) (p : Place) :
    numbers (ps ++ [p]) = numbers ps ++ [p.number] := by simp [numbers]

def Precedes (ps qs : List Place) : Prop :=
  ps.length < qs.length ∨ ps.length = qs.length ∧ numbers ps < numbers qs

theorem lt_append_of_lt {ns ms : List Nat} (h : ns < ms) (hl : ns.length = ms.length)
    (ks ls : List Nat) : ns ++ ks < ms ++ ls := by
  induction h with
  | nil => simp at hl
  | rel h => exact .rel h
  | cons _ ih => exact .cons (ih (by simpa using hl))

namespace Automaton

variable {W : Type}

-- ---------------------------------------------------------------------------
-- The order of the sweep
-- ---------------------------------------------------------------------------

theorem length_of_mem_walks {a : Automaton W} {i n : Nat} {v : List Place × Nat}
    (h : v ∈ a.walks i n) : v.1.length = n := by
  induction n generalizing v with
  | zero =>
    rw [walks, List.mem_singleton] at h
    rw [h, List.length_nil]
  | succ n ih =>
    obtain ⟨u, hu, h⟩ := List.mem_flatMap.1 h
    obtain ⟨x, -, rfl⟩ := List.mem_map.1 h
    rw [List.length_append, ih hu, List.length_singleton]

/-- Longer walks keep the order of the walks they continue, and those that continue the same
one have the order of its next links. -/
theorem pairwise_walks (a : Automaton W) (i n : Nat) :
    (a.walks i n).Pairwise fun u v => numbers u.1 < numbers v.1 := by
  induction n with
  | zero => exact List.pairwise_singleton _ _
  | succ n ih =>
    refine List.pairwise_flatMap.2 ⟨fun v _ => ?_, ?_⟩
    · have rising : ((a.arcsFrom v.2).zipIdx.map Prod.snd).Pairwise (· < ·) := by
        rw [List.zipIdx_map_snd]
        exact List.pairwise_lt_range'
      refine List.pairwise_map.2 ((List.pairwise_map.1 rising).imp fun {x y} h => ?_)
      rw [numbers_concat, numbers_concat]
      exact List.Lex.append_left _ (.rel h) _
    · refine ih.imp_of_mem fun {u v} hu hv h => ?_
      have same : (numbers u.1).length = (numbers v.1).length := by
        rw [numbers, numbers, List.length_map, List.length_map, length_of_mem_walks hu,
          length_of_mem_walks hv]
      intro x hx y hy
      obtain ⟨e, -, rfl⟩ := List.mem_map.1 hx
      obtain ⟨f, -, rfl⟩ := List.mem_map.1 hy
      rw [numbers_concat, numbers_concat]
      exact lt_append_of_lt h same _ _

theorem pairwise_visits (a : Automaton W) (n : Nat) :
    (a.visits n).Pairwise fun u v => Precedes u.1 v.1 := by
  induction n with
  | zero => exact .nil
  | succ n ih =>
    rw [visits_succ]
    refine List.pairwise_append.2 ⟨ih, ?_, fun u hu v hv => ?_⟩
    · refine (pairwise_walks a 0 n).imp_of_mem fun {u v} hu hv h => .inr ⟨?_, h⟩
      rw [length_of_mem_walks hu, length_of_mem_walks hv]
    · obtain ⟨m, hm, hu⟩ := List.mem_flatMap.1 hu
      rw [List.mem_range] at hm
      rw [Precedes, length_of_mem_walks hu, length_of_mem_walks hv]
      exact .inl hm

-- ---------------------------------------------------------------------------
-- The last walk to a state
-- ---------------------------------------------------------------------------

/-- Of the longest walks from Init to this state, the last one by the numbers of its links. -/
structure IsLast (a : Automaton W) (i : Nat) (ps : List Place) : Prop where
  walk : a.IsWalk 0 ps i
  longest : ∀ qs, a.IsWalk 0 qs i → qs.length ≤ ps.length
  last : ∀ qs, a.IsWalk 0 qs i → qs.length = ps.length → numbers qs ≤ numbers ps

theorem IsWalk.eq_of_numbers {a : Automaton W} {i j k : Nat} {ps qs : List Place}
    (hp : a.IsWalk i ps j) (hq : a.IsWalk i qs k) (h : numbers ps = numbers qs) : ps = qs := by
  induction hp generalizing qs with
  | nil => exact (List.map_eq_nil_iff.1 h.symm).symm
  | @cons i j _ n rest hn _ ih =>
    cases hq with
    | nil => cases h
    | @cons _ j' _ n' rest' hn' hq =>
      obtain ⟨hnum, hrest⟩ := List.cons.inj h
      obtain rfl : n = n' := hnum
      obtain rfl := Option.some.inj (hn.symm.trans hn')
      rw [ih hq hrest]

theorem IsLast.unique {a : Automaton W} {i : Nat} {ps qs : List Place} (hp : a.IsLast i ps)
    (hq : a.IsLast i qs) : ps = qs := by
  have len : ps.length = qs.length :=
    Nat.le_antisymm (hq.longest ps hp.walk) (hp.longest qs hq.walk)
  exact hp.walk.eq_of_numbers hq.walk
    (le_antisymm (hq.last ps hp.walk len) (hp.last qs hq.walk len.symm))

variable [LogWeight W] {a : Automaton W}

theorem offsetAt_eq_walkWeight (ha : a.WellFormed) (hc : a.Acyclic) {i : Nat}
    (hi : a.Reaches 0 i) : ∃ ps, a.IsLast i ps ∧ a.offsetAt i = a.walkWeight ps := by
  obtain ⟨qs, hqs⟩ := hi
  have visited : ∀ qs, a.IsWalk 0 qs i → (qs, i) ∈ (a.visits a.size).filter (·.2 = i) :=
    fun qs h => List.mem_filter.2 ⟨(mem_visits_iff ha hc).2 h, decide_eq_true rfl⟩
  have sorted := (pairwise_visits a a.size).filter (·.2 = i)
  obtain ⟨vs, ⟨ps, j⟩, he⟩ := List.eq_nil_or_concat' _ |>.resolve_left
    (List.ne_nil_of_mem (visited qs hqs))
  have hm : (ps, j) ∈ (a.visits a.size).filter (·.2 = i) := by
    rw [he]
    exact List.mem_append_right _ List.mem_cons_self
  obtain rfl : j = i := of_decide_eq_true (List.mem_filter.1 hm).2
  have walk : a.IsWalk 0 ps j := (mem_visits_iff ha hc).1 (List.mem_filter.1 hm).1
  have before : ∀ qs, a.IsWalk 0 qs j → qs = ps ∨ Precedes qs ps := by
    intro qs hq
    have hv := visited qs hq
    rw [he] at hv sorted
    rcases List.mem_append.1 hv with hv | hv
    · exact .inr ((List.pairwise_append.1 sorted).2.2 _ hv _ List.mem_cons_self)
    · exact .inl (Prod.mk.inj (List.mem_singleton.1 hv)).1
  refine ⟨ps, ⟨walk, fun qs hq => ?_, fun qs hq hl => ?_⟩, ?_⟩
  · rcases before qs hq with rfl | h | ⟨h, -⟩
    · exact Nat.le_refl _
    · exact Nat.le_of_lt h
    · exact Nat.le_of_eq h
  · rcases before qs hq with rfl | h | ⟨-, h⟩
    · exact le_refl _
    · exact absurd hl (Nat.ne_of_lt h)
    · exact le_of_lt h
  · rw [offsetAt, get?_offsetsOf, he]
    simp

/-- Pushing keeps all states, and the links of those that Init reaches, which get the weight of
the last walk to their state in front of their own. -/
theorem pushWeights_last (ha : a.Built) (hc : a.Acyclic)
    (defined : ∀ ps i, a.IsWalk 0 ps i → isUndefined (a.walkWeight ps) = false) :
    ∃ b, a.pushWeights = .ok b ∧ (b.size = a.size ∧ ∀ i, b.symbolAt i = a.symbolAt i) ∧
      (∀ i, ¬a.Reaches 0 i → b.linksFrom i = []) ∧
      ∀ i, a.Reaches 0 i → (∃ ps, a.IsLast i ps) ∧ ∀ ps, a.IsLast i ps →
        b.linksFrom i =
          (a.linksFrom i).map fun l => { l with weight := a.walkWeight ps + l.weight } := by
  have wf := ha.wellFormed
  obtain ⟨b, hb, push⟩ := pushWeights_ok wf hc defined
  refine ⟨b, hb, ⟨push.size_eq, push.symbolAt⟩, fun i hi => ?_, fun i hi => ?_⟩
  · rw [push.wellFormed.linksFrom_eq, push.arcsFrom, pushedFrom_of_not_reaches hi, List.map_nil]
  · obtain ⟨qs, hq, offset⟩ := offsetAt_eq_walkWeight wf hc hi
    refine ⟨⟨qs, hq⟩, fun ps hp => ?_⟩
    rw [push.wellFormed.linksFrom_eq, push.arcsFrom, pushedFrom_of_reaches hi, wf.linksFrom_eq,
      List.map_map, List.map_map, offset, hp.unique hq]
    rfl

-- ---------------------------------------------------------------------------
-- Three ways to a state
-- ---------------------------------------------------------------------------

def staggeredArcs : List (Arc ExactWeight) :=
  [⟨0, 3, .finite 1⟩, ⟨0, 2, .finite 2⟩, ⟨2, 3, .impossible⟩, ⟨2, 3, .finite 3⟩, ⟨3, 1, .finite 4⟩]

/-- One link leads to the state at 3, and two walks of two links, which part at the last. -/
def staggered : Automaton ExactWeight :=
  (((empty : Automaton ExactWeight).addState none (letter "b")).addState none
    (letter "c")).withArcs staggeredArcs

theorem staggeredArcs_proper : ∀ r ∈ staggeredArcs, r.weight.Proper := by
  simp [staggeredArcs, ExactWeight.Proper]

theorem staggered_built : staggered.Built :=
  (Built.empty.addState none (letter "b")).addState none (letter "c") |>.withProperArcs
    (by decide) staggeredArcs_proper

theorem staggered_acyclic : staggered.Acyclic :=
  acyclic_of_arcs (fun i => if i = 1 then 4 else i) (by decide)

theorem staggered_isLast : staggered.IsLast 3 [⟨0, 1⟩, ⟨2, 1⟩] := by
  have visits : staggered.visits staggered.size = [([], 0), ([⟨0, 0⟩], 3), ([⟨0, 1⟩], 2),
      ([⟨0, 0⟩, ⟨3, 0⟩], 1), ([⟨0, 1⟩, ⟨2, 0⟩], 3), ([⟨0, 1⟩, ⟨2, 1⟩], 3),
      ([⟨0, 1⟩, ⟨2, 0⟩, ⟨3, 0⟩], 1), ([⟨0, 1⟩, ⟨2, 1⟩, ⟨3, 0⟩], 1)] := rfl
  have walks : ∀ qs, staggered.IsWalk 0 qs 3 →
      qs = [⟨0, 0⟩] ∨ qs = [⟨0, 1⟩, ⟨2, 0⟩] ∨ qs = [⟨0, 1⟩, ⟨2, 1⟩] := by
    intro qs h
    have := (mem_visits_iff staggered_built.wellFormed staggered_acyclic).2 h
    rw [visits] at this
    simpa using this
  refine ⟨.cons (j := 2) rfl (.cons (j := 3) rfl (.nil 3)), fun qs h => ?_, fun qs h hl => ?_⟩
  · rcases walks qs h with rfl | rfl | rfl <;> decide
  · rcases walks qs h with rfl | rfl | rfl
    · cases hl
    · decide
    · decide

theorem pushWeights_staggered : ∃ b, staggered.pushWeights = .ok b ∧
    b.linksFrom 3 = [⟨.inner 3, .inner 1, (0 + .finite 2 + .finite 3) + .finite 4⟩] := by
  have wf := staggered_built.wellFormed
  have proper := wf.weighted (wf.forall_links staggeredArcs_proper)
  obtain ⟨b, hb, -, -, reached⟩ := pushWeights_last staggered_built staggered_acyclic
    fun ps i h => proper.walkWeight_defined wf h
  exact ⟨b, hb, (reached 3 ⟨_, staggered_isLast.walk⟩).2 _ staggered_isLast⟩

end Automaton

end LogAutomata
