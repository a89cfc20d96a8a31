import LogAutomata.Proofs.Closing
import LogAutomata.Proofs.Ownership

/-!
# What the search for a cycle overlooks

Of the links of a state that arrive at one index the search tries the first one only, and asks
only there whether the automaton owns the end. So a link that leads out is overlooked if it
comes after one that arrives at the state of the automaton with this index. Nothing else is
overlooked, whatever links the states hold.
-/

namespace LogAutomata.Automaton

variable {W : Type} {a : Automaton W}

theorem mem_firstByIndex_iff {e : Endpoint} {es : List Endpoint} : e ∈ firstByIndex es ↔
    ∃ before after, es = before ++ e :: after ∧ ∀ f ∈ before, f.index ≠ e.index := by
  induction es with
  | nil => simp [firstByIndex]
  | cons g es ih =>
    rw [firstByIndex, List.mem_cons, List.mem_filter, ih, bne_iff_ne]
    constructor
    · rintro (rfl | ⟨⟨before, after, rfl, first⟩, hg⟩)
      · exact ⟨[], es, rfl, fun _ hf => absurd hf List.not_mem_nil⟩
      · exact ⟨g :: before, after, rfl, List.forall_mem_cons.2 ⟨Ne.symm hg, first⟩⟩
    · rintro ⟨before, after, split, first⟩
      cases before with
      | nil => exact .inl (List.cons.inj split).1.symm
      | cons f before =>
        obtain ⟨rfl, rfl⟩ := List.cons.inj split
        obtain ⟨hg, first⟩ := List.forall_mem_cons.1 first
        exact .inr ⟨⟨before, after, rfl, first⟩, Ne.symm hg⟩

theorem mem_firstByIndex_append {e : Endpoint} {es : List Endpoint} (h : e ∈ firstByIndex es)
    (fs : List Endpoint) : e ∈ firstByIndex (es ++ fs) := by
  obtain ⟨before, after, rfl, first⟩ := mem_firstByIndex_iff.1 h
  exact mem_firstByIndex_iff.2 ⟨before, after ++ fs, by simp, first⟩

def Masks (a : Automaton W) (before : List (Link W)) (e : Endpoint) : Prop :=
  ∃ l ∈ before, a.owns l.dest = true ∧ l.dest.index = e.index

theorem ownsTargets_iff {i : Nat} : a.OwnsTargets i ↔ ∀ before l after,
    a.linksFrom i = before ++ l :: after → a.owns l.dest = true ∨ a.Masks before l.dest := by
  constructor
  · intro h before l after split
    have last : l.dest ∈ (before ++ [l]).map Link.dest := List.mem_map_of_mem (by simp)
    obtain ⟨f, hf, index⟩ := exists_mem_firstByIndex last
    have target : f ∈ a.targets i := by
      have := mem_firstByIndex_append hf (after.map Link.dest)
      rwa [← List.map_append, List.append_assoc, List.singleton_append, ← split] at this
    obtain ⟨m, hm, rfl⟩ := List.mem_map.1 (mem_of_mem_firstByIndex hf)
    rcases List.mem_append.1 hm with hm | hm
    · exact .inr ⟨m, hm, h _ target, index⟩
    · obtain rfl := List.mem_singleton.1 hm
      exact .inl (h _ target)
  · intro h e he
    obtain ⟨before, after, split, first⟩ := mem_firstByIndex_iff.1 he
    obtain ⟨ls, rest, links, rfl, hrest⟩ := List.map_eq_append_iff.1 split
    obtain ⟨l, ms, rfl, rfl, -⟩ := List.map_eq_cons_iff.1 hrest
    refine (h ls l ms links).resolve_right ?_
    rintro ⟨m, hm, -, index⟩
    exact first m.dest (List.mem_map_of_mem hm) index

/-- Init reaches no cycle. Where a link of a state that it reaches leads out, an earlier link of
this state arrives in the automaton at the same index. -/
structure SeemsAcyclic (a : Automaton W) : Prop where
  acyclic : a.Acyclic
  masked : ∀ i, a.Reaches 0 i → ∀ before l after, a.linksFrom i = before ++ l :: after →
    a.owns l.dest = true ∨ a.Masks before l.dest

theorem findCycle_eq_none_iff_seemsAcyclic : a.findCycle = .ok none ↔ a.SeemsAcyclic := by
  rw [findCycle_eq_none_iff]
  simp only [ownsTargets_iff]
  exact ⟨fun h => ⟨h.1, h.2⟩, fun h => ⟨h.acyclic, h.masked⟩⟩

theorem eq_unmapped_of_owned {operation : String} {e : Endpoint} {f : Fault}
    (h : a.owned operation e = .error f) :
    a.owns e = false ∧ f = .unmapped operation (a.profile e) := by
  rw [owned] at h
  rw [owns]
  cases hp : a.position? e with
  | none =>
    rw [hp] at h
    cases h
    exact ⟨rfl, rfl⟩
  | some i =>
    rw [hp] at h
    cases h

/-- The search finds nothing exactly if there is no cycle and every link that leads out is
overlooked. Otherwise it ends with a cycle or at a link that leads out. -/
theorem findCycle_overlooks (a : Automaton W) :
    (a.findCycle = .ok none ↔ a.SeemsAcyclic) ∧ (a.isAcyclic = .ok true ↔ a.SeemsAcyclic) ∧
      (a.checkAcyclic = .ok () ↔ a.SeemsAcyclic) ∧
      (¬a.SeemsAcyclic →
        (∃ states, a.IsCycle states ∧ a.findCycle = .ok (some states) ∧
          a.isAcyclic = .ok false ∧
          a.checkAcyclic = .error (.cycle (states.map fun i => (a.profile (.inner i)).id))) ∨
        ∃ i, a.Reaches 0 i ∧ ∃ l ∈ a.linksFrom i, a.owns l.dest = false ∧
          a.findCycle = .error (.unmapped "find_cycle" (a.profile l.dest)) ∧
          a.isAcyclic = .error (.unmapped "find_cycle" (a.profile l.dest)) ∧
          a.checkAcyclic = .error (.unmapped "find_cycle" (a.profile l.dest))) := by
  have caught : a.findCycle ≠ .ok none → ¬a.SeemsAcyclic :=
    mt findCycle_eq_none_iff_seemsAcyclic.2
  rw [findCycle_eq_none_iff_seemsAcyclic, isAcyclic, checkAcyclic]
  cases h : a.findCycle with
  | ok found =>
    cases found with
    | none =>
      have clear := findCycle_eq_none_iff_seemsAcyclic.1 h
      exact ⟨.rfl, iff_of_true rfl clear, iff_of_true rfl clear, fun hn => absurd clear hn⟩
    | some states =>
      have caught := caught fun hn => by cases h.symm.trans hn
      refine ⟨.rfl, iff_of_false ?_ caught, iff_of_false ?_ caught, fun _ => .inl ?_⟩
      · rintro ⟨⟩
      · rintro ⟨⟩
      · exact ⟨states, findCycle_isCycle h, rfl, rfl, rfl⟩
  | error f =>
    have caught := caught fun hn => by cases h.symm.trans hn
    refine ⟨.rfl, iff_of_false ?_ caught, iff_of_false ?_ caught, fun _ => .inr ?_⟩
    · rintro ⟨⟩
    · rintro ⟨⟩
    · obtain ⟨i, hi, e, he, hf⟩ := findCycle_eq_error h
      obtain ⟨out, rfl⟩ := eq_unmapped_of_owned hf
      obtain ⟨l, hl, rfl⟩ := List.mem_map.1 (mem_of_mem_firstByIndex he)
      exact ⟨i, hi, l, hl, out, rfl, rfl, rfl⟩

/-- Init links to Final, and then to a state elsewhere that has the index of Final. -/
def decoy : Automaton ExactWeight :=
  ((empty : Automaton ExactWeight).withArcs [⟨0, 1, .finite 0⟩]).attach 0
    ⟨.inner 0, elsewhere, .finite 0⟩

/-- The search passes the second link. An operation that asks at every link stops there. -/
theorem findCycle_decoy : decoy.findCycle = .ok none ∧ decoy.isAcyclic = .ok true ∧
    decoy.checkAcyclic = .ok () ∧ decoy.LeadsOut ∧
    Unmapped "topological_order" decoy.topologicalOrder := by
  have found : decoy.findCycle = .ok none := by cbv
  have out : decoy.LeadsOut :=
    ⟨0, .refl _ 0, ⟨.inner 0, elsewhere, .finite 0⟩, List.mem_of_getLast? rfl, rfl⟩
  refine ⟨found, by rw [isAcyclic, found]; rfl, by rw [checkAcyclic, found]; rfl, out, ?_⟩
  exact topologicalOrder_refuses.refused out

end LogAutomata.Automaton
