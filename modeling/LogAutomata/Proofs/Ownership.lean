import LogAutomata.Automaton.LeftMerge
import LogAutomata.Proofs.Foreign
import LogAutomata.Proofs.Search
import LogAutomata.Proofs.TopologicalOrder
import LogAutomata.Proofs.Weighted

/-!
# Which links are refused

States are found by their position, but a position means something only in the automaton
that owns the state. No operation follows or copies a link to a state that its automaton
does not own, whatever position that state has where it belongs. Those that visit every
link refuse such a link wherever it is, those that follow the links from Init on refuse it
where they get to it. Weights get in the way only if they have no sum along a walk or no
share in a total, as infinite ones: then an operation may come to an undefined weight first.
-/

namespace LogAutomata.Automaton

theorem leftMerge_unmapped {W : Type} [LogWeight W] {a : Automaton W} (h : a.LeadsOut) :
    Unmapped "topological_order" a.leftMerge :=
  ((topologicalOrder_refuses.refused h).bind _).bind _

theorem walkWeight_proper {a : Automaton ExactWeight} (hw : ∀ l ∈ a.links, l.weight.Proper)
    {i k : Nat} {ps : List Place} (h : a.IsWalk i ps k) : (a.walkWeight ps).Proper := by
  refine walkWeight_of_linkAt ExactWeight.proper_zero (fun _ _ => ExactWeight.Proper.add)
    (fun p l hl => hw l ?_) h
  exact mem_links_iff.2 ⟨p.state, List.mem_of_getElem? hl⟩

/-- When an operation meets a state that has no counterpart in its table. -/
theorem foreign_links_refused {W : Type} [LogWeight W] [DefinedSums W] {I : W → Prop}
    (unshared : Unshared I) {a : Automaton W} (ha : a.Defined) :
    (Unmapped "transpose" a.transpose ↔ a.HoldsForeign) ∧
    (Unmapped "copy" a.copy ↔ a.HoldsForeign) ∧
    (Unmapped "coalesce" a.coalesce ↔ a.HoldsForeign) ∧
    (Unmapped "normalize" a.normalize ↔
      ComesFirst a.Foreign (fun l => ¬I l.weight) a.links) ∧
    (∀ as : List (Automaton W), (∀ b ∈ as, b.Defined) →
      (Unmapped "union" (union as) ↔ ∃ b ∈ as, b.HoldsForeign) ∧
      (Unmapped "concat" (concat as) ↔ ∃ b ∈ as, b.HoldsForeign)) ∧
    (∀ units : List (Option Label × Automaton W), (∀ u ∈ units, u.2.Defined) →
      (Unmapped "compose" (a.compose units) ↔
        a.HoldsForeign ∨ ∃ unit, a.Inserts units unit ∧ unit.HoldsForeign)) ∧
    (a.LeadsOut → Unmapped "topological_order" a.topologicalOrder ∧
      Unmapped "topological_order" a.leftMerge ∧
      (a.Acyclic → Unmapped "push_weights" a.pushWeights) ∧
      ∃ e, a.removeNilStates = .error e ∧ a.Stops e) ∧
    ((∀ l ∈ a.links, ¬I l.weight) → (Unmapped "normalize" a.normalize ↔ a.HoldsForeign)) ∧
    ((∀ i ps k, a.Reaches 0 i → a.IsWalk i ps k → isUndefined (a.walkWeight ps) = false) →
      a.LeadsOut → Unmapped "remove_nil_states" a.removeNilStates) := by
  refine ⟨(transpose_refuses ha).unmapped_iff, (copy_refuses ha).unmapped_iff,
    (coalesce_refuses ha).unmapped_iff, normalize_unmapped_iff unshared ha,
    fun as h => ⟨(union_refuses h).unmapped_iff, (concat_refuses h).unmapped_iff⟩,
    fun units h => (compose_refuses ha h).unmapped_iff,
    fun h => ⟨topologicalOrder_refuses.refused h, leftMerge_unmapped h,
      fun hc => pushWeights_unmapped hc h, removeNilStates_stops h⟩,
    fun hw => ?_, fun hw h => ?_⟩
  · rw [normalize_unmapped_iff unshared ha, comesFirst_iff_exists hw]
    rfl
  · obtain ⟨e, he, ⟨s, rfl⟩ | ⟨-, i, ps, k, reaches, walk, undefined⟩⟩ := removeNilStates_stops h
    · exact ⟨s, he⟩
    · cases (hw i ps k reaches walk).symm.trans undefined

-- ---------------------------------------------------------------------------
-- A link to a state of another automaton
-- ---------------------------------------------------------------------------

/-- A state of another automaton, at a position that exists here too. -/
def elsewhere : Endpoint := .outer ⟨some 7, 1, ⟨some (-2), .nil⟩⟩

def passageArcs : List (Arc ExactWeight) := [⟨0, 2, .finite 0⟩, ⟨2, 1, .finite 0⟩]

def passage : Automaton ExactWeight := (empty.addState none (letter "a")).withArcs passageArcs

def escape : Automaton ExactWeight := passage.attach 2 ⟨.inner 2, elsewhere, .finite 0⟩

theorem links_escape : escape.links = [⟨.inner 0, .inner 2, .finite 0⟩,
    ⟨.inner 2, .inner 1, .finite 0⟩, ⟨.inner 2, elsewhere, .finite 0⟩] := rfl

theorem escape_defined : escape.Defined := by
  simp [Defined, links_escape]
  rfl

theorem passage_defined : passage.Defined := by
  have links : passage.links = [⟨.inner 0, .inner 2, .finite 0⟩, ⟨.inner 2, .inner 1, .finite 0⟩] :=
    rfl
  simp [Defined, links]
  rfl

theorem escape_holdsForeign : escape.HoldsForeign :=
  ⟨⟨.inner 2, elsewhere, .finite 0⟩, by simp [links_escape], .inr rfl⟩

theorem escape_leadsOut : escape.LeadsOut :=
  ⟨2, ⟨[⟨0, 0⟩], .cons (j := 2) rfl (.nil 2)⟩, ⟨.inner 2, elsewhere, .finite 0⟩,
    List.mem_cons_of_mem _ List.mem_cons_self, rfl⟩

theorem escape_acyclic : escape.Acyclic :=
  acyclic_of_arcs (fun i => [0, 2, 1].getD i 0) (by decide)

theorem passage_inserts_escape : passage.Inserts [(some (.text "a"), escape)] escape :=
  ⟨{ id := 1, symbol := letter "a", links := #[⟨.inner 2, .inner 1, .finite 0⟩] },
    List.mem_cons_self, by simp [letter, unitFor]⟩

theorem foreign_links_refused_escape : escape.Defined ∧ passage.Defined ∧
    Unmapped "transpose" escape.transpose ∧ Unmapped "copy" escape.copy ∧
    Unmapped "coalesce" escape.coalesce ∧ Unmapped "normalize" escape.normalize ∧
    Unmapped "union" (union [passage, escape]) ∧ Unmapped "concat" (concat [passage, escape]) ∧
    Unmapped "compose" (escape.compose []) ∧
    Unmapped "compose" (passage.compose [(some (.text "a"), escape)]) ∧
    Unmapped "topological_order" escape.topologicalOrder ∧
    Unmapped "topological_order" escape.leftMerge ∧ Unmapped "push_weights" escape.pushWeights ∧
    Unmapped "remove_nil_states" escape.removeNilStates := by
  obtain ⟨transpose, copy, coalesce, -, joined, composed, reached, normalize, elided⟩ :=
    foreign_links_refused unshared_infinite escape_defined
  obtain ⟨-, -, -, -, -, inserted, -⟩ := foreign_links_refused unshared_infinite passage_defined
  have proper : ∀ l ∈ escape.links, l.weight.Proper := by
    simp [links_escape, ExactWeight.Proper]
  have finite : ∀ l ∈ escape.links, ¬l.weight = .infinite := by simp [links_escape]
  have sums : ∀ i ps k, escape.Reaches 0 i → escape.IsWalk i ps k →
      isUndefined (escape.walkWeight ps) = false := fun _ _ _ _ h =>
    (walkWeight_proper proper h).defined
  obtain ⟨order, merged, pushed, -⟩ := reached escape_leadsOut
  have foreign := escape_holdsForeign
  have both : ∀ b ∈ [passage, escape], b.Defined := by
    simp [passage_defined, escape_defined]
  have one : ∃ b ∈ [passage, escape], b.HoldsForeign := by simp [foreign]
  exact ⟨escape_defined, passage_defined, transpose.2 foreign, copy.2 foreign, coalesce.2 foreign,
    (normalize finite).2 foreign, (joined _ both).1.2 one, (joined _ both).2.2 one,
    (composed [] (by simp)).2 (.inl foreign),
    (inserted _ (by simp [escape_defined])).2 (.inr ⟨escape, passage_inserts_escape, foreign⟩),
    order, merged, pushed escape_acyclic, elided sums escape_leadsOut⟩

-- ---------------------------------------------------------------------------
-- Infinite weights
-- ---------------------------------------------------------------------------

def overfullArcs : List (Arc ExactWeight) := [⟨0, 2, .infinite⟩, ⟨2, 1, .impossible⟩]

def overfull : Automaton ExactWeight := (empty.addState none .nil).withArcs overfullArcs

def overfullEscape : Automaton ExactWeight := overfull.attach 2 ⟨.inner 2, elsewhere, .finite 0⟩

theorem normalize_overfull : overfullEscape.normalize =
    .error (.undefinedWeight ⟨some (-1), .nil⟩ ⟨some 1, .nil⟩) := rfl

theorem removeNilStates_overfull : overfullEscape.removeNilStates =
    .error (.undefinedWeight ⟨some (-1), .nil⟩ ⟨some (-2), .nil⟩) := by
  let table := (overfullEscape.remap { keep := audible } empty).1
  let target := (overfullEscape.remap { keep := audible } (empty : Automaton ExactWeight)).2
  have first : overfullEscape.advances table target [{ root := 0, tip := 0, weight := 0 }] =
      .ok [.passed ⟨0, 2, .infinite, [2]⟩] := rfl
  have second : overfullEscape.advances table target [⟨0, 2, .infinite, [2]⟩] =
      .error (.undefinedWeight ⟨some (-1), .nil⟩ ⟨some (-2), .nil⟩) := rfl
  have stops : overfullEscape.elide table target ⟨[0], [{ root := 0, tip := 0, weight := 0 }]⟩ =
      .error (.undefinedWeight ⟨some (-1), .nil⟩ ⟨some (-2), .nil⟩) := by
    rw [elide_of_advances first]
    exact congrArg (Except.map _) (elide_eq_error second)
  exact congrArg (Except.map target.withArcs) stops

theorem overfull_built : overfull.Built := by
  refine Built.withArcs (Built.empty.addState none .nil) ?_
  simp only [overfullArcs, List.forall_mem_cons]
  exact ⟨⟨by decide, by decide, rfl⟩, ⟨by decide, by decide, rfl⟩, by simp⟩

/-- Neither of the two gets to the link that leads out. -/
theorem overfull_not_refused : overfull.Built ∧ overfullEscape.HoldsForeign ∧
    overfullEscape.LeadsOut ∧ ¬Unmapped "normalize" overfullEscape.normalize ∧
    ¬Unmapped "remove_nil_states" overfullEscape.removeNilStates := by
  refine ⟨overfull_built, ⟨⟨.inner 2, elsewhere, .finite 0⟩, ?_, .inr rfl⟩,
    ⟨2, ⟨[⟨0, 0⟩], .cons (j := 2) rfl (.nil 2)⟩, ⟨.inner 2, elsewhere, .finite 0⟩, ?_, rfl⟩, ?_, ?_⟩
  · exact mem_links_iff.2 ⟨2, List.mem_cons_of_mem _ List.mem_cons_self⟩
  · exact List.mem_cons_of_mem _ List.mem_cons_self
  · rw [normalize_overfull]
    rintro ⟨s, h⟩
    cases h
  · rw [removeNilStates_overfull]
    rintro ⟨s, h⟩
    cases h

end LogAutomata.Automaton
