import LogAutomata.Proofs.Cycle
import LogAutomata.Proofs.Weighted

/-!
# The trail closes a cycle

Read from the innermost state back to Init, the trail goes against the links and no state is on
it twice. So a link from the innermost state to a state on the trail makes the part in between a
cycle, and this is what the search answers with. Together with the search that goes on until it
finds one, this settles all three questions about cycles.
-/

namespace LogAutomata.Automaton

variable {W : Type} {a : Automaton W}

/-- States that Init reaches, each of them once. Each links to the next one and the last to the
first. -/
structure IsCycle (a : Automaton W) (states : List Nat) : Prop where
  ne_nil : states ≠ []
  nodup : states.Nodup
  reached : ∀ i ∈ states, a.Reaches 0 i
  linked : states.IsChain fun i j => j ∈ a.successors i
  closed : ∀ first ∈ states.head?, ∀ last ∈ states.getLast?, first ∈ a.successors last

structure Backward (a : Automaton W) (states : List Nat) : Prop where
  nodup : states.Nodup
  reached : ∀ i ∈ states, a.Reaches 0 i
  linked : states.IsChain fun i j => i ∈ a.successors j

namespace Backward

variable {states : List Nat} {u v : Nat}

theorem start (a : Automaton W) : a.Backward [0] where
  nodup := List.nodup_singleton 0
  reached i hi := by
    cases List.mem_singleton.1 hi
    exact .refl a 0
  linked := .singleton 0

theorem leave (h : a.Backward (u :: states)) : a.Backward states where
  nodup := (List.nodup_cons.1 h.nodup).2
  reached i hi := h.reached i (List.mem_cons_of_mem u hi)
  linked := h.linked.tail

theorem enter (h : a.Backward (u :: states)) (hv : v ∈ a.successors u) (new : v ∉ u :: states) :
    a.Backward (v :: u :: states) where
  nodup := List.nodup_cons.2 ⟨new, h.nodup⟩
  reached := List.forall_mem_cons.2 ⟨(h.reached u List.mem_cons_self).step hv, h.reached⟩
  linked := .cons_cons hv h.linked

theorem isCycle {front back : List Nat} (h : a.Backward (front ++ v :: back))
    (back_link : ∀ u ∈ (front ++ v :: back).head?, v ∈ a.successors u) :
    a.IsCycle (v :: front.reverse) := by
  have turned : v :: front.reverse = (front ++ [v]).reverse := by simp
  have split : front ++ v :: back = (front ++ [v]) ++ back := by simp
  rw [split] at h
  rw [turned]
  refine ⟨by simp, ?_, fun i hi => ?_, ?_, fun first hf last hl => ?_⟩
  · exact List.nodup_reverse.2 (List.nodup_append.1 h.nodup).1
  · exact h.reached i (List.mem_append_left back (List.mem_reverse.1 hi))
  · exact List.isChain_reverse.2 h.linked.left_of_append
  · obtain rfl : v = first := by simpa using hf
    rw [List.getLast?_reverse] at hl
    apply back_link
    cases front <;> simpa using hl

end Backward

theorem closing_append {front : List Nat} {v : Nat} (hv : v ∉ front) (back : List Nat) :
    closing (front ++ v :: back) v = v :: front.reverse := by
  have others : ∀ i ∈ front, (i != v) = true := fun i hi => bne_iff_ne.2 fun he => hv (he ▸ hi)
  simp [closing, List.takeWhile_append_of_pos others]

theorem Backward.closing {states : List Nat} {u v : Nat} (h : a.Backward (u :: states))
    (hv : v ∈ u :: states) (link : v ∈ a.successors u) :
    a.IsCycle (closing (u :: states) v) := by
  obtain ⟨front, back, split, new⟩ := List.eq_append_cons_of_mem hv
  have innermost : ∀ w ∈ (front ++ v :: back).head?, v ∈ a.successors w := by
    rw [← split]
    rintro w ⟨⟩
    exact link
  rw [split, closing_append new]
  rw [split] at h
  exact h.isCycle innermost

theorem follow_isCycle {trail : List Visit} {done states : List Nat} (h : a.Leads trail)
    (back : a.Backward (Visit.states trail)) (hf : a.follow trail done = .ok (some states)) :
    a.IsCycle states := by
  fun_induction follow a trail done with
  | case1 => cases hf
  | case2 u trail done ih => exact ih h.2.2.2 back.leave hf
  | case3 => cases hf
  | case4 u e rest trail done v hv hm =>
    cases hf
    exact back.closing hm (h.mem_successors hv)
  | case5 u e rest trail done v hv hm hd ih => exact ih h.tried back hf
  | case6 u e rest trail done v hv hm hd ih =>
    have hj := h.mem_successors hv
    exact ih (h.tried.enter hj) (back.enter hj hm) hf

theorem findCycle_isCycle {states : List Nat} (h : a.findCycle = .ok (some states)) :
    a.IsCycle states :=
  follow_isCycle (leads_start a) (.start a) h

variable [LogWeight W]

theorem exists_findCycle (ha : a.WellFormed) (hc : ¬a.Acyclic) :
    ∃ states, a.findCycle = .ok (some states) ∧ a.IsCycle states := by
  obtain ⟨found, h, none⟩ := findCycle_ok ha
  cases found with
  | none => exact absurd (none rfl) hc
  | some states => exact ⟨states, h, findCycle_isCycle h⟩

/-- The search ends with no cycle if Init reaches none and with one of those that it reaches
otherwise. -/
theorem findCycle_decides (ha : a.Built) :
    (a.findCycle = .ok none ↔ a.Acyclic) ∧ (a.isAcyclic = .ok true ↔ a.Acyclic) ∧
      (a.checkAcyclic = .ok () ↔ a.Acyclic) ∧
      (¬a.Acyclic → ∃ states, a.IsCycle states ∧ a.findCycle = .ok (some states) ∧
        a.isAcyclic = .ok false ∧
        a.checkAcyclic = .error (.cycle (states.map fun i => (a.profile (.inner i)).id))) := by
  have wf := ha.wellFormed
  by_cases hc : a.Acyclic
  · have found := findCycle_eq_none wf hc
    have answer : a.isAcyclic = .ok true := by simp [isAcyclic, found]
    exact ⟨iff_of_true found hc, iff_of_true answer hc, iff_of_true (checkAcyclic_ok wf hc) hc,
      fun hn => absurd hc hn⟩
  · obtain ⟨states, found, cycle⟩ := exists_findCycle wf hc
    have answer : a.isAcyclic = .ok false := by simp [isAcyclic, found]
    have refused : a.checkAcyclic =
        .error (.cycle (states.map fun i => (a.profile (.inner i)).id)) := by
      simp only [checkAcyclic, found]
      rfl
    refine ⟨iff_of_false ?_ hc, iff_of_false ?_ hc, iff_of_false ?_ hc,
      fun _ => ⟨states, cycle, found, answer, refused⟩⟩
    · simp [found]
    · simp [answer]
    · simp [refused]

-- ---------------------------------------------------------------------------
-- Two cycles that share no state
-- ---------------------------------------------------------------------------

/-- One cycle goes through Init and one avoids it. Final is behind the second one. -/
def tangledArcs : List (Arc ExactWeight) :=
  [⟨0, 2, .finite 0⟩, ⟨2, 0, .finite 0⟩, ⟨2, 3, .finite 0⟩, ⟨3, 4, .finite 0⟩, ⟨4, 4, .finite 0⟩,
    ⟨4, 3, .finite 0⟩, ⟨4, 1, .finite 0⟩]

def tangled : Automaton ExactWeight :=
  (((empty.addState none (letter "a")).addState none (letter "b")).addState none
    (letter "c")).withArcs tangledArcs

theorem tangled_built : tangled.Built :=
  ((Built.empty.addState none (letter "a")).addState none (letter "b")).addState none (letter "c")
    |>.withProperArcs (by decide) (by simp [tangledArcs, ExactWeight.Proper])

theorem tangled_not_acyclic : ¬tangled.Acyclic := fun h =>
  h 0 (.refl _ 0) ⟨⟨0, 0⟩, [⟨2, 0⟩], .cons (j := 2) rfl (.cons (j := 0) rfl (.nil 0))⟩

theorem findCycle_tangled : ∃ states, tangled.IsCycle states ∧
    tangled.findCycle = .ok (some states) ∧ tangled.isAcyclic = .ok false ∧
    tangled.checkAcyclic =
      .error (.cycle (states.map fun i => (tangled.profile (.inner i)).id)) :=
  (findCycle_decides tangled_built).2.2.2 tangled_not_acyclic

example : tangled.findCycle = .ok (some [0, 2]) := by cbv

end LogAutomata.Automaton
