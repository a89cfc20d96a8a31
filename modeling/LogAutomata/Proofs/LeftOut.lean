import LogAutomata.Proofs.Closing
import LogAutomata.Proofs.TopologicalOrder

/-!
# What the topological order leaves out

A state is listed when its predecessors are, and Init is listed whatever leads to it. So the
states of a cycle wait for each other unless the cycle goes through Init, and whatever such a
cycle leads to waits with them. Nothing else is left out: a state that waits has a predecessor
that waits, and there are too few states for this to go on without a cycle.
-/

namespace LogAutomata.Automaton

variable {W : Type} {a : Automaton W}

/-- Some walk of one link or more leads from `i` back to `i` and does not come to Init. -/
def OnInnerCycle (a : Automaton W) (i : Nat) : Prop :=
  ∃ p ps, a.IsWalk i (p :: ps) i ∧ 0 ∉ a.entered (p :: ps)

/-- Init reaches a cycle that leads to `v`, and neither the cycle nor the way from there comes to
Init. A state of such a cycle is trapped too. -/
def Trapped (a : Automaton W) (v : Nat) : Prop :=
  ∃ i, a.Reaches 0 i ∧ a.OnInnerCycle i ∧ ∃ ps, a.IsWalk i ps v ∧ 0 ∉ a.entered ps

theorem onInnerCycle_iff_path {i : Nat} :
    a.OnInnerCycle i ↔ ∃ js, a.Path i js i ∧ js ≠ [] ∧ 0 ∉ js := by
  constructor
  · rintro ⟨p, ps, h, h0⟩
    have long := length_entered h
    refine ⟨_, h.path, fun none => ?_, h0⟩
    simp [none] at long
  · rintro ⟨js, hp, some, h0⟩
    obtain ⟨ps, h, rfl⟩ := hp.exists_walk
    cases ps with
    | nil => exact absurd rfl some
    | cons p ps => exact ⟨p, ps, h, h0⟩

theorem trapped_iff_path {v : Nat} : a.Trapped v ↔
    ∃ i, a.Reaches 0 i ∧ a.OnInnerCycle i ∧ ∃ js, a.Path i js v ∧ 0 ∉ js := by
  refine exists_congr fun i => and_congr_right fun _ => and_congr_right fun _ => ?_
  constructor
  · rintro ⟨ps, h, h0⟩
    exact ⟨_, h.path, h0⟩
  · rintro ⟨js, hp, h0⟩
    obtain ⟨ps, h, rfl⟩ := hp.exists_walk
    exact ⟨ps, h, h0⟩

namespace Sorted

variable {order : List Nat} (h : a.Sorted order)
include h

theorem zero_mem : 0 ∈ order := List.mem_of_mem_head? h.starts

theorem mem_front {front back : List Nat} {v p : Nat} (split : order = front ++ v :: back)
    (h0 : v ≠ 0) (hp : a.Reaches 0 p) (hv : v ∈ a.successors p) : p ∈ front := by
  have follows := h.follows
  rw [split, follows_append] at follows
  simpa using follows.2.1 h0 p hp hv

theorem idxOf_lt {v p : Nat} (hm : v ∈ order) (h0 : v ≠ 0) (hp : a.Reaches 0 p)
    (hv : v ∈ a.successors p) : p ∈ order ∧ order.idxOf p < order.idxOf v := by
  obtain ⟨front, back, split, new⟩ := List.eq_append_cons_of_mem hm
  have before := h.mem_front split h0 hp hv
  subst split
  refine ⟨List.mem_append_left _ before, ?_⟩
  calc (front ++ v :: back).idxOf p
      = front.idxOf p := List.idxOf_append_of_mem before
    _ < front.length := List.idxOf_lt_length_of_mem before
    _ = (front ++ v :: back).idxOf v := by simp [List.idxOf_append_of_notMem new]

/-- Against the links the list is left state by state, as long as Init is not met. -/
theorem idxOf_path {i v : Nat} {js : List Nat} (hp : a.Path i js v) (hi : a.Reaches 0 i)
    (h0 : 0 ∉ js) (hm : v ∈ order) :
    i ∈ order ∧ order.idxOf i + js.length ≤ order.idxOf v := by
  induction hp with
  | nil => exact ⟨hm, Nat.le_refl _⟩
  | @cons i j v js hj _ ih =>
    simp only [List.mem_cons, not_or] at h0
    obtain ⟨hj0, h0⟩ := h0
    obtain ⟨listed, rest⟩ := ih (hi.step hj) h0 hm
    obtain ⟨here, first⟩ := h.idxOf_lt listed (Ne.symm hj0) hi hj
    refine ⟨here, ?_⟩
    simp only [List.length_cons]
    omega

theorem not_trapped {v : Nat} (hm : v ∈ order) : ¬a.Trapped v := by
  intro ht
  obtain ⟨i, hi, cycle, js, hp, h0⟩ := trapped_iff_path.1 ht
  obtain ⟨ks, hk, some, hk0⟩ := onInnerCycle_iff_path.1 cycle
  have listed := (h.idxOf_path hp hi h0 hm).1
  have around := (h.idxOf_path hk hi hk0 listed).2
  have := List.length_pos_iff.2 some
  omega

theorem exists_waiting {v : Nat} (hv : a.Reaches 0 v) (hm : v ∉ order) :
    ∃ p, a.Reaches 0 p ∧ v ∈ a.successors p ∧ p ∉ order := by
  by_contra none
  push Not at none
  refine hm (h.closed v ?_ hv none)
  rintro rfl
  exact hm h.zero_mem

end Sorted

-- ---------------------------------------------------------------------------
-- What waits for a state
-- ---------------------------------------------------------------------------

/-- The state is not listed, and some way from it to `v` does not come to Init. -/
structure Delays (a : Automaton W) (order : List Nat) (v u : Nat) : Prop where
  reached : a.Reaches 0 u
  waiting : u ∉ order
  path : ∃ js, a.Path u js v ∧ 0 ∉ js

def DelaysBefore (a : Automaton W) (order : List Nat) (v p u : Nat) : Prop :=
  a.Delays order v p ∧ a.Delays order v u ∧ u ∈ a.successors p

variable {order : List Nat} {v : Nat}

theorem exists_path_of_delaysBefore (h : a.Sorted order) {p u : Nat}
    (ht : Relation.TransGen (a.DelaysBefore order v) p u) :
    ∃ js, a.Path p js u ∧ js ≠ [] ∧ 0 ∉ js := by
  have inner : ∀ {u}, a.Delays order v u → 0 ≠ u := by
    rintro u hu rfl
    exact hu.waiting h.zero_mem
  induction ht with
  | single hs => exact ⟨_, .cons hs.2.2 (.nil _), by simp, by simpa using inner hs.2.1⟩
  | tail _ hs ih =>
    obtain ⟨js, hp, -, h0⟩ := ih
    exact ⟨_, hp.snoc hs.2.2, by simp, by simpa using ⟨h0, inner hs.2.1⟩⟩

theorem wellFounded_delaysBefore (h : a.Sorted order) (free : ¬a.Trapped v) :
    WellFounded (a.DelaysBefore order v) := by
  apply wellFounded_of_bounded
  · exact fun p u hs => lt_size_of_mem_successors hs.2.2
  · intro u around
    obtain ⟨p, hp, -⟩ := Relation.TransGen.head'_iff.1 around
    exact free (trapped_iff_path.2 ⟨u, hp.1.reached,
      onInnerCycle_iff_path.2 (exists_path_of_delaysBefore h around), hp.1.path⟩)

/-- Were `v` not listed, then each state that delays it would have one before it. -/
theorem Sorted.mem_of_not_trapped (h : a.Sorted order) (hv : a.Reaches 0 v)
    (free : ¬a.Trapped v) : v ∈ order := by
  by_contra hm
  have none : ∀ u, ¬a.Delays order v u := by
    intro u
    induction u using (wellFounded_delaysBefore h free).induction with
    | _ u ih =>
      intro hu
      obtain ⟨p, hp, link, waits⟩ := h.exists_waiting hu.reached hu.waiting
      obtain ⟨js, path, h0⟩ := hu.path
      have inner : 0 ≠ u := fun he => hu.waiting (he ▸ h.zero_mem)
      have before : a.Delays order v p := ⟨hp, waits, u :: js, .cons link path, by simp [inner, h0]⟩
      exact ih p ⟨before, hu, link⟩ before
  exact none v ⟨hv, hm, [], .nil v, List.not_mem_nil⟩

theorem Sorted.mem_iff_not_trapped (h : a.Sorted order) :
    v ∈ order ↔ v = 0 ∨ a.Reaches 0 v ∧ ¬a.Trapped v := by
  constructor
  · exact fun hm => .inr ⟨h.reached v hm, h.not_trapped hm⟩
  · rintro (rfl | ⟨hv, free⟩)
    · exact h.zero_mem
    · exact h.mem_of_not_trapped hv free

/-- The order begins with Init and has the states that no cycle traps, each of them once and
behind all its predecessors. -/
theorem topologicalOrder_free [LogWeight W] (ha : a.Built) :
    ∃ order, a.topologicalOrder = .ok order ∧ order.Nodup ∧ order.head? = some 0 ∧
      (∀ v, v ∈ order ↔ v = 0 ∨ a.Reaches 0 v ∧ ¬a.Trapped v) ∧
      (a.Acyclic → ∀ v, v ∈ order ↔ a.Reaches 0 v) ∧
      ∀ front v back, order = front ++ v :: back → v ≠ 0 →
        ∀ p, a.Reaches 0 p → v ∈ a.successors p → p ∈ front := by
  obtain ⟨order, ho, h⟩ := topologicalOrder_ok ha.wellFormed.owns_dest
  exact ⟨order, ho, h.nodup, h.starts, fun v => h.mem_iff_not_trapped, h.mem_iff,
    fun front v back split h0 p => h.mem_front split h0⟩

/-- The cycle that avoids Init traps the states on it, and Final behind it. -/
theorem topologicalOrder_tangled : ∃ order, tangled.topologicalOrder = .ok order ∧
    order.Nodup ∧ order.head? = some 0 ∧ 3 ∉ order ∧ 1 ∉ order := by
  obtain ⟨order, ho, nodup, starts, mem, -⟩ := topologicalOrder_free tangled_built
  have reached : tangled.Reaches 0 3 :=
    ⟨[⟨0, 0⟩, ⟨2, 1⟩], .cons (j := 2) rfl (.cons (j := 3) rfl (.nil 3))⟩
  have cycle : tangled.OnInnerCycle 3 :=
    ⟨⟨3, 0⟩, [⟨4, 1⟩], .cons (j := 4) rfl (.cons (j := 3) rfl (.nil 3)), by decide⟩
  refine ⟨order, ho, nodup, starts, fun hm => ?_, fun hm => ?_⟩
  · obtain h0 | ⟨-, free⟩ := (mem 3).1 hm
    · cases h0
    · exact free ⟨3, reached, cycle, [], .nil 3, by simp [entered]⟩
  · obtain h0 | ⟨-, free⟩ := (mem 1).1 hm
    · cases h0
    · refine free ⟨3, reached, cycle, [⟨3, 0⟩, ⟨4, 2⟩], ?_, by decide⟩
      exact .cons (j := 4) rfl (.cons (j := 1) rfl (.nil 1))

example : tangled.topologicalOrder = .ok [0, 2] := by cbv

end LogAutomata.Automaton
