import LogAutomata.Proofs.Coalesce
import LogAutomata.Proofs.Isomorphism
import LogAutomata.Proofs.Redrawn
import LogAutomata.Proofs.Sums
import LogAutomata.Proofs.Weighted

/-!
# Coalescing keeps the weight of every route

Walks that enter the same states in the same order differ in which of several parallel links
they take, each time anew. The masses along such a route multiply out: the walks together have
the product of what the links between consecutive states have together, and coalescing keeps
each of these factors. Where no links are parallel there is nothing more to coalesce.
-/

namespace LogAutomata

theorem ExactWeight.logAdd_impossible (w : ExactWeight) : LogAutomata.logAdd impossible w = w := by
  cases w <;> rfl

namespace Automaton

open ExactWeight (mass Proper)

-- ---------------------------------------------------------------------------
-- Routes
-- ---------------------------------------------------------------------------

section
variable {W : Type} {a : Automaton W}

def placesTo (a : Automaton W) (i j : Nat) : List Place :=
  ((a.arcsFrom i).zipIdx.filter fun x => x.1.1 = j).map fun x => ⟨i, x.2⟩

def walksAlong (a : Automaton W) : Nat → List Nat → List (List Place)
  | _, [] => [[]]
  | i, j :: js => (a.placesTo i j).flatMap fun p => (a.walksAlong j js).map (p :: ·)

/-- These are the walks from `i` that enter these states in order, each of them once. -/
structure ListsAlong (a : Automaton W) (i : Nat) (js : List Nat) (walks : List (List Place)) :
    Prop where
  nodup : walks.Nodup
  mem_iff : ∀ ps, ps ∈ walks ↔ (∃ k, a.IsWalk i ps k) ∧ a.entered ps = js

theorem nodup_placesTo (a : Automaton W) (i j : Nat) : (a.placesTo i j).Nodup := by
  have numbers : (((a.arcsFrom i).zipIdx.filter fun x => x.1.1 = j).map Prod.snd).Nodup := by
    refine List.Nodup.sublist (List.filter_sublist.map _) ?_
    rw [List.zipIdx_map_snd]
    exact List.nodup_range' ..
  have places : a.placesTo i j =
      (((a.arcsFrom i).zipIdx.filter fun x => x.1.1 = j).map Prod.snd).map (Place.mk i) := by
    rw [List.map_map]
    rfl
  rw [places]
  exact numbers.map fun _ _ h => (Place.mk.inj h).2

theorem nodup_walksAlong (a : Automaton W) (i : Nat) (js : List Nat) :
    (a.walksAlong i js).Nodup := by
  induction js generalizing i with
  | nil => exact List.nodup_singleton _
  | cons j js ih =>
    refine List.nodup_flatMap.2 ⟨fun p _ => (ih j).map fun _ _ h => (List.cons.inj h).2, ?_⟩
    refine (a.nodup_placesTo i j).imp fun {p q} hne ps hp hq => hne ?_
    obtain ⟨qs, -, rfl⟩ := List.mem_map.1 hp
    obtain ⟨rs, -, h⟩ := List.mem_map.1 hq
    exact (List.cons.inj h).1.symm

end

section
variable {W : Type} [LogWeight W] {a : Automaton W} (ha : a.WellFormed)
include ha

theorem mem_placesTo_iff {i j : Nat} {p : Place} :
    p ∈ a.placesTo i j ↔ p.state = i ∧ a.arrival p = some j := by
  obtain ⟨s, n⟩ := p
  simp only [placesTo, List.mem_map, List.mem_filter, decide_eq_true_eq, Place.mk.injEq]
  constructor
  · rintro ⟨⟨e, m⟩, ⟨he, hj⟩, rfl, rfl⟩
    exact ⟨rfl, (arrival_eq_some_iff ha).2 ⟨e, he, hj⟩⟩
  · rintro ⟨rfl, h⟩
    obtain ⟨e, he, hj⟩ := (arrival_eq_some_iff ha).1 h
    exact ⟨(e, n), ⟨he, hj⟩, rfl, rfl⟩

theorem mem_walksAlong_iff {i : Nat} {js : List Nat} {ps : List Place} :
    ps ∈ a.walksAlong i js ↔ (∃ k, a.IsWalk i ps k) ∧ a.entered ps = js := by
  induction js generalizing i ps with
  | nil =>
    simp only [walksAlong, List.mem_singleton]
    constructor
    · rintro rfl
      exact ⟨⟨i, .nil i⟩, rfl⟩
    · rintro ⟨⟨k, h⟩, none⟩
      cases h with
      | nil => rfl
      | cons hp _ => simp [entered_cons hp] at none
  | cons j js ih =>
    simp only [walksAlong, List.mem_flatMap, List.mem_map]
    constructor
    · rintro ⟨p, hp, qs, hq, rfl⟩
      obtain ⟨rfl, hj⟩ := (mem_placesTo_iff ha).1 hp
      obtain ⟨⟨k, h⟩, rfl⟩ := ih.1 hq
      exact ⟨⟨k, .cons hj h⟩, entered_cons hj qs⟩
    · rintro ⟨⟨k, h⟩, entered⟩
      cases h with
      | nil => cases entered
      | @cons i m k n qs hm h =>
        rw [entered_cons hm] at entered
        cases entered
        exact ⟨⟨i, n⟩, (mem_placesTo_iff ha).2 ⟨rfl, hm⟩, qs, ih.2 ⟨⟨k, h⟩, rfl⟩, rfl⟩

theorem listsAlong_walksAlong (i : Nat) (js : List Nat) :
    a.ListsAlong i js (a.walksAlong i js) :=
  ⟨a.nodup_walksAlong i js, fun _ => mem_walksAlong_iff ha⟩

end

-- ---------------------------------------------------------------------------
-- Masses along a route
-- ---------------------------------------------------------------------------

noncomputable def massTo (a : Automaton ExactWeight) (i j : Nat) : ℝ :=
  ((entriesAt (a.arcsFrom i) j).map mass).sum

noncomputable def massAlong (a : Automaton ExactWeight) : Nat → List Nat → ℝ
  | _, [] => 1
  | i, j :: js => a.massTo i j * a.massAlong j js

section
variable {a b : Automaton ExactWeight}

theorem mass_placesTo (ha : a.WellFormed) (i j : Nat) :
    ((a.placesTo i j).map fun p => (a.walkWeight [p]).mass).sum = a.massTo i j := by
  have weight : ∀ x ∈ (a.arcsFrom i).zipIdx, a.walkWeight [⟨i, x.2⟩] = x.1.2 := by
    intro x hx
    calc a.walkWeight ([] ++ [⟨i, x.2⟩]) = 0 + x.1.2 := walkWeight_concat ha hx
      _ = x.1.2 := Std.LawfulLeftIdentity.left_id x.1.2
  have entries : entriesAt (a.arcsFrom i) j =
      ((a.arcsFrom i).zipIdx.filter fun x => x.1.1 = j).map fun x => x.1.2 := by
    conv_lhs => rw [← List.zipIdx_map_fst 0 (a.arcsFrom i)]
    rw [entriesAt, List.filter_map, List.map_map]
    rfl
  rw [massTo, entries, placesTo, List.map_map, List.map_map]
  refine congrArg List.sum (List.map_congr_left fun x hx => ?_)
  exact congrArg mass (weight x (List.mem_of_mem_filter hx))

theorem mass_walksAlong (ha : a.WellFormed) (hw : a.Weighted Proper) (i : Nat) (js : List Nat) :
    ((a.walksAlong i js).map fun ps => (a.walkWeight ps).mass).sum = a.massAlong i js := by
  induction js generalizing i with
  | nil =>
    have : (a.walkWeight []).mass = 1 := ExactWeight.mass_zero
    simp [walksAlong, massAlong, this]
  | cons j js ih =>
    have first : ∀ p ∈ a.placesTo i j,
        ((a.walksAlong j js).map fun ps => (a.walkWeight (p :: ps)).mass).sum =
          (a.walkWeight [p]).mass * a.massAlong j js := by
      intro p hp
      obtain ⟨rfl, hj⟩ := (mem_placesTo_iff ha).1 hp
      rw [← ih, ← List.sum_map_mul_left]
      refine congrArg List.sum (List.map_congr_left fun ps hps => ?_)
      obtain ⟨⟨k, walk⟩, -⟩ := (mem_walksAlong_iff ha).1 hps
      rw [walkWeight_cons, ExactWeight.mass_add (hw.proper_walk ha (.cons hj (.nil j)))
        (hw.proper_walk ha walk)]
    calc ((a.walksAlong i (j :: js)).map fun ps => (a.walkWeight ps).mass).sum
        = ((a.placesTo i j).map fun p =>
            ((a.walksAlong j js).map fun ps => (a.walkWeight (p :: ps)).mass).sum).sum := by
          rw [walksAlong, List.map_flatMap, List.flatMap_def, List.sum_flatten]
          simp only [List.map_map, Function.comp_def]
      _ = ((a.placesTo i j).map fun p => (a.walkWeight [p]).mass * a.massAlong j js).sum :=
          congrArg List.sum (List.map_congr_left first)
      _ = a.massAlong i (j :: js) := by
          rw [List.sum_map_mul_right, mass_placesTo ha, massAlong]

theorem proper_walksAlong (ha : a.WellFormed) (hw : a.Weighted Proper) (i : Nat) (js : List Nat) :
    ∀ w ∈ (a.walksAlong i js).map a.walkWeight, w.Proper := by
  refine List.forall_mem_map.2 fun ps hps => ?_
  obtain ⟨⟨k, walk⟩, -⟩ := (mem_walksAlong_iff ha).1 hps
  exact hw.proper_walk ha walk

theorem mass_logSum_walksAlong (ha : a.WellFormed) (hw : a.Weighted Proper) (i : Nat)
    (js : List Nat) : (logSum ((a.walksAlong i js).map a.walkWeight)).mass = a.massAlong i js := by
  rw [ExactWeight.mass_logSum (proper_walksAlong ha hw i js), List.map_map,
    ← mass_walksAlong ha hw]
  rfl

namespace Rebuilds
variable (h : a.Rebuilds b a.coalescedFrom) (hw : a.Weighted Proper)
include h hw

theorem massTo_coalesced (i j : Nat) : b.massTo i j = a.massTo i j := by
  have proper : ∀ w ∈ entriesAt (a.arcsFrom i) j, w.Proper := fun w hm =>
    hw i (j, w) (mem_entriesAt_iff.1 hm)
  rw [massTo, massTo, h.arcsFrom, coalescedFrom, entriesAt_tally]
  split
  · next none => rw [none]
  · simp [ExactWeight.mass_logSum proper]

theorem massAlong_coalesced (i : Nat) (js : List Nat) : b.massAlong i js = a.massAlong i js := by
  induction js generalizing i with
  | nil => rfl
  | cons j js ih => rw [massAlong, massAlong, h.massTo_coalesced hw, ih]

theorem weighted_coalesced : b.Weighted Proper := by
  rintro i ⟨j, w⟩ he
  rw [h.arcsFrom] at he
  rw [(mem_coalescedFrom_iff.1 he).2]
  exact ExactWeight.proper_logSum fun v hv => hw i (j, v) (mem_entriesAt_iff.1 hv)

theorem logSum_walksAlong (ha : a.WellFormed) (i : Nat) (js : List Nat) :
    logSum ((a.walksAlong i js).map a.walkWeight) =
      logSum ((b.walksAlong i js).map b.walkWeight) := by
  have hbw := h.weighted_coalesced hw
  refine (ExactWeight.proper_logSum (proper_walksAlong ha hw i js)).eq_of_mass
    (ExactWeight.proper_logSum (proper_walksAlong h.wellFormed hbw i js)) ?_
  rw [mass_logSum_walksAlong ha hw, mass_logSum_walksAlong h.wellFormed hbw,
    h.massAlong_coalesced hw]

end Rebuilds

-- ---------------------------------------------------------------------------
-- What is left
-- ---------------------------------------------------------------------------

theorem WellFormed.ends_eq (ha : a.WellFormed) :
    a.links.map Link.ends =
      (a.arcs.map fun r => (r.src, r.dest)).map fun e => (.inner e.1, .inner e.2) := by
  rw [ha.links_eq, List.map_map, List.map_map]
  rfl

theorem WellFormed.mem_ends_iff (ha : a.WellFormed) {e : Endpoint × Endpoint} :
    e ∈ a.links.map Link.ends ↔ ∃ i j, j ∈ a.successors i ∧ e = (.inner i, .inner j) := by
  rw [ha.ends_eq]
  simp only [List.mem_map, exists_exists_and_eq_and, mem_successors_iff_mem_arcs]
  constructor
  · rintro ⟨⟨i, j, w⟩, hr, rfl⟩
    exact ⟨i, j, ⟨w, hr⟩, rfl⟩
  · rintro ⟨i, j, ⟨w, hr⟩, rfl⟩
    exact ⟨⟨i, j, w⟩, hr, rfl⟩

namespace Rebuilds
variable (h : a.Rebuilds b a.coalescedFrom)
include h

theorem single_coalesced : b.Single := by
  intro i
  rw [successors_eq, h.arcsFrom]
  exact a.nodup_coalescedFrom i

theorem mem_successors_coalesced_iff {i j : Nat} : j ∈ b.successors i ↔ j ∈ a.successors i := by
  rw [mem_successors_iff, mem_successors_iff, h.arcsFrom]
  constructor
  · rintro ⟨w, hw⟩
    exact exists_of_mem_tally hw
  · rintro ⟨w, hw⟩
    refine ⟨_, mem_coalescedFrom_iff.2 ⟨?_, rfl⟩⟩
    exact List.ne_nil_of_mem (mem_entriesAt_iff.2 hw)

theorem ends_coalesced (ha : a.WellFormed) :
    (b.links.map Link.ends).Nodup ∧ ∀ e, e ∈ b.links.map Link.ends ↔ e ∈ a.links.map Link.ends := by
  constructor
  · rw [h.wellFormed.ends_eq]
    refine h.single_coalesced.nodup_ends.map fun e f he => ?_
    simpa [Prod.ext_iff] using he
  · intro e
    rw [h.wellFormed.mem_ends_iff, ha.mem_ends_iff]
    simp only [h.mem_successors_coalesced_iff]

theorem coalescedFrom_coalesced (i : Nat) : b.coalescedFrom i = a.coalescedFrom i := by
  have single : ((b.arcsFrom i).map Prod.fst).Nodup := by
    rw [← successors_eq]
    exact h.single_coalesced i
  rw [coalescedFrom, toList_tally_of_nodup single ExactWeight.logAdd_impossible, h.arcsFrom]

end Rebuilds

/-- Coalescing keeps the states, leaves one link for each pair of linked states and keeps the
log-sum along every route. A second time it changes nothing. -/
theorem coalesce_routes (ha : a.Built) : ∃ b, a.coalesce = .ok b ∧
    b.states.toList.map (·.symbol) = a.states.toList.map (·.symbol) ∧
    ((b.links.map Link.ends).Nodup ∧ ∀ e, e ∈ b.links.map Link.ends ↔ e ∈ a.links.map Link.ends) ∧
    ((∀ l ∈ a.links, l.weight.Proper) → ∀ i js, ∃ vs ws, a.ListsAlong i js vs ∧
      b.ListsAlong i js ws ∧ logSum (vs.map a.walkWeight) = logSum (ws.map b.walkWeight)) ∧
    b.coalesce = .ok b := by
  have wf := ha.wellFormed
  obtain ⟨b, hb, h⟩ := coalesce_ok wf
  obtain ⟨c, hc, again⟩ := coalesce_ok h.wellFormed
  have same : c = b := h.eq_of_redraws again (redraws_of_coalesce hb) (redraws_of_coalesce hc)
    h.coalescedFrom_coalesced
  refine ⟨b, hb, h.symbols_eq, h.ends_coalesced wf, fun hw i js => ?_, same ▸ hc⟩
  exact ⟨_, _, listsAlong_walksAlong wf i js, listsAlong_walksAlong h.wellFormed i js,
    h.logSum_walksAlong (wf.weighted hw) wf i js⟩

end

-- ---------------------------------------------------------------------------
-- Links side by side
-- ---------------------------------------------------------------------------

def doubledArcs : List (Arc ExactWeight) :=
  [⟨0, 2, .finite 0⟩, ⟨0, 2, .impossible⟩, ⟨0, 2, .finite 1⟩, ⟨2, 2, .finite 1⟩,
    ⟨2, 1, .impossible⟩, ⟨2, 2, .finite 0⟩, ⟨2, 1, .finite 0⟩]

def doubled : Automaton ExactWeight := ((empty : Automaton ExactWeight).addState none
  (letter "a")).withArcs doubledArcs

theorem doubledArcs_proper : ∀ r ∈ doubledArcs, r.weight.Proper := by
  simp [doubledArcs, Proper]

theorem doubled_built : doubled.Built :=
  (Built.empty.addState none (letter "a")).withProperArcs (by decide) doubledArcs_proper

theorem coalesce_doubled : ∃ b, doubled.coalesce = .ok b ∧ b.coalesce = .ok b ∧
    (b.links.map Link.ends).Nodup ∧ ∃ vs ws, doubled.ListsAlong 0 [2, 2, 1] vs ∧
      b.ListsAlong 0 [2, 2, 1] ws ∧
      logSum (vs.map doubled.walkWeight) = logSum (ws.map b.walkWeight) := by
  obtain ⟨b, hb, -, ⟨once, -⟩, routes, again⟩ := coalesce_routes doubled_built
  exact ⟨b, hb, again, once,
    routes (doubled_built.wellFormed.forall_links doubledArcs_proper) 0 [2, 2, 1]⟩

example : (doubled.walksAlong 0 [2, 2, 1]).length = 12 := rfl

end Automaton

end LogAutomata
