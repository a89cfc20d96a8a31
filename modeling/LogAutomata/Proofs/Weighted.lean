import LogAutomata.Proofs.Mass
import LogAutomata.Proofs.Normalize
import LogAutomata.Proofs.PushWeights
import LogAutomata.Proofs.Rounds

/-!
# What is kept of all weights

Weights are only ever added, log-summed and divided by log-sums, so a property
of all weights that these respect goes through the whole of minimization.
-/

namespace LogAutomata.Automaton

variable {W : Type}

def Weighted (P : W → Prop) (a : Automaton W) : Prop := ∀ i, ∀ e ∈ a.arcsFrom i, P e.2

theorem Weighted.weights {P : W → Prop} {a : Automaton W} (hw : a.Weighted P) (i : Nat) :
    ∀ w ∈ (a.arcsFrom i).map Prod.snd, P w := List.forall_mem_map.2 (hw i)

theorem Transposes.weighted {P : W → Prop} {a b : Automaton W} (h : a.Transposes b)
    (hw : a.Weighted P) : b.Weighted P := by
  rintro i ⟨j, w⟩ he
  refine hw (mirror j) (mirror i, w) ((h.mem_arcsFrom_iff).1 ?_)
  rwa [mirror_mirror, mirror_mirror]

variable [LogWeight W]

theorem WellFormed.weighted {P : W → Prop} {a : Automaton W} (ha : a.WellFormed)
    (h : ∀ l ∈ a.links, P l.weight) : a.Weighted P := by
  rintro i ⟨j, w⟩ he
  refine h (Arc.toLink ⟨i, j, w⟩) ?_
  rw [ha.links_eq]
  exact List.mem_map_of_mem (mem_arcs_iff.2 he)

def SumClosed (P : W → Prop) : Prop := ∀ ws : List W, ws ≠ [] → (∀ w ∈ ws, P w) → P (logSum ws)

theorem Merges.weighted {P : W → Prop} (closed : SumClosed P) {a b : Automaton W} {q : Nat → Nat}
    (h : a.Merges b q) (hw : a.Weighted P) : b.Weighted P := by
  rintro k ⟨m, w⟩ he
  obtain ⟨ws, rfl, hws⟩ := h.weight k m w he
  refine closed ws ?_ fun v hv => ?_
  · rintro rfl
    obtain ⟨i, j, -, hj, rfl, rfl⟩ := (h.mem_successors_iff k m).1
      (Automaton.mem_successors_iff.2 ⟨_, he⟩)
    obtain ⟨v, hv⟩ := Automaton.mem_successors_iff.1 hj
    have hm : (⟨i, j, v⟩ : Arc W) ∈ a.arcs.filter fun r => q r.src = q i ∧ q r.dest = q j :=
      List.mem_filter.2 ⟨mem_arcs_iff.2 hv, decide_eq_true ⟨rfl, rfl⟩⟩
    rw [List.map_eq_nil_iff.1 (List.nil_perm.1 hws)] at hm
    cases hm
  · obtain ⟨r, hr, rfl⟩ := List.mem_map.1 (hws.mem_iff.1 hv)
    exact hw r.src _ (mem_arcs_iff.1 (List.mem_of_mem_filter hr))

theorem Round.weighted {P : W → Prop} (closed : SumClosed P) {a l t m b : Automaton W}
    {p q : Nat → Nat} (h : Round a l t m b p q) (hw : a.Weighted P) : b.Weighted P :=
  h.back.weighted (h.right.weighted closed (h.turn.weighted (h.left.weighted closed hw)))

theorem walkWeight_of_linkAt {P : W → Prop} (zero : P 0) (add : ∀ v w, P v → P w → P (v + w))
    {a : Automaton W} (hw : ∀ p l, a.linkAt p = some l → P l.weight) {i j : Nat} {ps : List Place}
    (h : a.IsWalk i ps j) : P (a.walkWeight ps) := by
  induction ps using List.reverseRecOn generalizing j with
  | nil => exact zero
  | append_singleton ps p ih =>
    obtain ⟨h, hp⟩ := isWalk_concat_iff.1 h
    obtain ⟨l, hl, -⟩ := Option.bind_eq_some_iff.1 hp
    rw [walkWeight_concat_linkAt hl]
    exact add _ _ (ih h) (hw p l hl)

theorem Weighted.walkWeight {P : W → Prop} (zero : P 0) (add : ∀ v w, P v → P w → P (v + w))
    {a : Automaton W} (ha : a.WellFormed) (hw : a.Weighted P) {i j : Nat} {ps : List Place}
    (h : a.IsWalk i ps j) : P (a.walkWeight ps) := by
  refine walkWeight_of_linkAt zero add (fun p l hl => ?_) h
  rw [ha.linkAt_eq] at hl
  obtain ⟨e, he, rfl⟩ := Option.map_eq_some_iff.1 hl
  exact hw p.state e (List.mem_of_getElem? he)

theorem Weighted.offsetAt {P : W → Prop} (zero : P 0) (add : ∀ v w, P v → P w → P (v + w))
    {a : Automaton W} (ha : a.WellFormed) (hc : a.Acyclic) (hw : a.Weighted P) {i : Nat}
    (hi : a.Reaches 0 i) : P (a.offsetAt i) := by
  obtain ⟨-, ps, h, he⟩ := offsetAt_eq ha hc hi
  rw [he]
  exact hw.walkWeight zero add ha h

section
variable {P : W → Prop} {a x : Automaton W} (ha : a.WellFormed) (hc : a.Acyclic)
  (h : a.Rebuilds x a.pushedFrom)
include ha hc h

theorem Rebuilds.weighted_walks (hw : ∀ ps i, a.IsWalk 0 ps i → P (a.walkWeight ps)) :
    x.Weighted P := by
  intro i e he
  rw [h.arcsFrom] at he
  obtain ⟨ps, hp, weight⟩ := exists_walk_of_mem_pushedFrom ha hc he
  exact weight ▸ hw ps e.1 hp

theorem Rebuilds.weighted_pushed (zero : P 0) (add : ∀ v w, P v → P w → P (v + w))
    (hw : a.Weighted P) : x.Weighted P :=
  h.weighted_walks ha hc fun _ _ hp => hw.walkWeight zero add ha hp

end

/-- Weights that log-sums do not leave and that normalization does not make undefined. -/
structure Bounded (P : W → Prop) : Prop where
  defined : ∀ w, P w → isUndefined w = false
  sums : SumClosed P
  shares : ∀ ws : List W, (∀ w ∈ ws, P w) → ∀ w ∈ ws, isUndefined (w - normalizer ws) = false

theorem Bounded.normalize_ok {P : W → Prop} (bounded : Bounded P) {a : Automaton W}
    (ha : a.WellFormed) (hw : a.Weighted P) :
    ∃ b, a.normalize = .ok b ∧ a.Rebuilds b a.normalizedFrom := by
  refine Automaton.normalize_ok ha fun i e he => ?_
  obtain ⟨f, hf, rfl⟩ := List.mem_map.1 he
  exact bounded.shares _ (hw.weights i) _ (List.mem_map_of_mem hf)

-- ---------------------------------------------------------------------------
-- Automata from arcs
-- ---------------------------------------------------------------------------

def letter (s : String) : Symbol := ⟨none, some (.text s)⟩

section
omit [LogWeight W]
variable {a : Automaton W}

/-- A rank that goes up along the links from Init on, and is zero where Init does not lead. -/
theorem acyclic_of_reached_arcs (rank : Nat → Nat) (init : 0 < rank 0)
    (up : ∀ r ∈ a.arcs, 0 < rank r.src → rank r.src < rank r.dest) : a.Acyclic := by
  have rises : ∀ {i js k}, a.Path i js k → 0 < rank i → rank i + js.length ≤ rank k := by
    intro i js k h hi
    induction h with
    | nil => simp
    | @cons i j k js hj _ ih =>
      obtain ⟨w, hw⟩ := mem_successors_iff_mem_arcs.1 hj
      have link : rank i < rank j := up _ hw hi
      have rest : rank j + js.length ≤ rank k := ih (Nat.zero_lt_of_lt link)
      simp only [List.length_cons]
      omega
  intro i hi hc
  obtain ⟨js, hp⟩ := reaches_iff_path.1 hi
  obtain ⟨j, hj, hr⟩ := onCycle_iff.1 hc
  obtain ⟨ks, hk⟩ := reaches_iff_path.1 hr
  have pos := rises hp init
  have := rises (.cons hj hk) (by omega)
  simp at this

theorem acyclic_of_arcs (rank : Nat → Nat) (h : ∀ r ∈ a.arcs, rank r.src < rank r.dest) :
    a.Acyclic :=
  acyclic_of_reached_arcs (fun i => rank i + 1) (Nat.succ_pos _) fun r hr _ =>
    Nat.succ_lt_succ (h r hr)

end

section
variable {a : Automaton ExactWeight}

theorem Built.withProperArcs (ha : a.Built) {rs : List (Arc ExactWeight)}
    (ends : ∀ r ∈ rs, r.src < a.size ∧ r.dest < a.size) (proper : ∀ r ∈ rs, r.weight.Proper) :
    (a.withArcs rs).Built :=
  Built.withArcs ha fun r hr => ⟨(ends r hr).1, (ends r hr).2, (proper r hr).defined⟩

theorem WellFormed.forall_links (ha : a.WellFormed) {P : ExactWeight → Prop}
    (h : ∀ r ∈ a.arcs, P r.weight) : ∀ l ∈ a.links, P l.weight := by
  rw [ha.links_eq]
  exact List.forall_mem_map.2 h

end

-- ---------------------------------------------------------------------------
-- A sum out of range
-- ---------------------------------------------------------------------------

def steepArcs : List (Arc Float) := [⟨0, 2, 1.7e308⟩, ⟨2, 3, 1.7e308⟩, ⟨3, 1, impossible⟩]

/-- A chain through two nil states. The first two weights are finite and their sum is not, and
an infinite weight and an impossible one have no sum. -/
def steep : Automaton Float :=
  ((empty.addState none .nil).addState none .nil).withArcs steepArcs

theorem steep_built : steep.Built := by
  have inside : ∀ r ∈ steepArcs, r.src < 4 ∧ r.dest < 4 := by decide +kernel
  have defined : ∀ r ∈ steepArcs, isUndefined r.weight = false := by decide +kernel
  exact Built.withArcs ((Built.empty.addState none .nil).addState none .nil) fun r hr =>
    ⟨(inside r hr).1, (inside r hr).2, defined r hr⟩

theorem steep_acyclic : steep.Acyclic :=
  acyclic_of_arcs (fun i => [0, 3, 1, 2].getD i 0) (by decide +kernel)

theorem steep_weights :
    ∀ l ∈ steep.links, l.weight.isFinite = true ∨ isImpossible l.weight = true := by
  decide +kernel

theorem steep_walk : steep.IsWalk 0 [⟨0, 0⟩, ⟨2, 0⟩, ⟨3, 0⟩] 1 :=
  .cons (j := 2) rfl (.cons (j := 3) rfl (.cons (j := 1) rfl (.nil 1)))

theorem steep_walkWeight :
    isUndefined (steep.walkWeight [⟨0, 0⟩, ⟨2, 0⟩, ⟨3, 0⟩]) = true := by
  decide +kernel

end LogAutomata.Automaton

namespace LogAutomata.ExactWeight

theorem sumClosed_proper : Automaton.SumClosed Proper := fun _ _ h => proper_logSum h

theorem sumClosed_finite : Automaton.SumClosed Finite := fun _ hne h => finite_logSum h hne

theorem proper_zero : (0 : ExactWeight).Proper := trivial

theorem finite_zero : (0 : ExactWeight).Finite := trivial

end LogAutomata.ExactWeight

namespace LogAutomata.Automaton

variable {a : Automaton ExactWeight}

theorem Weighted.proper (hw : a.Weighted ExactWeight.Finite) : a.Weighted ExactWeight.Proper :=
  fun i e he => (hw i e he).proper

section
variable (hw : a.Weighted ExactWeight.Proper) (ha : a.WellFormed) {i j : Nat} {ps : List Place}
  (h : a.IsWalk i ps j)
include hw ha h

theorem Weighted.proper_walk : (a.walkWeight ps).Proper :=
  hw.walkWeight ExactWeight.proper_zero (fun _ _ => ExactWeight.Proper.add) ha h

theorem Weighted.walkWeight_defined : isUndefined (a.walkWeight ps) = false :=
  (hw.proper_walk ha h).defined

end

end LogAutomata.Automaton
