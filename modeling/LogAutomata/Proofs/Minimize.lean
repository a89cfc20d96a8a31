import LogAutomata.Proofs.Cycle
import LogAutomata.Proofs.Weighted

/-!
# Minimization keeps the sequences

Without a reachable cycle minimization fails only where weights get out of range, which
exact ones do not. It makes no automaton larger and neither adds nor loses a sequence:
pushing and normalizing keep the links that count, and every round keeps what is spelled
from Init to Final.
-/

namespace LogAutomata.Automaton

-- ---------------------------------------------------------------------------
-- The stages
-- ---------------------------------------------------------------------------

section
variable {W : Type} [LogWeight W] {a x y : Automaton W} (ha : a.WellFormed) (hc : a.Acyclic)
include ha hc

theorem minimize_eq {n : Nat} (hx : a.pushWeights = .ok x) (hy : x.settle = .ok (n, y))
    (checked : Bool) : a.minimize checked = y.normalize := by
  have rest : (a.pushWeights >>= fun x => x.settle >>= fun s => s.2.normalize) = y.normalize := by
    rw [hx, ok_bind, hy, ok_bind]
  unfold minimize
  cases checked with
  | false => exact rest
  | true =>
    rw [if_pos rfl, checkAcyclic_ok ha hc]
    exact rest

theorem minimize_eq_error_of_pushWeights {e : Fault} (h : a.pushWeights = .error e)
    (checked : Bool) : a.minimize checked = .error e := by
  unfold minimize
  cases checked with
  | false =>
    rw [h]
    rfl
  | true =>
    rw [if_pos rfl, checkAcyclic_ok ha hc, h]
    rfl

variable [DefinedSums W]

/-- Minimization goes on with rounds from the pushed automaton on, of which the last goes from
`c` to `y` and takes no state away, and ends with the normalization of `y`. What holds of the
pushed automaton and is kept by rounds holds of `c` and `y`. -/
theorem minimize_stages (hx : a.pushWeights = .ok x) (push : a.Rebuilds x a.pushedFrom)
    {P : Automaton W → Prop} (start : P x)
    (round : ∀ c l t m b p q, P c → c.Mergeable → Round c l t m b p q → P b) (checked : Bool) :
    ∃ c l t m y p q, a.minimize checked = y.normalize ∧ (c.Mergeable ∧ P c) ∧
      Round c l t m y p q ∧ (y.Mergeable ∧ P y) ∧ c.size ≤ y.size := by
  have rx : x.Mergeable := ⟨push.wellFormed, push.retraces_pushed.acyclic hc⟩
  have next : ∀ c, c.Mergeable ∧ P c →
      ∃ b, c.mergeRound = .ok b ∧ (b.Mergeable ∧ P b) ∧ b.size ≤ c.size := by
    intro c ⟨rc, hPc⟩
    obtain ⟨l, t, m, b, p, q, hb, hr, rb⟩ := rc.round
    exact ⟨b, hb, ⟨rb, round c l t m b p q hPc rc hr⟩, hr.size_le rc.wellFormed⟩
  obtain ⟨n, y, hy, hs⟩ := settle_ok next ⟨rx, start⟩
  obtain ⟨c, hPc, hcy, hPy, hsize⟩ := hs.last_round next ⟨rx, start⟩
  obtain ⟨l, t, m, y', p, q, hy', hr, -⟩ := hPc.1.round
  obtain rfl : y' = y := Except.ok.inj (hy'.symm.trans hcy)
  exact ⟨c, l, t, m, y', p, q, minimize_eq ha hc hx hy checked, hPc, hr, hPy, hsize.ge⟩

omit ha hc [DefinedSums W] in
/-- The weights along some walk from Init leave these bounds, and minimization is refused for
what comes of it. -/
def Overruns (a : Automaton W) (P : W → Prop) (checked : Bool) : Prop :=
  (∃ ps i, a.IsWalk 0 ps i ∧ ¬P (a.walkWeight ps)) ∧
    ∃ src dest, a.minimize checked = .error (.undefinedWeight src dest)

/-- There is nothing but undefined weights on which minimization fails. -/
theorem minimize_cases {P : W → Prop} (bounded : Bounded P) (checked : Bool) :
    a.Overruns P checked ∨ ∃ c l t m y p q b, a.minimize checked = .ok b ∧ c.Mergeable ∧
      Round c l t m y p q ∧ y.Mergeable ∧ c.size ≤ y.size ∧ y.Rebuilds b y.normalizedFrom := by
  rcases pushWeights_cases ha hc with ⟨⟨ps, i, hp, lost⟩, src, dest, refused⟩ | ⟨x, hx, push⟩
  · refine .inl ⟨⟨ps, i, hp, fun hP => ?_⟩, src, dest,
      minimize_eq_error_of_pushWeights ha hc refused checked⟩
    cases (bounded.defined _ hP).symm.trans lost
  obtain ⟨c, l, t, m, y, p, q, hy, ⟨rc, -⟩, hr, ⟨ry, hyw⟩, hsize⟩ := minimize_stages ha hc hx push
    (P := fun c => (∀ ps i, a.IsWalk 0 ps i → P (a.walkWeight ps)) → c.Weighted P)
    (push.weighted_walks ha hc) (fun c l t m b p q hc _ hr hw => hr.weighted bounded.sums (hc hw))
    checked
  rcases normalize_cases ry.wellFormed with ⟨src, dest, refused⟩ | ⟨b, hb, norm⟩
  · refine .inl ⟨?_, src, dest, hy.trans refused⟩
    by_contra none
    push Not at none
    obtain ⟨b, hb, -⟩ := bounded.normalize_ok ry.wellFormed (hyw none)
    cases refused.symm.trans hb
  · exact .inr ⟨c, l, t, m, y, p, q, b, hy.trans hb, rc, hr, ry, hsize, norm⟩

end

/-- The last state of the chain is an infinite and an impossible weight away from Init. -/
theorem minimize_steep (checked : Bool) : ∃ e, steep.minimize checked = .error e := by
  cases h : steep.pushWeights with
  | error e =>
    exact ⟨e, minimize_eq_error_of_pushWeights steep_built.wellFormed steep_acyclic h checked⟩
  | ok x =>
    have none : steep.pushWeights.isOk = false := by decide +kernel
    rw [h] at none
    cases none

-- ---------------------------------------------------------------------------
-- Exact weights
-- ---------------------------------------------------------------------------

open ExactWeight (Proper)

theorem bounded_proper : Bounded Proper where
  defined _ h := h.defined
  sums := ExactWeight.sumClosed_proper
  shares _ h _ hw := (ExactWeight.proper_sub_normalizer h hw).defined

variable {a : Automaton ExactWeight}

theorem not_overruns (ha : a.Built) (hw : ∀ l ∈ a.links, l.weight.Proper) (checked : Bool) :
    ¬a.Overruns Proper checked := by
  rintro ⟨⟨ps, i, hp, outside⟩, -⟩
  exact outside ((ha.wellFormed.weighted hw).proper_walk ha.wellFormed hp)

theorem pushWeights_proper (ha : a.WellFormed) (hc : a.Acyclic) (hw : a.Weighted Proper) :
    ∃ x, a.pushWeights = .ok x ∧ a.Rebuilds x a.pushedFrom ∧ x.Weighted Proper := by
  obtain ⟨x, hx, h⟩ := pushWeights_ok ha hc fun ps i hp =>
    hw.walkWeight_defined ha hp
  exact ⟨x, hx, h, h.weighted_walks ha hc fun _ _ hp => hw.proper_walk ha hp⟩

theorem proper_normalizedFrom (hw : a.Weighted Proper) (i : Nat) :
    ∀ e ∈ a.normalizedFrom i, e.2.Proper := by
  intro e he
  obtain ⟨f, hf, rfl⟩ := List.mem_map.1 he
  exact ExactWeight.proper_sub_normalizer (hw.weights i) (List.mem_map_of_mem hf)

theorem normalize_proper (ha : a.WellFormed) (hw : a.Weighted Proper) :
    ∃ b, a.normalize = .ok b ∧ a.Rebuilds b a.normalizedFrom :=
  bounded_proper.normalize_ok ha hw

theorem Rebuilds.weighted_normalized {b : Automaton ExactWeight}
    (h : a.Rebuilds b a.normalizedFrom) (hw : a.Weighted Proper) : b.Weighted Proper := by
  intro i e he
  rw [h.arcsFrom] at he
  exact proper_normalizedFrom hw i e he

theorem Rebuilds.finite_normalized {b : Automaton ExactWeight}
    (h : a.Rebuilds b a.normalizedFrom) (hw : a.Weighted ExactWeight.Finite) :
    b.Weighted ExactWeight.Finite := by
  intro i e he
  rw [h.arcsFrom] at he
  obtain ⟨f, hf, rfl⟩ := List.mem_map.1 he
  obtain ⟨x, hx, -⟩ := ExactWeight.normalizer_eq (hw.proper.weights i)
  simp only [hx]
  exact (hw i f hf).add (w := .finite (-x)) trivial

theorem Rebuilds.shared {y b : Automaton ExactWeight} (h : y.Rebuilds b y.normalizedFrom)
    (hw : y.Weighted ExactWeight.Finite) {i : Nat} (hi : y.arcsFrom i ≠ []) :
    ((b.arcsFrom i).map fun e => e.2.mass).sum = 1 := by
  obtain ⟨e, he⟩ := List.exists_mem_of_ne_nil _ hi
  have pos : 0 < (((y.arcsFrom i).map Prod.snd).map ExactWeight.mass).sum :=
    ExactWeight.sum_mass_pos (List.mem_map_of_mem he) (hw i e he)
  calc ((b.arcsFrom i).map fun e => e.2.mass).sum
      = (((b.arcsFrom i).map Prod.snd).map ExactWeight.mass).sum := by
        rw [List.map_map]
        rfl
    _ = 1 := by
        rw [h.arcsFrom, map_snd_normalizedFrom, ExactWeight.sum_mass_normalized (hw.proper.weights i),
          div_self pos.ne']

structure Roundable (a : Automaton ExactWeight) : Prop extends Mergeable a where
  proper : a.Weighted Proper

theorem Roundable.round (h : a.Roundable) :
    ∃ l t m b p q, a.mergeRound = .ok b ∧ Round a l t m b p q ∧ b.Roundable := by
  obtain ⟨l, t, m, b, p, q, hb, hr, rb⟩ := h.toMergeable.round
  exact ⟨l, t, m, b, p, q, hb, hr, rb, hr.weighted ExactWeight.sumClosed_proper h.proper⟩

theorem minimize_ok (ha : a.WellFormed) (hc : a.Acyclic) (hw : a.Weighted Proper)
    {P : Automaton ExactWeight → Prop}
    (start : ∀ x, a.Rebuilds x a.pushedFrom → x.Roundable → P x)
    (round : ∀ c l t m b p q, P c → c.Roundable → Round c l t m b p q → P b) (checked : Bool) :
    ∃ c l t m y p q b, a.minimize checked = .ok b ∧ (c.Roundable ∧ P c) ∧ Round c l t m y p q ∧
      (y.Roundable ∧ P y) ∧ c.size ≤ y.size ∧ y.Rebuilds b y.normalizedFrom := by
  obtain ⟨x, hx, push, hxw⟩ := pushWeights_proper ha hc hw
  have rx : x.Roundable := ⟨⟨push.wellFormed, push.retraces_pushed.acyclic hc⟩, hxw⟩
  obtain ⟨c, l, t, m, y, p, q, hy, ⟨rc, hcw, hPc⟩, hr, ⟨ry, hyw, hPy⟩, hsize⟩ :=
    minimize_stages ha hc hx push (P := fun c => c.Weighted Proper ∧ P c)
      ⟨hxw, start x push rx⟩ (fun c l t m b p q ⟨hcw, hPc⟩ rc hr =>
        ⟨hr.weighted ExactWeight.sumClosed_proper hcw, round c l t m b p q hPc ⟨rc, hcw⟩ hr⟩)
      checked
  obtain ⟨b, hb, norm⟩ := normalize_proper ry.wellFormed hyw
  exact ⟨c, l, t, m, y, p, q, b, hy.trans hb, ⟨⟨rc, hcw⟩, hPc⟩, hr, ⟨⟨ry, hyw⟩, hPy⟩, hsize, norm⟩

-- ---------------------------------------------------------------------------
-- A diamond
-- ---------------------------------------------------------------------------

def sides : Automaton ExactWeight :=
  (empty.addState none ⟨none, some (.text "a")⟩).addState none ⟨none, some (.text "a")⟩

def diamondArcs (v w : ExactWeight) : List (Arc ExactWeight) :=
  [⟨0, 2, v⟩, ⟨2, 1, v⟩, ⟨0, 3, w⟩, ⟨3, 1, w⟩]

def diamond (v w : ExactWeight) : Automaton ExactWeight := sides.withArcs (diamondArcs v w)

section
variable {v w : ExactWeight}

theorem diamondArcs_induction {P : Arc ExactWeight → Prop} (h02 : P ⟨0, 2, v⟩)
    (h21 : P ⟨2, 1, v⟩) (h03 : P ⟨0, 3, w⟩) (h31 : P ⟨3, 1, w⟩) : ∀ r ∈ diamondArcs v w, P r := by
  intro r hr
  simp only [diamondArcs, List.mem_cons, List.not_mem_nil, or_false] at hr
  rcases hr with rfl | rfl | rfl | rfl
  · exact h02
  · exact h21
  · exact h03
  · exact h31

variable (hv : isUndefined v = false) (hw : isUndefined w = false)
include hv hw

theorem diamondArcs_fit : ∀ r ∈ diamondArcs v w, sides.Fits r := by
  have in0 : 0 < sides.size := by decide
  have in1 : 1 < sides.size := by decide
  have in2 : 2 < sides.size := by decide
  have in3 : 3 < sides.size := by decide
  exact diamondArcs_induction ⟨in0, in2, hv⟩ ⟨in2, in1, hv⟩ ⟨in0, in3, hw⟩ ⟨in3, in1, hw⟩

theorem diamond_built : (diamond v w).Built :=
  Built.withArcs (.addState _ _ (.addState _ _ .empty)) (diamondArcs_fit hv hw)

theorem arcs_diamond : (diamond v w).arcs.Perm (diamondArcs v w) := by
  have none : sides.arcs = [] := arcs_eq_nil fun i => by simp [sides]
  have := arcs_withArcs_perm fun r hr =>
    ⟨(diamondArcs_fit hv hw r hr).src, (diamondArcs_fit hv hw r hr).dest⟩
  rwa [none, List.nil_append] at this

theorem diamond_acyclic : (diamond v w).Acyclic := by
  let rank (i : Nat) : Nat := if i = 0 then 0 else if i = 1 then 2 else 1
  have up : ∀ r ∈ diamondArcs v w, rank r.src < rank r.dest :=
    diamondArcs_induction Nat.zero_lt_one Nat.one_lt_two Nat.zero_lt_one Nat.one_lt_two
  exact acyclic_of_arcs rank fun r hr => up r ((arcs_diamond hv hw).mem_iff.1 hr)

theorem diamond_weights {P : ExactWeight → Prop} (pv : P v) (pw : P w) :
    ∀ l ∈ (diamond v w).links, P l.weight := by
  intro l hl
  rw [(diamond_built hv hw).wellFormed.links_eq] at hl
  obtain ⟨r, hr, rfl⟩ := List.mem_map.1 hl
  exact diamondArcs_induction (P := fun r => P r.weight) pv pv pw pw r
    ((arcs_diamond hv hw).mem_iff.1 hr)

theorem diamond_reaches : (diamond v w).Reaches 0 1 := by
  have link : ∀ r ∈ diamondArcs v w, r.dest ∈ (diamond v w).successors r.src := fun r hr =>
    mem_successors_iff.2 ⟨_, mem_arcs_iff.1 ((arcs_diamond hv hw).mem_iff.2 hr)⟩
  have first : ⟨0, 2, v⟩ ∈ diamondArcs v w := List.mem_cons_self
  have second : ⟨2, 1, v⟩ ∈ diamondArcs v w := List.mem_cons_of_mem _ List.mem_cons_self
  exact (reaches_of_mem_successors (link _ first)).step (link _ second)

end

theorem minimize_spells_iff (ha : a.Built) (hc : a.Acyclic)
    (hw : ∀ l ∈ a.links, l.weight.Proper) (checked : Bool) :
    ∃ b, a.minimize checked = .ok b ∧ b.size ≤ a.size ∧ ∀ s, b.Spells s ↔ a.Spells s := by
  have wf := ha.wellFormed
  obtain ⟨c, l, t, m, y, p, q, b, hb, -, -, ⟨-, hsize, hspells⟩, -, hnorm⟩ :=
    minimize_ok wf hc (wf.weighted hw)
      (P := fun c => c.size ≤ a.size ∧ ∀ s, c.Spells s ↔ a.Spells s)
      (fun x hpush _ => ⟨Nat.le_of_eq hpush.size_eq, hpush.retraces_pushed.spells_iff⟩)
      (fun c l t m b p q ⟨hsize, hspells⟩ rc hr => ⟨Nat.le_trans (hr.size_le rc.wellFormed) hsize,
        fun s => (hr.spells_iff rc.acyclic s).trans (hspells s)⟩) checked
  refine ⟨b, hb, ?_, fun s => ?_⟩
  · rw [hnorm.size_eq]
    exact hsize
  · rw [hnorm.retraces_normalized.spells_iff, hspells]

theorem minimize_diamond_spells_iff : ∃ b, (diamond (.finite 0) .impossible).minimize true = .ok b ∧
    b.size ≤ (diamond (.finite 0) .impossible).size ∧
    ∀ s, b.Spells s ↔ (diamond (.finite 0) .impossible).Spells s :=
  minimize_spells_iff (diamond_built rfl rfl) (diamond_acyclic rfl rfl)
    (diamond_weights (v := .finite 0) (w := .impossible) rfl rfl trivial trivial) true

end LogAutomata.Automaton
