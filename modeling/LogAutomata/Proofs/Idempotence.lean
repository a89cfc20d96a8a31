import LogAutomata.Proofs.Offsets
import LogAutomata.Proofs.Reduced

/-!
# Minimizing a minimized automaton

The rounds stop when neither merge has anything left to do. Pushing keeps states
and links, so the first round of a second minimization is the last one and only
renumbers states. That much does not depend on the weights. If they are exact, pushing
shifts all links of a state by one offset, and normalization takes it off again.
-/

namespace LogAutomata.ExactWeight

theorem logSum_singleton {w : ExactWeight} (h : w.Proper) : logSum [w] = w := by
  have hw : ∀ v ∈ [w], v.Proper := fun v hv => List.mem_singleton.1 hv ▸ h
  refine (proper_logSum hw).eq_of_mass h ?_
  rw [mass_logSum hw]
  simp

theorem normalizer_perm {vs ws : List ExactWeight} (h : ∀ w ∈ ws, w.Proper) (hp : vs.Perm ws) :
    normalizer vs = normalizer ws := by
  have hvs : ∀ v ∈ vs, v.Proper := fun v hv => h v (hp.mem_iff.1 hv)
  have : logSum vs = logSum ws := by
    refine (proper_logSum hvs).eq_of_mass (proper_logSum h) ?_
    rw [mass_logSum hvs, mass_logSum h]
    exact (hp.map mass).sum_eq
  rw [normalizer, normalizer, this]

end LogAutomata.ExactWeight

namespace LogAutomata.Automaton

section
variable {W : Type} [LogWeight W] {a b c d l m t x x' y z : Automaton W} {p q : Nat → Nat}
  {checked : Bool}

-- ---------------------------------------------------------------------------
-- What is left alone
-- ---------------------------------------------------------------------------

theorem Reduced.of_same (h : y.Reduced) (wy : y.WellFormed) (size_eq : x.size = y.size)
    (symbolAt : ∀ i, x.symbolAt i = y.symbolAt i)
    (successors : ∀ i j, j ∈ y.successors i ↔ j ∈ x.successors i) (single : x.Single) :
    x.Reduced :=
  h.of_renaming wy.two_le_size (r := .ofSizeEq size_eq symbolAt) (fun i j _ _ => successors i j)
    single

theorem Reduced.rebuilt {rows : Nat → List (Nat × W)} (h : y.Reduced) (wy : y.WellFormed)
    (hb : y.Rebuilds x rows) (same : ∀ i, x.successors i = y.successors i) : x.Reduced := by
  refine h.of_same wy hb.size_eq hb.symbolAt (fun i j => ?_) fun i => ?_
  · rw [same]
  · rw [same]
    exact h.single i

/-- What a round ends with is reduced when it is turned around: it has the links of the
second merge then. -/
theorem Round.reduced_turned (h : Round d l t m y p q) (hc : d.Acyclic)
    (size_eq : x.size = y.size) (symbolAt : ∀ i, x.symbolAt i = y.symbolAt i)
    (same : ∀ i, x.successors i = y.successors i) (single : x.Single)
    (turned : x.Transposes x') (wx' : x'.WellFormed) : x'.Reduced := by
  refine (h.reduced_right hc).of_same h.wellFormed_right ?_ (fun i => ?_) (fun i j => ?_)
    (turned.single single)
  · rw [turned.size_eq, size_eq, h.back.size_eq]
  · rcases i with _ | _ | i
    · rw [wx'.symbolAt_zero, h.wellFormed_right.symbolAt_zero]
    · rw [wx'.symbolAt_one, h.wellFormed_right.symbolAt_one]
    · have h2 : 2 ≤ i + 2 := Nat.le_add_left 2 i
      change x'.symbolAt (i + 2) = m.symbolAt (i + 2)
      rw [turned.symbolAt _ h2, symbolAt, h.back.symbolAt _ h2]
  · rw [h.back.opposite.symm, turned.opposite, same]

theorem Reduced.successors_pushed (h : a.Reduced) (hp : a.Rebuilds x a.pushedFrom) (i : Nat) :
    x.successors i = a.successors i := by
  by_cases hi : a.Reaches 0 i
  · exact hp.retraces_pushed.successors i hi
  · have hnil : a.successors i = [] := by
      by_cases h1 : i = 1
      · rw [h1, h.final]
      · refine List.eq_nil_iff_forall_not_mem.2 fun j hj => hi ?_
        exact h.reached i (lt_size_of_mem_successors hj).1 h1
    rw [successors_eq, hp.arcsFrom, pushedFrom_of_not_reaches hi, hnil]
    rfl

/-- An automaton that both merges leave alone is settled after one round. -/
theorem Mergeable.settle_reduced [DefinedSums W] (rx : x.Mergeable) (hx : x.Reduced)
    (ht : x.Mirrors x') (wt : x'.WellFormed) (hx' : x'.Reduced) :
    ∃ z, x.settle = .ok (1, z) ∧ z.Mergeable ∧ z.Single ∧ ∃ r : Renaming x z, r.MapsLinks ∧
      ∀ {P : W → Prop}, SumClosed P → (∀ w, P w → logSum [w] = w) → x.Weighted P →
        r.MapsArcs := by
  obtain ⟨l, t, m, z, p, q, hz, hr, rz⟩ := rx.round
  obtain ⟨r, links, arcs⟩ := hr.exists_renaming rx.wellFormed rx.acyclic hx ht wt hx'
  refine ⟨z, ?_, rz, hr.back.single hr.right.nodup, r, links, fun closed unit hw =>
    arcs (fun i e he => unit _ (hw i e he)) fun i e he => unit _ ?_⟩
  · rw [settle, hz, ok_bind, if_neg (by rw [r.size_eq]; exact Nat.lt_irrefl _)]
    rfl
  · exact hr.turn.weighted (hr.left.weighted closed hw) i e he

-- ---------------------------------------------------------------------------
-- The second minimization
-- ---------------------------------------------------------------------------

/-- From `b` pushing makes `x`, of which the rounds only change the positions, and
normalization makes `d` of what they leave. -/
structure Reruns (b x z d : Automaton W) (r : Renaming x z) : Prop where
  push : b.Rebuilds x b.pushedFrom
  norm : z.Rebuilds d z.normalizedFrom
  same : ∀ i, x.successors i = b.successors i
  single : x.Single
  single_renamed : z.Single
  links : r.MapsLinks
  arcs : ∀ {P : W → Prop}, SumClosed P → (∀ w, P w → logSum [w] = w) → x.Weighted P → r.MapsArcs

/-- The rounds have ended, so minimizing what they have left is a rerun. -/
theorem Round.exists_reruns [DefinedSums W] (h : Round c l t m y p q) (rc : c.Mergeable)
    (hsize : c.size ≤ y.size) (norm : y.Rebuilds b y.normalizedFrom)
    (hd : b.minimize checked = .ok d) : ∃ x z, ∃ r : Renaming x z, b.Reruns x z d r := by
  have redb : b.Reduced := (h.reduced rc.wellFormed rc.acyclic hsize).rebuilt h.wellFormed norm
    norm.successors_normalized
  have cb := norm.retraces_normalized.acyclic h.acyclic
  rcases pushWeights_cases norm.wellFormed cb with ⟨-, src, dest, refused⟩ | ⟨x, hx, push⟩
  · cases hd.symm.trans (minimize_eq_error_of_pushWeights norm.wellFormed cb refused checked)
  have same := redb.successors_pushed push
  have redx : x.Reduced := redb.rebuilt norm.wellFormed push same
  have rx : x.Mergeable := ⟨push.wellFormed, push.retraces_pushed.acyclic cb⟩
  obtain ⟨x', -, wx', turned⟩ := transpose_ok rx.wellFormed
  have redx' : x'.Reduced := h.reduced_turned rc.acyclic (push.size_eq.trans norm.size_eq)
    (fun i => (push.symbolAt i).trans (norm.symbolAt i))
    (fun i => (same i).trans (norm.successors_normalized i)) redx.single turned wx'
  obtain ⟨z, hz, rz, single, r, links, arcs⟩ := rx.settle_reduced redx turned.mirrors wx' redx'
  have hn : z.normalize = .ok d := (minimize_eq norm.wellFormed cb hx hz checked).symm.trans hd
  exact ⟨x, z, r, push, rebuilds_of_normalize rz.wellFormed hn, same, redx.single, single, links,
    arcs⟩

namespace Reruns

variable {r : Renaming x z} (h : b.Reruns x z d r)

def backward : Renaming d b :=
  (Renaming.ofSizeEq h.norm.size_eq.symm fun i => (h.norm.symbolAt i).symm).trans
    ((r.symm h.push.wellFormed.two_le_size).trans
      (.ofSizeEq h.push.size_eq.symm fun i => (h.push.symbolAt i).symm))

theorem keepsLinks : h.backward.KeepsLinks := by
  intro i hi
  have perm := (h.links.symm h.push.wellFormed.two_le_size).keepsLinks h.single_renamed h.single i
    (h.norm.size_eq ▸ hi)
  have hb : (b.arcsFrom (r.back i)).map Prod.fst = (x.arcsFrom (r.back i)).map Prod.fst := by
    rw [← successors_eq, ← successors_eq, h.same]
  change List.Perm _ ((b.arcsFrom (r.back i)).map Prod.fst)
  rw [hb, h.norm.arcsFrom, normalizedFrom, List.map_map]
  exact perm

end Reruns

end

-- ---------------------------------------------------------------------------
-- Exact weights
-- ---------------------------------------------------------------------------

open ExactWeight (Proper)

variable {a : Automaton ExactWeight}

theorem Rebuilds.renormalized {b x : Automaton ExactWeight} (h : b.Rebuilds x b.pushedFrom)
    (wb : b.WellFormed) (cb : b.Acyclic) (same : ∀ i, x.successors i = b.successors i)
    (hw : b.Weighted ExactWeight.Finite)
    (hs : ∀ i, b.arcsFrom i ≠ [] → ((b.arcsFrom i).map fun e => e.2.mass).sum = 1) (i : Nat) :
    x.normalizedFrom i = b.arcsFrom i := by
  by_cases hnil : b.arcsFrom i = []
  · have := same i
    rw [successors_eq, successors_eq, hnil, List.map_nil, List.map_eq_nil_iff] at this
    rw [normalizedFrom, this, hnil]
    rfl
  · have hi : b.Reaches 0 i := by
      by_contra hr
      have := same i
      rw [successors_eq, successors_eq, h.arcsFrom, pushedFrom_of_not_reaches hr,
        List.map_nil] at this
      exact hnil (List.map_eq_nil_iff.1 this.symm)
    have ho : (b.offsetAt i).Finite :=
      hw.offsetAt ExactWeight.finite_zero (fun _ _ => ExactWeight.Finite.add) wb cb hi
    have total : (((b.arcsFrom i).map Prod.snd).map ExactWeight.mass).sum = 1 := by
      rw [List.map_map]
      exact hs i hnil
    rw [h.normalizedFrom_pushed hw.proper hi ho, normalizedFrom]
    conv_rhs => rw [← List.map_id (b.arcsFrom i)]
    refine List.map_congr_left fun e he => Prod.ext rfl ?_
    exact ExactWeight.sub_normalizer_of_sum_eq_one (hw.proper.weights i) total
      (List.mem_map_of_mem he)

theorem Reruns.keepsArcs {b x z d : Automaton ExactWeight} {r : Renaming x z}
    (h : b.Reruns x z d r) (hw : x.Weighted Proper)
    (same : ∀ i, x.normalizedFrom i = b.arcsFrom i) : h.backward.KeepsArcs := by
  have wx := h.push.wellFormed.two_le_size
  have mapped := h.arcs ExactWeight.sumClosed_proper (fun _ => ExactWeight.logSum_singleton) hw
  intro i hi
  have perm := (mapped.symm wx).keepsArcs h.single_renamed h.single i (h.norm.size_eq ▸ hi)
  have hn : normalizer ((z.arcsFrom i).map Prod.snd) =
      normalizer ((x.arcsFrom (r.back i)).map Prod.snd) := by
    refine ExactWeight.normalizer_perm (fun w hw' => ?_) ?_
    · obtain ⟨e, he, rfl⟩ := List.mem_map.1 hw'
      exact hw _ e he
    · have := perm.map Prod.snd
      rwa [List.map_map] at this
  change List.Perm _ (b.arcsFrom (r.back i))
  rw [← same, h.norm.arcsFrom, normalizedFrom, normalizedFrom, hn, List.map_map]
  have := perm.map fun e => (e.1, e.2 - normalizer ((x.arcsFrom (r.back i)).map Prod.snd))
  rwa [List.map_map] at this

theorem minimize_again {W : Type} [LogWeight W] [DefinedSums W] {P : W → Prop}
    (bounded : Bounded P) {a : Automaton W} (ha : a.WellFormed) (hc : a.Acyclic)
    (checked checked' : Bool) : a.Overruns P checked ∨ ∃ b, a.minimize checked = .ok b ∧
      (b.Overruns P checked' ∨ ∃ c, b.minimize checked' = .ok c ∧
        ∃ r : Renaming c b, r.KeepsLinks) := by
  rcases minimize_cases ha hc bounded checked with
    overruns | ⟨d, l, t, m, y, p, q, b, hb, rd, last, ry, hsize, norm⟩
  · exact .inl overruns
  refine .inr ⟨b, hb, ?_⟩
  have cb := norm.retraces_normalized.acyclic ry.acyclic
  rcases minimize_cases norm.wellFormed cb bounded checked' with
    overruns | ⟨-, -, -, -, -, -, -, c, hc', -⟩
  · exact .inl overruns
  · obtain ⟨x, z, r, rerun⟩ := last.exists_reruns rd hsize norm hc'
    exact .inr ⟨c, hc', rerun.backward, rerun.keepsLinks⟩

theorem minimize_again_proper (ha : a.WellFormed) (hc : a.Acyclic) (hw : a.Weighted Proper)
    (checked checked' : Bool) : ∃ b c, a.minimize checked = .ok b ∧
      b.minimize checked' = .ok c ∧ ∃ r : Renaming c b, r.KeepsLinks ∧
        (a.Weighted ExactWeight.Finite → r.KeepsArcs) := by
  obtain ⟨d, l, t, m, y, p, q, b, hb, ⟨rd, -⟩, last, ⟨ry, hyf⟩, hsize, norm⟩ :=
    minimize_ok ha hc hw (P := fun d => a.Weighted ExactWeight.Finite →
        d.Weighted ExactWeight.Finite)
      (fun x push _ hf => push.weighted_pushed ha hc ExactWeight.finite_zero
        (fun _ _ => ExactWeight.Finite.add) hf)
      (fun d l t m b p q hd _ hr hf => hr.weighted ExactWeight.sumClosed_finite (hd hf)) checked
  have cb := norm.retraces_normalized.acyclic ry.acyclic
  have hbw := norm.weighted_normalized ry.proper
  obtain ⟨-, -, -, -, -, -, -, c, hc', -⟩ := minimize_ok norm.wellFormed cb hbw
    (P := fun _ => True) (fun _ _ _ => trivial) (fun _ _ _ _ _ _ _ _ _ _ => trivial) checked'
  obtain ⟨x, z, r, rerun⟩ := last.exists_reruns rd.toMergeable hsize norm hc'
  have hxw : x.Weighted Proper :=
    rerun.push.weighted_walks norm.wellFormed cb fun _ _ hp => hbw.proper_walk norm.wellFormed hp
  refine ⟨b, c, hb, hc', rerun.backward, rerun.keepsLinks, fun hf => rerun.keepsArcs hxw ?_⟩
  refine rerun.push.renormalized norm.wellFormed cb rerun.same (norm.finite_normalized (hyf hf))
    fun i hi => norm.shared (hyf hf) fun hnil => hi ?_
  rw [norm.arcsFrom, normalizedFrom, hnil]
  rfl

end LogAutomata.Automaton
