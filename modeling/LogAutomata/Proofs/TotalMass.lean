import LogAutomata.Proofs.Minimize

/-!
# The mass of all walks

If the masses of the links of every state but Final sum to one and Final has no
links, lengthening all walks by one link moves their mass and loses none of it. Without
a cycle all walks end at last, so the walks to Final have mass one.
-/

namespace LogAutomata.Automaton

open ExactWeight (mass Proper)

variable {b : Automaton ExactWeight}

/-- The links of every state but Final share out one unit of mass. -/
structure Stochastic (b : Automaton ExactWeight) : Prop where
  proper : b.Weighted Proper
  shared : ∀ i, i < b.size → i ≠ 1 → ((b.arcsFrom i).map fun e => e.2.mass).sum = 1
  final : b.arcsFrom 1 = []

noncomputable def massOf (b : Automaton ExactWeight) (vs : List (List Place × Nat)) : ℝ :=
  (vs.map fun v => (b.walkWeight v.1).mass).sum

theorem massOf_append (us vs : List (List Place × Nat)) :
    b.massOf (us ++ vs) = b.massOf us + b.massOf vs := by
  rw [massOf, List.map_append, List.sum_append]
  rfl

theorem massOf_filter_add (p : List Place × Nat → Bool) (vs : List (List Place × Nat)) :
    b.massOf (vs.filter p) + b.massOf (vs.filter fun v => !p v) = b.massOf vs := by
  rw [← massOf_append]
  exact ((List.filter_append_perm p vs).map _).sum_eq

variable (hb : b.WellFormed) (hs : b.Stochastic)
include hb hs

/-- A walk that does not end at Final passes its mass on to its continuations. -/
theorem massOf_extensions {n : Nat} {v : List Place × Nat} (h : v ∈ b.walks 0 n) :
    b.massOf (b.extensions v) = if v.2 = 1 then 0 else (b.walkWeight v.1).mass := by
  have walk := ((mem_walks_iff hb).1 h).1
  have hw : (b.walkWeight v.1).Proper := hs.proper.proper_walk hb walk
  have masses : b.massOf (b.extensions v) =
      ((b.arcsFrom v.2).map fun e => (b.walkWeight v.1).mass * e.2.mass).sum := by
    conv_rhs => rw [← List.zipIdx_map_fst 0 (b.arcsFrom v.2), List.map_map]
    rw [massOf, extensions, List.map_map]
    refine congrArg List.sum (List.map_congr_left fun x hx => ?_)
    have hm : x.1 ∈ b.arcsFrom v.2 := List.mem_of_getElem? (List.mem_zipIdx_iff_getElem?.1 hx)
    simp only [Function.comp, walkWeight_concat hb hx]
    exact ExactWeight.mass_add hw (hs.proper v.2 x.1 hm)
  rw [masses, List.sum_map_mul_left]
  split
  · next h1 =>
    rw [h1, hs.final]
    exact mul_zero _
  · next h1 =>
    have hr : b.Reaches 0 v.2 := ⟨v.1, walk⟩
    have hj : v.2 < b.size := hr.lt_size (Nat.lt_of_lt_of_le Nat.two_pos hb.two_le_size)
    rw [hs.shared v.2 hj h1, mul_one]

theorem massOf_walks_succ (n : Nat) :
    b.massOf (b.walks 0 (n + 1)) = b.massOf ((b.walks 0 n).filter fun v => !(v.2 == 1)) := by
  have grown : ∀ vs : List (List Place × Nat), (∀ v ∈ vs, v ∈ b.walks 0 n) →
      b.massOf (vs.flatMap b.extensions) = b.massOf (vs.filter fun v => !(v.2 == 1)) := by
    intro vs hvs
    induction vs with
    | nil => rfl
    | cons v vs ih =>
      rw [List.flatMap_cons, massOf_append, ih fun v hv => hvs v (List.mem_cons_of_mem _ hv),
        massOf_extensions hb hs (hvs _ List.mem_cons_self), List.filter_cons]
      by_cases h1 : v.2 = 1
      · simp [h1]
      · simp [h1, massOf]
  exact grown _ fun _ hv => hv

/-- What has arrived at Final and what is still on the way is always one. -/
theorem massOf_arrived (n : Nat) :
    b.massOf ((b.visits n).filter (·.2 == 1)) + b.massOf (b.walks 0 n) = 1 := by
  induction n with
  | zero =>
    have : (b.walkWeight []).mass = 1 := ExactWeight.mass_zero
    simp [visits, walks, massOf, this]
  | succ n ih =>
    rw [visits_succ, List.filter_append, massOf_append, massOf_walks_succ hb hs, add_assoc,
      massOf_filter_add, ih]

theorem massOf_final (hc : b.Acyclic) : b.massOf ((b.visits b.size).filter (·.2 == 1)) = 1 := by
  have hnil : b.massOf [] = 0 := rfl
  have := massOf_arrived hb hs b.size
  rwa [hc.walks_eq_nil hb (Nat.le_refl _), hnil, add_zero] at this

omit hs in
theorem nodup_visits (n : Nat) : ((b.visits n).map Prod.fst).Nodup := by
  induction n with
  | zero => exact List.nodup_nil
  | succ n ih =>
    rw [visits_succ, List.map_append]
    refine List.nodup_append.2 ⟨ih, nodup_walks b 0 n, fun ps hps qs hqs he => ?_⟩
    obtain ⟨⟨ps, i⟩, hv, rfl⟩ := List.mem_map.1 hps
    obtain ⟨⟨qs, j⟩, hq, rfl⟩ := List.mem_map.1 hqs
    obtain ⟨k, hk, hv⟩ := List.mem_flatMap.1 hv
    have h1 := ((mem_walks_iff hb).1 hv).2
    have h2 := ((mem_walks_iff hb).1 hq).2
    simp only at he
    rw [he, h2] at h1
    exact Nat.lt_irrefl _ (h1 ▸ List.mem_range.1 hk)

/-- The walks from Init to Final can be listed, and the log-sum of their weights is 0. -/
theorem Stochastic.logSum_walks (hc : b.Acyclic) : ∃ walks : List (List Place), walks.Nodup ∧
    (∀ ps, ps ∈ walks ↔ b.IsWalk 0 ps 1) ∧ logSum (walks.map b.walkWeight) = 0 := by
  have mem : ∀ ps, ps ∈ ((b.visits b.size).filter (·.2 == 1)).map Prod.fst ↔ b.IsWalk 0 ps 1 := by
    intro ps
    rw [← mem_visits_iff hb hc, List.mem_map]
    constructor
    · rintro ⟨⟨ps, j⟩, hv, rfl⟩
      obtain ⟨hv, hj⟩ := List.mem_filter.1 hv
      obtain rfl : j = 1 := beq_iff_eq.1 hj
      exact hv
    · exact fun hv => ⟨(ps, 1), List.mem_filter.2 ⟨hv, beq_self_eq_true 1⟩, rfl⟩
  refine ⟨_, (nodup_visits hb b.size).sublist (List.filter_sublist.map _), mem, ?_⟩
  have proper : ∀ w ∈ (((b.visits b.size).filter (·.2 == 1)).map Prod.fst).map b.walkWeight,
      w.Proper := by
    intro w hw
    obtain ⟨ps, hps, rfl⟩ := List.mem_map.1 hw
    exact hs.proper.proper_walk hb ((mem ps).1 hps)
  refine (ExactWeight.proper_logSum proper).eq_of_mass ExactWeight.proper_zero ?_
  have total := massOf_final hb hs hc
  rw [massOf] at total
  rw [ExactWeight.mass_logSum proper, List.map_map, List.map_map, ExactWeight.mass_zero, ← total]
  rfl

omit hb hs in
/-- The result of the last round becomes stochastic, since it has no dead ends. -/
theorem Round.stochastic {a l t m y : Automaton ExactWeight} {p q : Nat → Nat}
    (hr : Round a l t m y p q) (ha : a.Reaches 0 1) (hw : y.Weighted ExactWeight.Finite)
    (h : y.Rebuilds b y.normalizedFrom) : b.Stochastic where
  proper := h.weighted_normalized fun i e he => (hw i e he).proper
  shared i hi h1 := by
    refine h.shared hw fun hnil => ?_
    rw [h.size_eq] at hi
    obtain ⟨js, hp⟩ := reaches_iff_path.1 (hr.reaches_final ha hi)
    cases hp with
    | nil => exact h1 rfl
    | cons hj =>
      rw [successors_eq, hnil] at hj
      cases hj
  final := by
    have := hr.successors_final ha
    rw [successors_eq, List.map_eq_nil_iff] at this
    rw [h.arcsFrom, normalizedFrom, this]
    rfl

omit hb hs in
theorem minimize_logSum_walks {a : Automaton ExactWeight} (ha : a.Built) (hc : a.Acyclic)
    (hw : ∀ l ∈ a.links, l.weight.Finite) (hr : a.Reaches 0 1) (checked : Bool) :
    ∃ b, a.minimize checked = .ok b ∧ ∃ walks : List (List Place), walks.Nodup ∧
      (∀ ps, ps ∈ walks ↔ b.IsWalk 0 ps 1) ∧ logSum (walks.map b.walkWeight) = 0 := by
  have wf := ha.wellFormed
  have finite := wf.weighted hw
  obtain ⟨c, l, t, m, y, p, q, b, hb, ⟨-, -, hcr⟩, hround, ⟨ry, hyw, -⟩, -, hnorm⟩ :=
    minimize_ok wf hc (fun i e he => (finite i e he).proper)
      (P := fun c => c.Weighted ExactWeight.Finite ∧ c.Reaches 0 1)
      (fun x hpush _ => ⟨hpush.weighted_pushed wf hc ExactWeight.finite_zero
        (fun _ _ => ExactWeight.Finite.add) finite,
        (hpush.retraces_pushed.reaches_iff (.refl a 0)).2 hr⟩)
      (fun c l t m b p q ⟨hcw, hcr⟩ _ hround =>
        ⟨hround.weighted ExactWeight.sumClosed_finite hcw, hround.reaches_final_iff.2 hcr⟩) checked
  refine ⟨b, hb, (hround.stochastic hcr hyw hnorm).logSum_walks hnorm.wellFormed ?_⟩
  exact hnorm.retraces_normalized.acyclic ry.acyclic

omit hb hs in
theorem minimize_diamond_logSum_walks :
    ∃ b, (diamond (.finite 0) (.finite 1)).minimize true = .ok b ∧
      ∃ walks : List (List Place), walks.Nodup ∧ (∀ ps, ps ∈ walks ↔ b.IsWalk 0 ps 1) ∧
        logSum (walks.map b.walkWeight) = 0 :=
  minimize_logSum_walks (diamond_built rfl rfl) (diamond_acyclic rfl rfl)
    (diamond_weights (v := .finite 0) (w := .finite 1) rfl rfl trivial trivial)
    (diamond_reaches rfl rfl) true

end LogAutomata.Automaton
