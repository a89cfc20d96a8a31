import LogAutomata.Proofs.Continuations
import LogAutomata.Proofs.Lexicon
import LogAutomata.Proofs.Minimize

/-!
# Lexicons share the mass equally

After the rounds, a link carries the number of ways to go on behind it, times
a factor of the state it leaves: threads put the same mass on their links
at equal distances from Init. Normalization removes the factors, and along a
walk all numbers cancel but the number of words.
-/

namespace LogAutomata.Automaton

open ExactWeight (mass Proper)

variable {y b : Automaton ExactWeight} {fs : List (List (Arc ExactWeight))}

-- ---------------------------------------------------------------------------
-- Mass at a distance
-- ---------------------------------------------------------------------------

def crossing (i j k m : Nat) : ℝ := if k = i ∧ m = j then 1 else 0

theorem weigh_crossing_arcs (single : y.Single) {i j : Nat} {w : ExactWeight}
    (h : (j, w) ∈ y.arcsFrom i) : weigh (crossing i j) y.arcs = w.mass := by
  classical
  have hm : (⟨i, j, w⟩ : Arc ExactWeight) ∈ y.arcs := mem_arcs_iff.2 h
  rw [weigh, List.sum_map_eq_nsmul_single ⟨i, j, w⟩, List.count_eq_one_of_mem single.nodup_arcs hm]
  · simp [crossing]
  · intro r hne hr
    rw [crossing, if_neg, zero_mul]
    rintro ⟨hs, hd⟩
    refine hne (List.inj_on_of_nodup_map single.nodup_ends hr hm ?_)
    exact Prod.ext hs hd

theorem weigh_crossing {f : List (Arc ExactWeight)} {load : Nat → ExactWeight} (hf : y.Runs 0 f 1)
    (hload : f.map Arc.weight = (List.range f.length).map load) {n : Nat} (hn : f.length ≤ n)
    (i j : Nat) : weigh (crossing i j) f = ∑ p ∈ Finset.range n,
      if (0 :: f.map Arc.dest)[p]? = some i ∧ (f.map Arc.dest)[p]? = some j
        then (load p).mass else 0 := by
  have row : (f.map fun r => crossing i j r.src r.dest * r.weight.mass) =
      (List.range f.length).map fun p =>
        if (0 :: f.map Arc.dest)[p]? = some i ∧ (f.map Arc.dest)[p]? = some j
          then (load p).mass else 0 := by
    refine List.ext_getElem (by simp) fun p h1 h2 => ?_
    rw [List.length_map] at h1
    have weight : f[p].weight = load p := by
      have := congrArg (fun ws => ws[p]?) hload
      simpa [h1] using this
    have hs : (0 :: f.map Arc.dest)[p]? = some f[p].src := by
      rw [hf.states, List.getElem?_append_left (by rwa [List.length_map])]
      simp [h1]
    have hd : (f.map Arc.dest)[p]? = some f[p].dest := by simp [h1]
    rw [List.getElem_map, List.getElem_map, List.getElem_range, hs, hd, weight, crossing]
    simp only [Option.some.injEq, ite_mul, one_mul, zero_mul]
  rw [weigh, row]
  change (∑ p ∈ Finset.range f.length, _) = _
  refine Finset.sum_subset (Finset.range_subset_range.2 hn) fun p _ hp => ?_
  have : (f.map Arc.dest)[p]? = none := by
    rw [List.getElem?_eq_none_iff, List.length_map]
    simpa using hp
  rw [this, if_neg (by simp)]

namespace Threads

def paths (fs : List (List (Arc ExactWeight))) : Finset (List Nat) :=
  (fs.map (List.map Arc.dest)).toFinset

theorem mem_paths_iff (hf : y.Threads fs) (js : List Nat) :
    js ∈ paths fs ↔ y.Path 0 js 1 := by
  rw [paths, List.mem_toFinset, List.mem_map]
  constructor
  · rintro ⟨f, hm, rfl⟩
    exact (hf.runs f hm).path
  · exact hf.complete js

theorem nodup_paths (distinct : (fs.map y.word).Nodup) :
    (fs.map (List.map Arc.dest)).Nodup := by
  have : fs.map y.word = (fs.map (List.map Arc.dest)).map y.spell := by
    rw [List.map_map]
    rfl
  exact (this ▸ distinct).of_map _

theorem card_paths (distinct : (fs.map y.word).Nodup) : (paths fs).card = fs.length := by
  rw [paths, List.toFinset_card_of_nodup (nodup_paths distinct), List.length_map]

/-- Threads that put the same mass on their links at equal distances give a link the number
of ways to go on behind it, times a factor of the state it leaves. -/
theorem mass_eq (hf : y.Threads fs) (wf : y.WellFormed) (hc : y.Acyclic) (single : y.Single)
    (distinct : (fs.map y.word).Nodup) {load : Nat → ExactWeight}
    (hload : ∀ f ∈ fs, f.map Arc.weight = (List.range f.length).map load) {count : Nat → Nat}
    (hcount : ∀ js i, y.Path 0 js i → continuations (paths fs) js = count i) {i j : Nat}
    {w : ExactWeight} (h : (j, w) ∈ y.arcsFrom i) :
    w.mass = (∑ p ∈ Finset.range y.size,
      ((((paths fs).filter fun js => (0 :: js)[p]? = some i).image (List.take p)).card : ℝ) *
        (load p).mass) * count j := by
  have h0 : 0 < y.size := Nat.lt_of_lt_of_le Nat.two_pos wf.two_le_size
  have short : ∀ f ∈ fs, f.length ≤ y.size := by
    intro f hm
    have := hc.path_length_lt h0 (.refl y 0) (hf.runs f hm).path
    rw [List.length_map] at this
    exact Nat.le_of_lt this
  calc w.mass
      = (fs.map fun f => weigh (crossing i j) f).sum := by
        rw [← weigh_crossing_arcs single h, hf.weigh_arcs, List.flatten_eq_flatMap, weigh_flatMap]
        rfl
    _ = ∑ js ∈ paths fs, ∑ p ∈ Finset.range y.size,
          if (0 :: js)[p]? = some i ∧ js[p]? = some j then (load p).mass else 0 := by
        rw [paths, List.sum_toFinset _ (nodup_paths distinct), List.map_map]
        refine congrArg List.sum (List.map_congr_left fun f hm => ?_)
        exact weigh_crossing (hf.runs f hm) (hload f hm) (short f hm) i j
    _ = ∑ p ∈ Finset.range y.size,
          (((paths fs).filter fun js => (0 :: js)[p]? = some i ∧ js[p]? = some j).card : ℝ) *
            (load p).mass := by
        rw [Finset.sum_comm]
        refine Finset.sum_congr rfl fun p _ => ?_
        rw [← Finset.sum_filter, Finset.sum_const, nsmul_eq_mul]
    _ = _ := by
        rw [Finset.sum_mul]
        refine Finset.sum_congr rfl fun p _ => ?_
        rw [card_taking hf.mem_paths_iff hcount p (mem_successors_iff.2 ⟨w, h⟩), Nat.cast_mul]
        ring

end Threads

-- ---------------------------------------------------------------------------
-- Shares
-- ---------------------------------------------------------------------------

/-- Each state gives its links mass in proportion to the numbers of ways to go on behind them. -/
structure Shares (y : Automaton ExactWeight) (count : Nat → Nat) : Prop where
  mass : ∀ i, ∃ x : ℝ, ∀ e ∈ y.arcsFrom i, e.2.mass = x * count e.1
  final : y.successors 1 = []
  one : y.Reaches 0 1 → count 1 = 1
  step : ∀ i, y.Reaches 0 i → i ≠ 1 → count i = ((y.successors i).map count).sum

theorem Threads.exists_shares (hf : y.Threads fs) (wf : y.WellFormed) (hc : y.Acyclic)
    (single : y.Single) (final : y.successors 1 = []) (distinct : (fs.map y.word).Nodup)
    {load : Nat → ExactWeight}
    (hload : ∀ f ∈ fs, f.map Arc.weight = (List.range f.length).map load) :
    ∃ count, y.Shares count ∧ count 0 = fs.length := by
  obtain ⟨count, hcount⟩ := exists_continuations hf.mem_paths_iff hc single final
  refine ⟨count, ⟨fun i => ⟨_, fun e he => hf.mass_eq wf hc single distinct hload hcount he⟩,
    final, fun h1 => ?_, fun i hi h1 => ?_⟩, ?_⟩
  · obtain ⟨js, hp⟩ := reaches_iff_path.1 h1
    rw [← hcount js 1 hp, continuations_final hf.mem_paths_iff final hp]
  · obtain ⟨js, hp⟩ := reaches_iff_path.1 hi
    rw [← hcount js i hp, continuations_step hf.mem_paths_iff (single i) hp h1]
    exact congrArg List.sum (List.map_congr_left fun j hj => hcount _ j (hp.snoc hj))
  · rw [← hcount [] 0 (.nil 0), continuations, Finset.filter_true_of_mem fun js _ =>
      List.nil_prefix, card_paths distinct]

namespace Shares

variable {count : Nat → Nat} (hs : y.Shares count) (hw : y.Weighted ExactWeight.Finite)
  (h : y.Rebuilds b y.normalizedFrom)
include hs hw h

/-- After normalization a link has the part of the ways to go on that lies behind it. -/
theorem mass_normalized {i : Nat} (hi : y.Reaches 0 i) {e : Nat × ExactWeight}
    (he : e ∈ b.arcsFrom i) : e.2.mass = count e.1 / count i := by
  rw [h.arcsFrom] at he
  obtain ⟨f, hf, rfl⟩ := List.mem_map.1 he
  obtain ⟨x, hx⟩ := hs.mass i
  have h1 : i ≠ 1 := by
    rintro rfl
    have := mem_successors_iff.2 ⟨f.2, hf⟩
    rw [hs.final] at this
    cases this
  have proper : ∀ w ∈ (y.arcsFrom i).map Prod.snd, w.Proper := hw.proper.weights i
  have total : (((y.arcsFrom i).map Prod.snd).map ExactWeight.mass).sum = x * count i := by
    rw [hs.step i hi h1, successors_eq, List.map_map, List.map_map, Nat.cast_list_sum,
      List.map_map, ← List.sum_map_mul_left]
    exact congrArg List.sum (List.map_congr_left fun g hg => hx g hg)
  have hx0 : x ≠ 0 := by
    rintro rfl
    have := (ExactWeight.finite_iff.1 (hw i f hf)).2
    rw [hx f hf, zero_mul] at this
    exact lt_irrefl 0 this
  rw [ExactWeight.mass_sub_normalizer proper (List.mem_map_of_mem hf), total, hx f hf,
    mul_div_mul_left _ _ hx0]

theorem mass_walk {ps : List Place} {k : Nat} (hp : b.IsWalk 0 ps k) :
    (b.walkWeight ps).mass * count 0 = count k := by
  have finite := h.finite_normalized hw
  induction ps using List.reverseRecOn generalizing k with
  | nil =>
    obtain rfl := isWalk_nil_iff.1 hp
    exact (congrArg (· * _) ExactWeight.mass_zero).trans (one_mul _)
  | append_singleton ps p ih =>
    obtain ⟨hq, hp⟩ := isWalk_concat_iff.1 hp
    obtain ⟨e, he, rfl⟩ := (arrival_eq_some_iff h.wellFormed).1 hp
    have hm : e ∈ b.arcsFrom p.state := List.mem_of_getElem? (List.mem_zipIdx_iff_getElem?.1 he)
    have hi := (h.retraces_normalized.reaches_iff (.refl y 0)).1 ⟨ps, hq⟩
    have part := hs.mass_normalized hw h hi hm
    have pos := (ExactWeight.finite_iff.1 (finite _ e hm)).2
    have hne : (count p.state : ℝ) ≠ 0 := by
      intro h0
      rw [part, h0, div_zero] at pos
      exact lt_irrefl 0 pos
    have weight : (b.walkWeight ps).Proper := finite.proper.proper_walk h.wellFormed hq
    rw [walkWeight_concat h.wellFormed he, ExactWeight.mass_add weight (finite _ e hm).proper,
      part, mul_right_comm, ih hq, mul_div_cancel₀ _ hne]

theorem walkWeight_eq {ps : List Place} (hp : b.IsWalk 0 ps 1) :
    b.walkWeight ps = .finite (Real.log (1 / count 0)) := by
  have finite := h.finite_normalized hw
  have weight : (b.walkWeight ps).Finite :=
    Weighted.walkWeight ExactWeight.finite_zero (fun _ _ => ExactWeight.Finite.add) h.wellFormed
      finite hp
  have h1 := (h.retraces_normalized.reaches_iff (.refl y 0)).1 ⟨ps, hp⟩
  have total := hs.mass_walk hw h hp
  rw [hs.one h1, Nat.cast_one] at total
  have hm : (b.walkWeight ps).mass = 1 / count 0 := eq_one_div_of_mul_eq_one_left total
  rw [← hm]
  exact weight.proper.eq_finite (ExactWeight.finite_iff.1 weight).2

end Shares

-- ---------------------------------------------------------------------------
-- Accepted words
-- ---------------------------------------------------------------------------

theorem Threads.of_walk (hf : y.Threads fs) (h : y.Retraces b) {ps : List Place}
    (hp : b.IsWalk 0 ps 1) :
    ∃ f ∈ fs, f.map Arc.dest = b.entered ps ∧ y.word f = b.spelling ps := by
  obtain ⟨f, hm, he⟩ := hf.complete _ ((h.path_iff (.refl y 0)).1 hp.path)
  refine ⟨f, hm, he, ?_⟩
  have symbols : b.symbolAt = y.symbolAt := funext h.symbolAt
  rw [word, he, spelling, symbols]
  rfl

theorem Threads.exists_walk (hf : y.Threads fs) (h : y.Retraces b) {f : List (Arc ExactWeight)}
    (hm : f ∈ fs) : ∃ ps, b.IsWalk 0 ps 1 ∧ b.spelling ps = y.word f := by
  obtain ⟨ps, hp, he⟩ := ((h.path_iff (.refl y 0)).2 (hf.runs f hm).path).exists_walk
  refine ⟨ps, hp, ?_⟩
  have symbols : b.symbolAt = y.symbolAt := funext h.symbolAt
  rw [word, ← he, spelling, symbols]
  rfl

theorem Threads.spells_iff (hf : y.Threads fs) (h : y.Retraces b) {s : List Symbol} :
    (∃ ps, b.IsWalk 0 ps 1 ∧ b.spelling ps = s) ↔ s ∈ fs.map y.word := by
  rw [List.mem_map]
  constructor
  · rintro ⟨ps, hp, rfl⟩
    obtain ⟨f, hm, -, he⟩ := hf.of_walk h hp
    exact ⟨f, hm, he⟩
  · rintro ⟨f, hm, rfl⟩
    exact hf.exists_walk h hm

theorem Threads.walk_unique (hf : y.Threads fs) (distinct : (fs.map y.word).Nodup)
    (h : y.Retraces b) (wf : b.WellFormed) (single : b.Single) {ps qs : List Place}
    (hp : b.IsWalk 0 ps 1) (hq : b.IsWalk 0 qs 1) (he : b.spelling ps = b.spelling qs) :
    ps = qs := by
  obtain ⟨f, hf', hfe, hfw⟩ := hf.of_walk h hp
  obtain ⟨g, hg', hge, hgw⟩ := hf.of_walk h hq
  obtain rfl := List.inj_on_of_nodup_map distinct hf' hg' (hfw.trans (he.trans hgw.symm))
  exact single.walk_unique wf hp hq (hfe.symm.trans hge)

-- ---------------------------------------------------------------------------
-- Minimized lexicons
-- ---------------------------------------------------------------------------

def labels (b : Automaton ExactWeight) (ps : List Place) : List (Option Label) :=
  (b.spelling ps).map Symbol.label

def symbols (emissions : List (Option Label × Option Int)) (word : List Label) : List Symbol :=
  (word.map some).map (symbolOf emissions)

theorem label_symbols (emissions : List (Option Label × Option Int)) (word : List Label) :
    (symbols emissions word).map Symbol.label = word.map some := by
  rw [symbols, List.map_map]
  exact List.map_id _

theorem symbols_injective (emissions : List (Option Label × Option Int)) :
    Function.Injective (symbols emissions) := by
  intro v w h
  have := congrArg (List.map Symbol.label) h
  rw [label_symbols, label_symbols] at this
  exact List.map_injective_iff.2 (Option.some_injective _) this

theorem linear_union_ok (words : List (List Label)) (emissions : List (Option Label × Option Int))
    (c : ℝ) : ∃ chains u,
      words.mapM (fun w => linear (w.map some) emissions (ExactWeight.finite c)) = .ok chains ∧
      union chains = .ok u ∧
      u.Lexicon (.finite c) (words.map (symbols emissions)) := by
  have each : ∀ w : List Label, ∃ a, linear (w.map some) emissions (ExactWeight.finite c) = .ok a ∧
      a.IsChain (.finite c) (symbols emissions w) := fun w => linear_ok rfl _ emissions
  choose chain hchain using each
  obtain ⟨u, hu, hl⟩ := Lexicon.union_ok fun w (_ : w ∈ words) => (hchain w).2
  exact ⟨_, u, mapM_ok fun w _ => (hchain w).1, hu, hl⟩

theorem Lexicon.minimize_ok {u : Automaton ExactWeight} {w : ExactWeight}
    {words : List (List Symbol)} (h : u.Lexicon w words) (hw : w.Finite) (hne : words ≠ [])
    (checked : Bool) : ∃ y b : Automaton ExactWeight, u.minimize checked = .ok b ∧
      y.Roundable ∧ y.Single ∧ y.successors 1 = [] ∧ y.Weighted ExactWeight.Finite ∧
      y.Carries words (pushedLoads w words) ∧ y.Rebuilds b y.normalizedFrom := by
  have finite : u.Weighted ExactWeight.Finite := fun i e he => h.constant i e he ▸ hw
  obtain ⟨c, l, t, m, y, p, q, b, hb, ⟨-, -, hcarries⟩, hround, ⟨ry, hyw, hyc⟩, -, hnorm⟩ :=
    Automaton.minimize_ok h.wellFormed h.acyclic (fun i e he => (finite i e he).proper)
      (P := fun c => c.Weighted ExactWeight.Finite ∧ c.Carries words (pushedLoads w words))
      (fun x hpush _ => ⟨hpush.weighted_pushed h.wellFormed h.acyclic ExactWeight.finite_zero
        (fun _ _ => ExactWeight.Finite.add) finite,
        h.carries_pushed hw.proper hpush⟩)
      (fun c l t m b p q ⟨hcw, hcc⟩ rc hround =>
        ⟨hround.weighted ExactWeight.sumClosed_finite hcw,
          hround.carries rc.acyclic rc.proper hcc⟩) checked
  have hr : c.Reaches 0 1 := by
    obtain ⟨fs, hf, rfl, -⟩ := hcarries
    obtain ⟨s, hs⟩ := List.exists_mem_of_ne_nil _ hne
    obtain ⟨f, hm, -⟩ := List.mem_map.1 hs
    exact (hf.runs f hm).path.reaches
  exact ⟨y, b, hb, ry, hround.back.single hround.right.nodup, hround.successors_final hr, hyw, hyc,
    hnorm⟩

theorem minimize_union_linear {words : List (List Label)} (hne : words ≠ []) (hd : words.Nodup)
    (emissions : List (Option Label × Option Int)) (c : ℝ) (checked : Bool) :
    ∃ chains u b,
      words.mapM (fun w => linear (w.map some) emissions (ExactWeight.finite c)) = .ok chains ∧
      union chains = .ok u ∧ u.minimize checked = .ok b ∧
      (∀ s, (∃ ps, b.IsWalk 0 ps 1 ∧ b.labels ps = s) ↔ ∃ w ∈ words, w.map some = s) ∧
      (∀ w ∈ words, ∃! ps, b.IsWalk 0 ps 1 ∧ b.labels ps = w.map some) ∧
      ∀ ps, b.IsWalk 0 ps 1 → b.walkWeight ps = .finite (Real.log (1 / words.length)) := by
  obtain ⟨chains, u, hchains, hu, hl⟩ := linear_union_ok words emissions c
  obtain ⟨y, b, hb, ry, single, final, finite, ⟨fs, hf, hwords, hloads⟩, hnorm⟩ :=
    hl.minimize_ok trivial (fun hnil => hne (List.map_eq_nil_iff.1 hnil)) checked
  have distinct : (fs.map y.word).Nodup := hwords ▸ hd.map (symbols_injective emissions)
  have traced := hnorm.retraces_normalized
  have single' : b.Single := fun i => by
    rw [hnorm.successors_normalized]
    exact single i
  -- the words of the walks are the given ones, and each of them is the word of a walk
  have given : ∀ ps, b.IsWalk 0 ps 1 → ∃ w ∈ words, symbols emissions w = b.spelling ps := by
    intro ps hp
    have hm := (hf.spells_iff traced).1 ⟨ps, hp, rfl⟩
    rw [hwords] at hm
    exact List.mem_map.1 hm
  have walked : ∀ w ∈ words, ∃ ps, b.IsWalk 0 ps 1 ∧ b.spelling ps = symbols emissions w := by
    intro w hw
    refine (hf.spells_iff traced).2 ?_
    rw [hwords]
    exact List.mem_map_of_mem hw
  refine ⟨chains, u, b, hchains, hu, hb, fun s => ?_, fun w hw => ?_, fun ps hp => ?_⟩
  · constructor
    · rintro ⟨ps, hp, rfl⟩
      obtain ⟨w, hw, he⟩ := given ps hp
      exact ⟨w, hw, by rw [labels, ← he, label_symbols]⟩
    · rintro ⟨w, hw, rfl⟩
      obtain ⟨ps, hp, he⟩ := walked w hw
      exact ⟨ps, hp, by rw [labels, he, label_symbols]⟩
  · obtain ⟨ps, hp, he⟩ := walked w hw
    refine ⟨ps, ⟨hp, by rw [labels, he, label_symbols]⟩, ?_⟩
    rintro qs ⟨hq, hql⟩
    obtain ⟨v, hv, hve⟩ := given qs hq
    rw [labels, ← hve, label_symbols] at hql
    obtain rfl := List.map_injective_iff.2 (Option.some_injective _) hql
    exact hf.walk_unique distinct traced hnorm.wellFormed single' hq hp (hve.symm.trans he.symm)
  · have length : fs.length = words.length := by
      have := congrArg List.length hwords
      rwa [List.length_map, List.length_map] at this
    obtain ⟨count, hs, h0⟩ := hf.exists_shares ry.wellFormed ry.acyclic single final distinct
      (weights_of_pushedLoads (hwords.symm ▸ hloads))
    rw [hs.walkWeight_eq finite hnorm hp, h0, length]

theorem minimize_union_linear_two : ∃ chains u b,
    [[], [Label.text "a", Label.text "b"]].mapM
      (fun w => linear (w.map some) [] (ExactWeight.finite 2)) = .ok chains ∧
    union chains = .ok u ∧ u.minimize true = .ok b ∧
    (∀ s, (∃ ps, b.IsWalk 0 ps 1 ∧ b.labels ps = s) ↔
      ∃ w ∈ [[], [Label.text "a", Label.text "b"]], w.map some = s) ∧
    (∀ w ∈ [[], [Label.text "a", Label.text "b"]],
      ∃! ps, b.IsWalk 0 ps 1 ∧ b.labels ps = w.map some) ∧
    ∀ ps, b.IsWalk 0 ps 1 → b.walkWeight ps = .finite (Real.log (1 / (2 : ℕ))) :=
  minimize_union_linear (by simp) (by simp) [] 2 true

end LogAutomata.Automaton
