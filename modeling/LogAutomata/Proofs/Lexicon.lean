import LogAutomata.Proofs.Linear
import LogAutomata.Proofs.Threads

/-!
# Unions of chains

A union of chains adds one chain after the other between the same sentinels. Its
paths from Init to Final are the chains, and each state but Final stands at one
distance from Init.
-/

namespace LogAutomata.Automaton

variable {W : Type} {a u v : Automaton W}

-- ---------------------------------------------------------------------------
-- Depth
-- ---------------------------------------------------------------------------

/-- Every state but Final has a depth, and a link leads one deeper. -/
structure Graded (u : Automaton W) (depth : Nat → Nat) : Prop where
  init : depth 0 = 0
  step : ∀ i, ∀ j ∈ u.successors i, j = 1 ∨ depth j = depth i + 1

theorem Graded.path {depth : Nat → Nat} (h : u.Graded depth) (final : u.successors 1 = [])
    {i k : Nat} {js : List Nat} (hp : u.Path i js k) (h1 : k ≠ 1) :
    depth k = depth i + js.length := by
  induction hp with
  | nil => rfl
  | @cons i j k js hj hp ih =>
    rcases h.step i j hj with rfl | hd
    · cases hp with
      | nil => exact absurd rfl h1
      | cons hk =>
        rw [final] at hk
        cases hk
    · rw [ih h1, hd, List.length_cons]
      omega

theorem Graded.acyclic {depth : Nat → Nat} (h : u.Graded depth) (final : u.successors 1 = []) :
    u.Acyclic := by
  intro i _ hi
  obtain ⟨j, hj, hr⟩ := onCycle_iff.1 hi
  obtain ⟨js, hp⟩ := reaches_iff_path.1 hr
  have h1 : i ≠ 1 := by
    rintro rfl
    rw [final] at hj
    cases hj
  have := h.path final (.cons hj hp) h1
  rw [List.length_cons] at this
  omega

-- ---------------------------------------------------------------------------
-- One more chain
-- ---------------------------------------------------------------------------

variable [LogWeight W] {w : W} {ss : List Symbol}

structure Joins (u v : Automaton W) (w : W) (ss : List Symbol) : Prop where
  two_le : 2 ≤ u.size
  wellFormed : v.WellFormed
  symbolAt_of_lt : ∀ i, i < u.size → v.symbolAt i = u.symbolAt i
  symbolAt_add : ∀ k, (h : k < ss.length) → v.symbolAt (u.size + k) = ss[k]
  arcs_perm : v.arcs.Perm (u.arcs ++ chainArcs w 0 u.size ss.length)

theorem IsChain.embed_ok (h : a.IsChain w ss) (hu : u.WellFormed) :
    ∃ v, a.embed "union" {} u = .ok v ∧ u.Joins v w ss := by
  have h2 := hu.two_le_size
  obtain ⟨v, hv, he⟩ := embed_between h.wellFormed hu (i := 0) (f := 1)
    (Nat.lt_of_lt_of_le Nat.two_pos h2) h2 "union"
  refine ⟨v, hv, h2, he.wellFormed, he.symbolAt_of_lt, fun k hk => ?_, ?_⟩
  · rw [he.symbolAt_add, Nat.add_comm k 2, h.symbolAt k hk]
  · have moved : (chainArcs w 0 2 ss.length).map (Arc.move (relocate 0 1 u.size)) =
        chainArcs w 0 u.size ss.length :=
      map_move_chainArcs w rfl fun k _ => by
        rw [Nat.add_comm 2 k]
        rfl
    have placed := moved ▸ h.arcs_perm.map (Arc.move (relocate 0 1 u.size))
    exact he.arcs_perm.trans (placed.append_left _)

namespace Joins

variable (h : u.Joins v w ss)
include h

theorem mem_arcsFrom_iff {i j : Nat} {x : W} : (j, x) ∈ v.arcsFrom i ↔
    (j, x) ∈ u.arcsFrom i ∨ ⟨i, j, x⟩ ∈ chainArcs w 0 u.size ss.length := by
  have hv := mem_arcs_iff (a := v) (r := ⟨i, j, x⟩)
  have hu := mem_arcs_iff (a := u) (r := ⟨i, j, x⟩)
  rw [← hv, ← hu, h.arcs_perm.mem_iff, List.mem_append]

theorem mem_successors_iff {i j : Nat} : j ∈ v.successors i ↔
    j ∈ u.successors i ∨ ∃ r ∈ chainArcs w 0 u.size ss.length, r.src = i ∧ r.dest = j := by
  rw [Automaton.mem_successors_iff, Automaton.mem_successors_iff]
  constructor
  · rintro ⟨x, hx⟩
    rcases h.mem_arcsFrom_iff.1 hx with hx | hx
    · exact .inl ⟨x, hx⟩
    · exact .inr ⟨_, hx, rfl, rfl⟩
  · rintro (⟨x, hx⟩ | ⟨⟨i, j, x⟩, hr, rfl, rfl⟩)
    · exact ⟨x, h.mem_arcsFrom_iff.2 (.inl hx)⟩
    · exact ⟨x, h.mem_arcsFrom_iff.2 (.inr hr)⟩

theorem successors_old {i j : Nat} (h0 : i ≠ 0) (hi : i < u.size) :
    j ∈ v.successors i ↔ j ∈ u.successors i := by
  rw [h.mem_successors_iff]
  refine or_iff_left ?_
  rintro ⟨r, hr, rfl, -⟩
  have := List.mem_map_of_mem (f := Arc.src) hr
  rw [map_src_chainArcs, List.mem_cons, List.mem_range'_1] at this
  omega

theorem successors_new {r : Arc W} (hr : r ∈ chainArcs w 0 u.size ss.length) (h0 : r.src ≠ 0)
    {j : Nat} (hj : j ∈ v.successors r.src) : j = r.dest := by
  have two := h.two_le
  have nodup : ((chainArcs w 0 u.size ss.length).map Arc.src).Nodup := by
    rw [map_src_chainArcs, List.nodup_cons, List.mem_range'_1]
    exact ⟨by omega, List.nodup_range' ..⟩
  rcases h.mem_successors_iff.1 hj with hj | ⟨s, hs, he, rfl⟩
  · have hm := List.mem_map_of_mem (f := Arc.src) hr
    rw [map_src_chainArcs, List.mem_cons, List.mem_range'_1] at hm
    have := (lt_size_of_mem_successors hj).1
    omega
  · rw [List.inj_on_of_nodup_map nodup hs hr he]

theorem successors_final (final : u.successors 1 = []) : v.successors 1 = [] := by
  refine List.eq_nil_iff_forall_not_mem.2 fun j hj => ?_
  rw [h.successors_old Nat.one_ne_zero h.two_le, final] at hj
  cases hj

theorem runs {i k : Nat} {rs : List (Arc W)} (hr : u.Runs i rs k) : v.Runs i rs k := by
  induction hr with
  | nil i => exact .nil i
  | cons hj _ ih => exact .cons (h.mem_successors_iff.2 (.inl hj)) ih

theorem runs_chain {i base n : Nat}
    (hs : ∀ r ∈ chainArcs w i base n, r ∈ chainArcs w 0 u.size ss.length) :
    v.Runs i (chainArcs w i base n) 1 := by
  induction n generalizing i base with
  | zero => 
    refine .cons (h.mem_successors_iff.2 (.inr ⟨_, hs _ List.mem_cons_self, rfl, rfl⟩)) (.nil 1)
  | succ n ih =>
    refine .cons (h.mem_successors_iff.2 (.inr ⟨_, hs _ List.mem_cons_self, rfl, rfl⟩)) ?_
    exact ih fun r hr => hs r (List.mem_cons_of_mem _ hr)

/-- A path that leaves Init by an old link stays among the old states. -/
theorem path_old (hz : ∀ i, 0 ∉ u.successors i) {i k : Nat} {js : List Nat} (h0 : i ≠ 0)
    (hi : i < u.size) (hp : v.Path i js k) : u.Path i js k := by
  induction hp with
  | nil i => exact .nil i
  | @cons i j k js hj _ ih =>
    have hj := (h.successors_old h0 hi).1 hj
    refine .cons hj (ih ?_ (lt_size_of_mem_successors hj).2)
    rintro rfl
    exact hz i hj

theorem path_new (final : u.successors 1 = []) {i base n : Nat} {js : List Nat} (hi : 2 ≤ i)
    (hb : 2 ≤ base) (hs : ∀ r ∈ chainArcs w i base n, r ∈ chainArcs w 0 u.size ss.length)
    (hp : v.Path i js 1) : js = (chainArcs w i base n).map Arc.dest := by
  induction n generalizing i base js with
  | zero =>
    cases hp with
    | nil => omega
    | cons hj hp =>
      obtain rfl := h.successors_new (hs _ List.mem_cons_self) (by change i ≠ 0; omega) hj
      cases hp with
      | nil => rfl
      | cons hj =>
        rw [h.successors_final final] at hj
        cases hj
  | succ n ih =>
    cases hp with
    | nil => omega
    | cons hj hp =>
      obtain rfl := h.successors_new (hs _ List.mem_cons_self) (by change i ≠ 0; omega) hj
      rw [ih hb (by omega) (fun r hr => hs r (List.mem_cons_of_mem _ hr)) hp]
      rfl

theorem path_chain (final : u.successors 1 = []) {r : Arc W} {js : List Nat}
    (hr : r ∈ chainArcs w 0 u.size ss.length) (h0 : r.src = 0) (hp : v.Path r.dest js 1) :
    r.dest :: js = (chainArcs w 0 u.size ss.length).map Arc.dest := by
  have two := h.two_le
  cases hn : ss.length with
  | zero =>
    rw [hn, chainArcs, List.mem_singleton] at hr
    subst hr
    cases hp with
    | nil => rfl
    | cons hj =>
      rw [h.successors_final final] at hj
      cases hj
  | succ n =>
    have all : ∀ s ∈ chainArcs w u.size (u.size + 1) n,
        s ∈ chainArcs w 0 u.size ss.length := by
      intro s hs
      rw [hn]
      exact List.mem_cons_of_mem _ hs
    rw [hn] at hr
    rcases List.mem_cons.1 hr with rfl | hr
    · rw [h.path_new final two (by omega) all hp]
      rfl
    · have := List.mem_map_of_mem (f := Arc.src) hr
      rw [map_src_chainArcs, List.mem_cons, List.mem_range'_1] at this
      omega

theorem spell_old {js : List Nat} (hjs : ∀ j ∈ js, j < u.size) : v.spell js = u.spell js :=
  List.map_congr_left fun j hj => h.symbolAt_of_lt j (hjs j (List.mem_of_mem_filter hj))

theorem word_chain : v.word (chainArcs w 0 u.size ss.length) = ss := by
  have two := h.two_le
  have keeps : (List.range' u.size ss.length).filter (fun i => !isSentinel i) =
      List.range' u.size ss.length := by
    refine List.filter_eq_self.2 fun i hi => ?_
    have := (List.mem_range'_1.1 hi).1
    simp only [isSentinel, Bool.not_eq_true', decide_eq_false_iff_not]
    omega
  have last : v.spell [1] = [] := rfl
  rw [word, map_dest_chainArcs, spell_append, last, List.append_nil, spell, keeps]
  refine List.ext_getElem (by simp) fun k h1 h2 => ?_
  rw [List.getElem_map, List.getElem_range', Nat.one_mul, h.symbolAt_add k h2]

end Joins

-- ---------------------------------------------------------------------------
-- All chains
-- ---------------------------------------------------------------------------

def total (w : W) : Nat → W
  | 0 => 0
  | n + 1 => total w n + w

def pushedLoads (w : W) (words : List (List Symbol)) : List (List W) :=
  words.map fun s => (List.range (s.length + 1)).map fun p => total w p + w

theorem walkWeight_eq_total (ha : a.WellFormed) (hw : a.Weighted fun x => x = w) {i j : Nat}
    {ps : List Place} (h : a.IsWalk i ps j) : a.walkWeight ps = total w ps.length := by
  induction ps using List.reverseRecOn generalizing j with
  | nil => rfl
  | append_singleton ps p ih =>
    obtain ⟨h, hp⟩ := isWalk_concat_iff.1 h
    obtain ⟨e, he, -⟩ := (arrival_eq_some_iff ha).1 hp
    have hm : e ∈ a.arcsFrom p.state := List.mem_of_getElem? (List.mem_zipIdx_iff_getElem?.1 he)
    rw [walkWeight_concat ha he, ih h, hw _ e hm, List.length_append, List.length_singleton, total]

/-- The automaton is a union of chains that spell these words, with one weight on all
links. -/
structure Lexicon (u : Automaton ExactWeight) (w : ExactWeight) (words : List (List Symbol)) :
    Prop where
  wellFormed : u.WellFormed
  carries : u.Carries words (words.map fun s => List.replicate (s.length + 1) w)
  constant : u.Weighted fun x => x = w
  final : u.successors 1 = []
  graded : ∃ depth, u.Graded depth

namespace Lexicon

variable {a u v : Automaton ExactWeight} {w : ExactWeight} {words : List (List Symbol)}
  {ss : List Symbol}

theorem empty (w : ExactWeight) : (Automaton.empty : Automaton ExactWeight).Lexicon w [] := by
  have none : ∀ i, (Automaton.empty : Automaton ExactWeight).arcsFrom i = [] := by
    intro i
    rw [arcsFrom, linksFrom_empty]
    rfl
  have lost : ∀ i, (Automaton.empty : Automaton ExactWeight).successors i = [] := by
    intro i
    rw [successors_eq, none]
    rfl
  refine ⟨.empty, ⟨[], ⟨fun f hf => absurd hf List.not_mem_nil, fun js hp => ?_,
      fun φ => rfl⟩, rfl, rfl⟩,
    fun i e he => ?_, lost 1, fun _ => 0, rfl, fun i j hj => ?_⟩
  · cases hp with
    | cons hj =>
      rw [lost] at hj
      cases hj
  · rw [none] at he
    cases he
  · rw [lost] at hj
    cases hj

theorem zero_not_mem (h : u.Lexicon w words) (i : Nat) : 0 ∉ u.successors i := by
  obtain ⟨depth, hd⟩ := h.graded
  intro hi
  have := hd.init
  have := hd.step i 0 hi
  omega

theorem acyclic (h : u.Lexicon w words) : u.Acyclic := by
  obtain ⟨depth, hd⟩ := h.graded
  exact hd.acyclic h.final

theorem threads_join (h : u.Lexicon w words) (hj : u.Joins v w ss)
    {fs : List (List (Arc ExactWeight))} (hf : u.Threads fs) :
    v.Threads (fs ++ [chainArcs w 0 u.size ss.length]) where
  runs f hm := by
    rcases List.mem_append.1 hm with hm | hm
    · exact hj.runs (hf.runs f hm)
    · rw [List.mem_singleton.1 hm]
      exact hj.runs_chain fun r hr => hr
  complete js hp := by
    cases hp with
    | @cons _ k _ js hk hp =>
      rcases hj.mem_successors_iff.1 hk with hk | ⟨r, hr, h0, rfl⟩
      · have hk0 : k ≠ 0 := fun h0 => h.zero_not_mem 0 (h0 ▸ hk)
        have hp := hj.path_old h.zero_not_mem hk0 (lt_size_of_mem_successors hk).2 hp
        obtain ⟨f, hm, he⟩ := hf.complete _ (.cons hk hp)
        exact ⟨f, List.mem_append_left _ hm, he⟩
      · exact ⟨_, List.mem_append_right _ List.mem_cons_self,
          (hj.path_chain h.final hr h0 hp).symm⟩
  weigh_arcs φ := by
    rw [weigh_perm φ hj.arcs_perm, weigh_append, hf.weigh_arcs, List.flatten_append, weigh_append,
      List.flatten_singleton]

theorem join (h : u.Lexicon w words) (hj : u.Joins v w ss) : v.Lexicon w (words ++ [ss]) where
  wellFormed := hj.wellFormed
  carries := by
    obtain ⟨fs, hf, hwords, hloads⟩ := h.carries
    refine ⟨_, h.threads_join hj hf, ?_, ?_⟩
    · rw [List.map_append, ← hwords, List.map_singleton, hj.word_chain]
      congr 1
      refine List.map_congr_left fun f hm => hj.spell_old fun j hm' => ?_
      exact (hf.runs f hm).path.lt_size hm'
    · rw [List.map_append, hloads, List.map_append, List.map_singleton, List.map_singleton,
        map_weight_chainArcs]
  constant i e he := by
    rcases hj.mem_arcsFrom_iff.1 he with he | he
    · exact h.constant i e he
    · have := List.mem_map_of_mem (f := Arc.weight) he
      rw [map_weight_chainArcs] at this
      exact List.eq_of_mem_replicate this
  final := hj.successors_final h.final
  graded := by
    have two := hj.two_le
    obtain ⟨depth, h0, hd⟩ := h.graded
    let depth' (i : Nat) : Nat := if i < u.size then depth i else i - u.size + 1
    have old : ∀ i, i < u.size → depth' i = depth i := fun i hi => if_pos hi
    have new : ∀ i, u.size ≤ i → depth' i = i - u.size + 1 := fun i hi => if_neg (Nat.not_lt.2 hi)
    have zero := old 0 (by omega)
    refine ⟨depth', by rw [zero, h0], fun i j hm => ?_⟩
    rcases hj.mem_successors_iff.1 hm with hm | ⟨r, hr, rfl, rfl⟩
    · obtain ⟨hi, hjl⟩ := lt_size_of_mem_successors hm
      rw [old i hi, old j hjl]
      exact hd i j hm
    · rcases dest_of_mem_chainArcs w hr with h1 | ⟨hs, he⟩ | ⟨hs, he⟩
      · exact .inl h1
      · rw [hs, he, zero, new _ (Nat.le_refl _), h0, Nat.sub_self]
        exact .inr rfl
      · rw [he, new _ hs, new _ (by omega)]
        omega

theorem union_ok {α : Type} {chain : α → Automaton ExactWeight} {word : α → List Symbol}
    {xs : List α} (hx : ∀ x ∈ xs, (chain x).IsChain w (word x)) :
    ∃ u, union (xs.map chain) = .ok u ∧ u.Lexicon w (xs.map word) := by
  suffices hs : ∀ target words, target.Lexicon w words →
      ∃ u, (xs.map chain).foldlM (fun target a => a.embed "union" {} target) target = .ok u ∧
        u.Lexicon w (words ++ xs.map word) from hs _ [] (empty w)
  induction xs with
  | nil =>
    intro target words h
    exact ⟨target, rfl, by rwa [List.map_nil, List.append_nil]⟩
  | cons x xs ih =>
    intro target words h
    obtain ⟨v, hv, hj⟩ := (hx x List.mem_cons_self).embed_ok h.wellFormed
    obtain ⟨u, hu, hl⟩ := ih (fun y hy => hx y (List.mem_cons_of_mem _ hy)) v _ (h.join hj)
    refine ⟨u, ?_, ?_⟩
    · rw [List.map_cons, List.foldlM_cons, hv, ok_bind, hu]
    · rwa [List.append_assoc, List.singleton_append, ← List.map_cons] at hl

-- ---------------------------------------------------------------------------
-- Pushing
-- ---------------------------------------------------------------------------

theorem offsetAt_eq (h : u.Lexicon w words) {depth : Nat → Nat} (hd : u.Graded depth) {i : Nat}
    (hi : u.Reaches 0 i) (h1 : i ≠ 1) : u.offsetAt i = total w (depth i) := by
  obtain ⟨-, ps, hp, he⟩ := Automaton.offsetAt_eq h.wellFormed h.acyclic hi
  rw [he, walkWeight_eq_total h.wellFormed h.constant hp, hd.path h.final hp.path h1, hd.init,
    Nat.zero_add, length_entered hp]

/-- Along a row of arcs the pushed weights go up from depth to depth. -/
theorem weights_pushed (h : u.Lexicon w words) {depth : Nat → Nat} (hd : u.Graded depth)
    {i k : Nat} {rs : List (Arc ExactWeight)} (hi : u.Reaches 0 i) (hr : u.Runs i rs k)
    (hw : ∀ r ∈ rs, r.weight = w) : (rs.map u.pushedArc).map Arc.weight =
      (List.range' (depth i) rs.length).map fun p => total w p + w := by
  induction hr with
  | nil => rfl
  | @cons i j k x rs hj hr ih =>
    have h1 : i ≠ 1 := by
      rintro rfl
      rw [h.final] at hj
      cases hj
    have hx : x = w := hw _ List.mem_cons_self
    have rest : (rs.map u.pushedArc).map Arc.weight =
        (List.range' (depth i + 1) rs.length).map fun p => total w p + w := by
      rcases hd.step i j hj with rfl | hd'
      · cases hr with
        | nil => rfl
        | cons hm =>
          rw [h.final] at hm
          cases hm
      · rw [ih (hi.step hj) fun r hm => hw r (List.mem_cons_of_mem _ hm), hd']
    rw [List.map_cons, List.map_cons, rest, List.length_cons, List.range'_succ, List.map_cons,
      pushedArc, h.offsetAt_eq hd hi h1, hx]

theorem carries_pushed {x : Automaton ExactWeight} (h : u.Lexicon w words) (hw : w.Proper)
    (hx : u.Rebuilds x u.pushedFrom) : x.Carries words (pushedLoads w words) := by
  obtain ⟨fs, hf, rfl, hloads⟩ := h.carries
  obtain ⟨depth, hd⟩ := h.graded
  rw [List.map_map] at hloads
  have loads : ∀ f ∈ fs, f.map Arc.weight = List.replicate ((u.word f).length + 1) w :=
    List.map_inj_left.1 hloads
  have constant : ∀ f ∈ fs, ∀ r ∈ f, r.weight = w := by
    intro f hm r hr
    have := List.mem_map_of_mem (f := Arc.weight) hr
    rw [loads f hm] at this
    exact List.eq_of_mem_replicate this
  have proper : ∀ r ∈ fs.flatten, r.weight.Proper := by
    intro r hr
    obtain ⟨f, hm, hr⟩ := List.mem_flatten.1 hr
    exact constant f hm r hr ▸ hw
  have weighted : u.Weighted ExactWeight.Proper := fun i e he => h.constant i e he ▸ hw
  refine ⟨_, hx.threads_pushed h.wellFormed h.acyclic weighted hf proper, ?_, ?_⟩
  · rw [List.map_map]
    refine List.map_congr_left fun f _ => ?_
    have symbols : x.symbolAt = u.symbolAt := funext hx.symbolAt
    simp only [Function.comp, word, spell, symbols, List.map_map, pushedArc, Function.comp_def]
  · rw [pushedLoads, List.map_map, List.map_map]
    refine List.map_congr_left fun f hm => ?_
    have length : f.length = (u.word f).length + 1 := by
      have := congrArg List.length (loads f hm)
      rwa [List.length_map, List.length_replicate] at this
    rw [Function.comp, h.weights_pushed hd (.refl u 0) (hf.runs f hm) (constant f hm), hd.init,
      length, ← List.range_eq_range']
    rfl

end Lexicon

/-- Threads with these loads have the same weights at equal distances from Init. -/
theorem weights_of_pushedLoads {a : Automaton ExactWeight} {w : ExactWeight}
    {fs : List (List (Arc ExactWeight))}
    (h : fs.map (List.map Arc.weight) = pushedLoads w (fs.map a.word)) :
    ∀ f ∈ fs, f.map Arc.weight = (List.range f.length).map fun p => total w p + w := by
  rw [pushedLoads, List.map_map] at h
  intro f hm
  have hf := List.map_inj_left.1 h f hm
  have length : f.length = (a.word f).length + 1 := by
    have := congrArg List.length hf
    rwa [List.length_map, Function.comp, List.length_map, List.length_range] at this
  rw [hf, length]
  rfl

end LogAutomata.Automaton
