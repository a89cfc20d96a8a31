import LogAutomata.Proofs.Isomorphism
import LogAutomata.Proofs.Weighted

/-!
# Threads

The paths of an automaton from Init to Final can be drawn as threads that put
some mass on each arc they take. If the threads together give every arc its
mass, so do their images after a merge and the threads turned around after a
transposition: a merge adds up just the arcs that become one.
-/

namespace LogAutomata

open ExactWeight (mass Proper)

/-- The masses of some arcs, each counted as `φ` counts arcs between its ends. -/
noncomputable def weigh (φ : Nat → Nat → ℝ) (rs : List (Arc ExactWeight)) : ℝ :=
  (rs.map fun r => φ r.src r.dest * r.weight.mass).sum

theorem weigh_append (φ : Nat → Nat → ℝ) (rs ss : List (Arc ExactWeight)) :
    weigh φ (rs ++ ss) = weigh φ rs + weigh φ ss := by
  rw [weigh, List.map_append, List.sum_append]
  rfl

theorem weigh_perm (φ : Nat → Nat → ℝ) {rs ss : List (Arc ExactWeight)} (h : rs.Perm ss) :
    weigh φ rs = weigh φ ss := (h.map _).sum_eq

theorem weigh_congr {φ ψ : Nat → Nat → ℝ} {rs : List (Arc ExactWeight)}
    (h : ∀ r ∈ rs, φ r.src r.dest = ψ r.src r.dest) : weigh φ rs = weigh ψ rs :=
  congrArg List.sum (List.map_congr_left fun r hr => by rw [h r hr])

theorem weigh_flatMap {α : Type} (φ : Nat → Nat → ℝ) (xs : List α)
    (f : α → List (Arc ExactWeight)) :
    weigh φ (xs.flatMap f) = (xs.map fun x => weigh φ (f x)).sum := by
  induction xs with
  | nil => rfl
  | cons x xs ih => rw [List.flatMap_cons, weigh_append, ih, List.map_cons, List.sum_cons]

open Classical in
theorem weigh_filter (φ : Nat → Nat → ℝ) (p : Nat → Prop) (rs : List (Arc ExactWeight)) :
    weigh φ (rs.filter fun r => p r.src) = weigh (fun i j => if p i then φ i j else 0) rs := by
  induction rs with
  | nil => rfl
  | cons r rs ih =>
    simp only [weigh, List.map_cons, List.sum_cons] at ih ⊢
    by_cases h : p r.src
    · simp [h, ih]
    · simp [h, ih]

theorem weigh_move (φ : Nat → Nat → ℝ) (q : Nat → Nat) (rs : List (Arc ExactWeight)) :
    weigh φ (rs.map (Arc.move q)) = weigh (fun i j => φ (q i) (q j)) rs := by
  rw [weigh, List.map_map]
  rfl

theorem weigh_turned (φ : Nat → Nat → ℝ) (rs : List (Arc ExactWeight)) :
    weigh φ (rs.map Arc.turned) =
      weigh (fun i j => φ (Automaton.mirror j) (Automaton.mirror i)) rs := by
  rw [weigh, List.map_map]
  rfl

namespace Automaton

-- ---------------------------------------------------------------------------
-- Rows of arcs
-- ---------------------------------------------------------------------------

section
variable {W : Type} {a b : Automaton W}

/-- Arcs in a row, each along a link of the automaton. Their weights are their own. -/
inductive Runs (a : Automaton W) : Nat → List (Arc W) → Nat → Prop
  | nil (i : Nat) : Runs a i [] i
  | cons {i j k : Nat} {w : W} {rs : List (Arc W)} :
      j ∈ a.successors i → Runs a j rs k → Runs a i (⟨i, j, w⟩ :: rs) k

theorem Runs.append {i j k : Nat} {rs ss : List (Arc W)} (h : a.Runs i rs j)
    (h' : a.Runs j ss k) : a.Runs i (rs ++ ss) k := by
  induction h with
  | nil => exact h'
  | cons hj _ ih => exact .cons hj (ih h')

theorem Runs.path {i k : Nat} {rs : List (Arc W)} (h : a.Runs i rs k) :
    a.Path i (rs.map Arc.dest) k := by
  induction h with
  | nil i => exact .nil i
  | cons hj _ ih => exact .cons hj ih

theorem Runs.states {i k : Nat} {rs : List (Arc W)} (h : a.Runs i rs k) :
    i :: rs.map Arc.dest = rs.map Arc.src ++ [k] := by
  induction h with
  | nil i => rfl
  | cons _ _ ih => rw [List.map_cons, List.map_cons, ih, List.cons_append]

theorem Runs.mem {i k : Nat} {rs : List (Arc W)} (h : a.Runs i rs k) {r : Arc W} (hr : r ∈ rs) :
    a.Reaches i r.src ∧ r.dest ∈ a.successors r.src := by
  induction h with
  | nil => cases hr
  | @cons i j k w rs hj _ ih =>
    rcases List.mem_cons.1 hr with rfl | hr
    · exact ⟨.refl a i, hj⟩
    · obtain ⟨h1, h2⟩ := ih hr
      exact ⟨(reaches_of_mem_successors hj).trans h1, h2⟩

theorem Opposite.runs (h : a.Opposite b) {i k : Nat} {rs : List (Arc W)} (hr : a.Runs i rs k) :
    b.Runs (mirror k) (rs.map Arc.turned).reverse (mirror i) := by
  induction hr with
  | nil i => exact .nil _
  | @cons i j k w rs hj _ ih =>
    rw [List.map_cons, List.reverse_cons]
    refine ih.append (.cons ((h _ _).2 ?_) (.nil _))
    rwa [mirror_mirror, mirror_mirror]

theorem Merges.runs [LogWeight W] {q : Nat → Nat} (h : a.Merges b q) {i k : Nat}
    {rs : List (Arc W)} (hi : a.Reaches 0 i) (hr : a.Runs i rs k) :
    b.Runs (q i) (rs.map (Arc.move q)) (q k) := by
  induction hr with
  | nil i => exact .nil _
  | cons hj _ ih => exact .cons (h.step hi hj) (ih (hi.step hj))

def word (a : Automaton W) (rs : List (Arc W)) : List Symbol := a.spell (rs.map Arc.dest)

end

-- ---------------------------------------------------------------------------
-- Merged and transposed arcs
-- ---------------------------------------------------------------------------

variable {a b : Automaton ExactWeight}

section
open Classical

variable {q : Nat → Nat} (h : a.Merges b q)
include h

theorem Merges.filter_reached {r' : Arc ExactWeight} (hr' : r' ∈ b.arcs) :
    ((a.arcs.filter fun r => a.Reaches 0 r.src).filter fun r =>
        (q r.src, q r.dest) == (r'.src, r'.dest)) =
      a.arcs.filter fun r => q r.src = r'.src ∧ q r.dest = r'.dest := by
  rw [List.filter_filter]
  refine List.filter_congr fun r _ => ?_
  have hlt : q r.src = r'.src → a.Reaches 0 r.src := fun hs =>
    (h.lt_size_iff _).1 (hs ▸ src_lt_size (mem_arcs_iff.1 hr'))
  rw [Bool.eq_iff_iff, Bool.and_eq_true, beq_iff_eq, Prod.mk.injEq, decide_eq_true_iff,
    decide_eq_true_iff]
  exact ⟨And.left, fun hs => ⟨hs, hlt hs.1⟩⟩

theorem Merges.mass_arc (hw : a.Weighted Proper) (φ : Nat → Nat → ℝ) {r' : Arc ExactWeight}
    (hr' : r' ∈ b.arcs) : φ r'.src r'.dest * r'.weight.mass = weigh (fun i j => φ (q i) (q j))
      ((a.arcs.filter fun r => a.Reaches 0 r.src).filter fun r =>
        (q r.src, q r.dest) == (r'.src, r'.dest)) := by
  obtain ⟨ws, he, hws⟩ := h.weight _ _ _ (mem_arcs_iff.1 hr')
  have proper : ∀ w ∈ ws, w.Proper := by
    intro w hm
    obtain ⟨r, hr, rfl⟩ := List.mem_map.1 (hws.mem_iff.1 hm)
    exact hw r.src _ (mem_arcs_iff.1 (List.mem_of_mem_filter hr))
  rw [he, ExactWeight.mass_logSum proper, (hws.map mass).sum_eq, List.map_map,
    h.filter_reached hr', weigh, ← List.sum_map_mul_left]
  refine congrArg List.sum (List.map_congr_left fun r hr => ?_)
  obtain ⟨hs, hd⟩ := of_decide_eq_true (List.mem_filter.1 hr).2
  rw [hs, hd]
  rfl

/-- Every arc of a reached state goes into one arc of the result. -/
theorem Merges.spread_arcs : (b.arcs.flatMap fun r' =>
    (a.arcs.filter fun r => a.Reaches 0 r.src).filter fun r =>
      (q r.src, q r.dest) == (r'.src, r'.dest)).Perm
    (a.arcs.filter fun r => a.Reaches 0 r.src) := by
  have hn : (b.arcs.map fun r => (r.src, r.dest)).Nodup := Single.nodup_ends h.nodup
  rw [← List.flatMap_map (fun r : Arc ExactWeight => (r.src, r.dest)) (fun k =>
    (a.arcs.filter fun r => a.Reaches 0 r.src).filter fun r => (q r.src, q r.dest) == k)]
  refine flatMap_filter_perm hn fun r hr => ?_
  obtain ⟨hr, hs⟩ := List.mem_filter.1 hr
  have hd : r.dest ∈ a.successors r.src :=
    Automaton.mem_successors_iff.2 ⟨_, mem_arcs_iff.1 hr⟩
  obtain ⟨w, hw⟩ := Automaton.mem_successors_iff.1 (h.step (of_decide_eq_true hs) hd)
  exact List.mem_map.2 ⟨⟨q r.src, q r.dest, w⟩, mem_arcs_iff.2 hw, rfl⟩

/-- A merge adds up the masses of the arcs that become one. -/
theorem Merges.weigh_arcs (hw : a.Weighted Proper) (φ : Nat → Nat → ℝ) : weigh φ b.arcs =
    weigh (fun i j => if a.Reaches 0 i then φ (q i) (q j) else 0) a.arcs :=
  calc weigh φ b.arcs
      = (b.arcs.map fun r' => weigh (fun i j => φ (q i) (q j))
          ((a.arcs.filter fun r => a.Reaches 0 r.src).filter fun r =>
            (q r.src, q r.dest) == (r'.src, r'.dest))).sum :=
        congrArg List.sum (List.map_congr_left fun _ hr' => h.mass_arc hw φ hr')
    _ = weigh (fun i j => φ (q i) (q j)) (a.arcs.filter fun r => a.Reaches 0 r.src) := by
        rw [← weigh_flatMap, weigh_perm _ h.spread_arcs]
    _ = _ := weigh_filter _ _ _

end

-- ---------------------------------------------------------------------------
-- Threads
-- ---------------------------------------------------------------------------

/-- These rows of arcs take all paths from Init to Final, and together they put its
mass on every arc. -/
structure Threads (a : Automaton ExactWeight) (fs : List (List (Arc ExactWeight))) : Prop where
  runs : ∀ f ∈ fs, a.Runs 0 f 1
  complete : ∀ js, a.Path 0 js 1 → ∃ f ∈ fs, f.map Arc.dest = js
  weigh_arcs : ∀ φ, weigh φ a.arcs = weigh φ fs.flatten

theorem Threads.mem {fs : List (List (Arc ExactWeight))} (h : a.Threads fs)
    {r : Arc ExactWeight} (hr : r ∈ fs.flatten) :
    a.Reaches 0 r.src ∧ r.dest ∈ a.successors r.src := by
  obtain ⟨f, hf, hr⟩ := List.mem_flatten.1 hr
  exact (h.runs f hf).mem hr

theorem Merges.threads {q : Nat → Nat} (h : a.Merges b q) (hc : a.Acyclic)
    (hw : a.Weighted Proper) {fs : List (List (Arc ExactWeight))} (hf : a.Threads fs) :
    b.Threads (fs.map (List.map (Arc.move q))) where
  runs f hm := by
    obtain ⟨g, hg, rfl⟩ := List.mem_map.1 hm
    have hr := hf.runs g hg
    have := h.runs (.refl a 0) hr
    rwa [h.init, h.final hr.path.reaches] at this
  complete js hp := by
    have h1 := h.reaches_final_iff.1 hp.reaches
    rw [← h.final h1] at hp
    obtain ⟨is, his, rfl⟩ := h.lift hc h1 hp
    obtain ⟨f, hm, rfl⟩ := hf.complete is his
    refine ⟨_, List.mem_map_of_mem hm, ?_⟩
    rw [List.map_map, List.map_map]
    rfl
  weigh_arcs φ := by
    rw [h.weigh_arcs hw, hf.weigh_arcs, ← List.map_flatten, weigh_move]
    exact weigh_congr fun r hr => if_pos (hf.mem hr).1

theorem Merges.word_move {q : Nat → Nat} (h : a.Merges b q) {f : List (Arc ExactWeight)} {k : Nat}
    (hf : a.Runs 0 f k) : b.word (f.map (Arc.move q)) = a.word f := by
  have moved : (f.map (Arc.move q)).map Arc.dest = (f.map Arc.dest).map q := by
    rw [List.map_map, List.map_map]
    rfl
  rw [word, moved]
  refine h.spell_map fun j hj => ?_
  obtain ⟨r, hr, rfl⟩ := List.mem_map.1 hj
  obtain ⟨h1, h2⟩ := hf.mem hr
  exact h1.step h2

theorem Transposes.threads (h : a.Transposes b) {fs : List (List (Arc ExactWeight))}
    (hf : a.Threads fs) : b.Threads (fs.map fun f => (f.map Arc.turned).reverse) where
  runs f hm := by
    obtain ⟨g, hg, rfl⟩ := List.mem_map.1 hm
    exact h.opposite.runs (hf.runs g hg)
  complete js hp := by
    obtain ⟨is, his, he⟩ := h.opposite.symm.path hp
    obtain ⟨f, hm, rfl⟩ := hf.complete is his
    refine ⟨_, List.mem_map_of_mem hm, ?_⟩
    have back : (0 :: js).map mirror = (f.map Arc.src ++ [1]).reverse := by
      rw [mirror_one, (hf.runs f hm).states] at he
      rw [he, List.reverse_reverse]
    rw [List.reverse_append, List.reverse_singleton, List.singleton_append, List.map_cons] at back
    have tail := congrArg (List.map mirror) (List.cons.inj back).2
    rw [List.map_map] at tail
    have id : mirror ∘ mirror = id := funext mirror_mirror
    rw [id, List.map_id] at tail
    rw [tail, List.map_reverse, List.map_reverse, List.map_map, List.map_map]
    rfl
  weigh_arcs φ := by
    rw [weigh_perm φ h.arcs_perm, weigh_turned, hf.weigh_arcs, ← weigh_turned]
    refine weigh_perm φ ?_
    rw [List.map_flatten, ← List.flatMap_def, ← List.flatMap_def]
    exact List.Perm.flatMap_left _ fun f _ => (List.reverse_perm _).symm

theorem Transposes.word_turned (h : a.Transposes b) {f : List (Arc ExactWeight)}
    (hf : a.Runs 0 f 1) : b.word (f.map Arc.turned).reverse = (a.word f).reverse := by
  have turned : (f.map Arc.turned).reverse.map Arc.dest = ((f.map Arc.src).map mirror).reverse := by
    rw [List.map_reverse, List.map_map, List.map_map]
    rfl
  have ends : a.spell (f.map Arc.src) = a.spell (f.map Arc.dest) := by
    rw [← spell_cons_sentinel Nat.two_pos (f.map Arc.dest), hf.states, spell_append,
      spell_cons_sentinel Nat.one_lt_two]
    exact (List.append_nil _).symm
  rw [word, turned, h.spell_reverse, ends, word]

-- ---------------------------------------------------------------------------
-- Rounds
-- ---------------------------------------------------------------------------

def Carries (a : Automaton ExactWeight) (words : List (List Symbol))
    (loads : List (List ExactWeight)) : Prop :=
  ∃ fs, a.Threads fs ∧ fs.map a.word = words ∧ fs.map (List.map Arc.weight) = loads

variable {words : List (List Symbol)} {loads : List (List ExactWeight)}

theorem Merges.carries {q : Nat → Nat} (h : a.Merges b q) (hc : a.Acyclic)
    (hw : a.Weighted Proper) (ha : a.Carries words loads) : b.Carries words loads := by
  obtain ⟨fs, hf, rfl, rfl⟩ := ha
  refine ⟨_, h.threads hc hw hf, ?_, ?_⟩
  · rw [List.map_map]
    exact List.map_congr_left fun f hm => h.word_move (hf.runs f hm)
  · simp only [List.map_map, Function.comp_def, Arc.move]

theorem Transposes.carries (h : a.Transposes b) (ha : a.Carries words loads) :
    b.Carries (words.map List.reverse) (loads.map List.reverse) := by
  obtain ⟨fs, hf, rfl, rfl⟩ := ha
  refine ⟨_, h.threads hf, ?_, ?_⟩
  · rw [List.map_map, List.map_map]
    exact List.map_congr_left fun f hm => h.word_turned (hf.runs f hm)
  · simp only [List.map_map, Function.comp_def, List.map_reverse, Arc.turned]

theorem Round.carries {l t m : Automaton ExactWeight} {p q : Nat → Nat}
    (h : Round a l t m b p q) (hc : a.Acyclic) (hw : a.Weighted Proper)
    (ha : a.Carries words loads) : b.Carries words loads := by
  have hl := h.left.weighted ExactWeight.sumClosed_proper hw
  have hb := h.back.carries (h.right.carries h.acyclic_turn (h.turn.weighted hl)
    (h.turn.carries (h.left.carries hc hw ha)))
  simp only [List.map_map, Function.comp_def, List.reverse_reverse, List.map_id'] at hb
  exact hb

-- ---------------------------------------------------------------------------
-- Pushing
-- ---------------------------------------------------------------------------

noncomputable def pushedArc (a : Automaton ExactWeight) (r : Arc ExactWeight) : Arc ExactWeight :=
  ⟨r.src, r.dest, a.offsetAt r.src + r.weight⟩

theorem Retraces.runs (h : a.Retraces b) {i k : Nat} {rs : List (Arc ExactWeight)}
    (hi : a.Reaches 0 i) (hr : a.Runs i rs k) : b.Runs i (rs.map a.pushedArc) k := by
  induction hr with
  | nil i => exact .nil i
  | cons hj _ ih => exact .cons ((h.successors _ hi).symm ▸ hj) (ih (hi.step hj))

section
variable (wf : a.WellFormed) (hc : a.Acyclic) (hw : a.Weighted Proper)
include wf hc hw

theorem weigh_pushedArc (φ : Nat → Nat → ℝ) {rs : List (Arc ExactWeight)}
    (hrs : ∀ r ∈ rs, a.Reaches 0 r.src ∧ r.weight.Proper) :
    weigh φ (rs.map a.pushedArc) = weigh (fun i j => φ i j * (a.offsetAt i).mass) rs := by
  rw [weigh, weigh, List.map_map]
  refine congrArg List.sum (List.map_congr_left fun r hr => ?_)
  obtain ⟨hi, hp⟩ := hrs r hr
  have offset := hw.offsetAt ExactWeight.proper_zero (fun _ _ => Proper.add) wf hc hi
  change φ r.src r.dest * (a.offsetAt r.src + r.weight).mass = _
  rw [ExactWeight.mass_add offset hp, mul_assoc]

open Classical in
omit wf hc hw in
theorem Rebuilds.arcs_pushed (h : a.Rebuilds b a.pushedFrom) :
    b.arcs.Perm ((a.arcs.filter fun r => a.Reaches 0 r.src).map a.pushedArc) := by
  refine Automaton.arcs_perm fun i => ?_
  rw [h.arcsFrom, List.filter_map, List.map_map, List.filter_filter]
  by_cases hi : a.Reaches 0 i
  · have row : (a.arcs.filter fun r =>
        ((·.src == i) ∘ a.pushedArc) r && decide (a.Reaches 0 r.src)) =
        a.arcs.filter (·.src == i) := by
      refine List.filter_congr fun r _ => ?_
      rw [Bool.eq_iff_iff, Bool.and_eq_true, decide_eq_true_iff, beq_iff_eq]
      exact ⟨fun hr => beq_iff_eq.1 hr.1, fun hs => ⟨beq_iff_eq.2 hs, hs ▸ hi⟩⟩
    rw [row, pushedFrom_of_reaches hi, ← filter_src_arcs, List.map_map]
    refine List.map_congr_left fun r hr => ?_
    rw [Function.comp, Function.comp, pushedArc, beq_iff_eq.1 (List.mem_filter.1 hr).2]
  · have row : (a.arcs.filter fun r =>
        ((·.src == i) ∘ a.pushedArc) r && decide (a.Reaches 0 r.src)) = [] := by
      refine List.filter_eq_nil_iff.2 fun r _ hr => hi ?_
      rw [Bool.and_eq_true, decide_eq_true_iff] at hr
      obtain ⟨hs, hr⟩ := hr
      exact beq_iff_eq.1 hs ▸ hr
    rw [row, pushedFrom_of_not_reaches hi]
    rfl

open Classical in
theorem Rebuilds.threads_pushed (h : a.Rebuilds b a.pushedFrom)
    {fs : List (List (Arc ExactWeight))} (hf : a.Threads fs)
    (proper : ∀ r ∈ fs.flatten, r.weight.Proper) : b.Threads (fs.map (List.map a.pushedArc)) where
  runs f hm := by
    obtain ⟨g, hg, rfl⟩ := List.mem_map.1 hm
    exact h.retraces_pushed.runs (.refl a 0) (hf.runs g hg)
  complete js hp := by
    obtain ⟨f, hm, rfl⟩ := hf.complete js ((h.retraces_pushed.path_iff (.refl a 0)).1 hp)
    refine ⟨_, List.mem_map_of_mem hm, ?_⟩
    rw [List.map_map]
    rfl
  weigh_arcs φ := by
    rw [weigh_perm φ h.arcs_pushed, weigh_pushedArc wf hc hw, weigh_filter, hf.weigh_arcs,
      ← List.map_flatten, weigh_pushedArc wf hc hw φ fun r hr => ⟨(hf.mem hr).1, proper r hr⟩]
    · exact weigh_congr fun r hr => if_pos (hf.mem hr).1
    · intro r hr
      obtain ⟨hr, hs⟩ := List.mem_filter.1 hr
      exact ⟨of_decide_eq_true hs, hw r.src _ (mem_arcs_iff.1 hr)⟩

end

end Automaton

end LogAutomata
