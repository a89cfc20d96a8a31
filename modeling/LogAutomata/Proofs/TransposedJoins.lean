import LogAutomata.ExactWeight
import LogAutomata.Proofs.Lineup
import LogAutomata.Proofs.Union

/-!
# Transposed unions and concatenations

Transposition goes through a union: the copies stand where they stood, and their links are
turned around. It turns a concatenation around as well. There the copies stand in reverse, so
the splice states stand elsewhere, the last one where the first one was.
-/

namespace LogAutomata.Automaton

variable {W : Type}

-- ---------------------------------------------------------------------------
-- Links turned around, in whatever order
-- ---------------------------------------------------------------------------

/-- `b` is `a` with all links turned around, those of each state in any order. -/
structure Reverses (a b : Automaton W) : Prop where
  size_eq : b.size = a.size
  symbolAt : ∀ i, 2 ≤ i → b.symbolAt i = a.symbolAt i
  arcs : b.arcs.Perm (a.arcs.map Arc.turned)

variable {a b c d : Automaton W} {as : List (Automaton W)} {T : Automaton W → Automaton W}

theorem Transposes.reverses (h : a.Transposes b) : a.Reverses b :=
  ⟨h.size_eq, h.symbolAt, h.arcs_perm⟩

theorem turned_move {f g : Nat → Nat} (h : ∀ i, mirror (f i) = g (mirror i)) (rs : List (Arc W)) :
    (rs.map (Arc.move f)).map Arc.turned = (rs.map Arc.turned).map (Arc.move g) := by
  rw [List.map_map, List.map_map]
  refine List.map_congr_left fun r _ => ?_
  simp only [Function.comp, Arc.move, Arc.turned, h]

theorem Reverses.move (h : a.Reverses b) {f g : Nat → Nat} (hf : ∀ i, mirror (f i) = g (mirror i)) :
    (b.arcs.map (Arc.move g)).Perm ((a.arcs.map (Arc.move f)).map Arc.turned) := by
  rw [turned_move hf]
  exact h.arcs.map _

variable [LogWeight W]

theorem WellFormed.symbolAt_mirror (h : a.WellFormed) (i : Nat) :
    a.symbolAt (mirror i) = a.symbolAt i := by
  rcases i with _ | _ | i
  · rw [mirror_zero, h.symbolAt_one, h.symbolAt_zero]
  · rw [mirror_one, h.symbolAt_zero, h.symbolAt_one]
  · rfl

theorem Reverses.symbolAt_eq (h : a.Reverses b) (wa : a.WellFormed) (wb : b.WellFormed)
    (i : Nat) : b.symbolAt i = a.symbolAt i := by
  rcases i with _ | _ | i
  · rw [wb.symbolAt_zero, wa.symbolAt_zero]
  · rw [wb.symbolAt_one, wa.symbolAt_one]
  · exact h.symbolAt _ (Nat.le_add_left 2 i)

-- ---------------------------------------------------------------------------
-- Unions
-- ---------------------------------------------------------------------------

theorem mirror_relocate {base : Nat} (hb : 2 ≤ base) (i : Nat) :
    mirror (relocate 0 1 base i) = relocate 0 1 base (mirror i) := by
  rcases i with _ | _ | i
  · rfl
  · rfl
  · exact mirror_of_le (Nat.le_add_right_of_le hb)

theorem Reverses.extends {t t' u u' : Automaton W} (h : t.Reverses t') (ha : a.Reverses b)
    (wt : t.WellFormed) (hu : a.Extends t u (a.arcs.map (Arc.move (relocate 0 1 t.size))))
    (hu' : b.Extends t' u' (b.arcs.map (Arc.move (relocate 0 1 t'.size)))) : u.Reverses u' where
  size_eq := by rw [hu'.size_eq, hu.size_eq, h.size_eq, ha.size_eq]
  symbolAt i hi := by
    rw [hu'.symbolAt_eq, hu.symbolAt_eq, h.size_eq]
    split
    · exact h.symbolAt i hi
    · exact ha.symbolAt _ (Nat.le_add_left 2 _)
  arcs := by
    have new := ha.move (mirror_relocate wt.two_le_size)
    rw [← h.size_eq] at new
    have all := (hu.arcs_perm.map Arc.turned).symm
    rw [List.map_append, ← h.size_eq] at all
    exact hu'.arcs_perm.trans ((h.arcs.append new).trans all)

structure Counterparts (T : Automaton W → Automaton W) (as : List (Automaton W)) : Prop where
  model : ∀ a ∈ as, a.WellFormed
  image : ∀ a ∈ as, (T a).WellFormed
  reverses : ∀ a ∈ as, a.Reverses (T a)

theorem Reverses.foldlM (hT : Counterparts T as) {t t' u v : Automaton W} (h : t.Reverses t')
    (wt : t.WellFormed) (wt' : t'.WellFormed)
    (hu : as.foldlM (fun t a => a.embed "union" {} t) t = .ok u)
    (hv : (as.map T).foldlM (fun t a => a.embed "union" {} t) t' = .ok v) : u.Reverses v := by
  obtain ⟨model, image, reverses⟩ := hT
  induction as generalizing t t' with
  | nil =>
    cases hu
    cases hv
    exact h
  | cons a as ih =>
    obtain ⟨wa, model⟩ := List.forall_mem_cons.1 model
    obtain ⟨wb, image⟩ := List.forall_mem_cons.1 image
    obtain ⟨ha, reverses⟩ := List.forall_mem_cons.1 reverses
    rw [List.foldlM_cons, bind_ok] at hu
    rw [List.map_cons, List.foldlM_cons, bind_ok] at hv
    obtain ⟨s, hs, hu⟩ := hu
    obtain ⟨s', hs', hv⟩ := hv
    have two := wt.two_le_size
    have two' := wt'.two_le_size
    have grown := extends_of_embed wa wt (i := 0) (f := 1) (by omega) (by omega) hs
    have grown' := extends_of_embed wb wt' (i := 0) (f := 1) (by omega) (by omega) hs'
    exact ih (h.extends ha wt grown grown') grown.wellFormed grown'.wellFormed hu hv model image
      reverses

omit [LogWeight W] in
theorem reverses_empty : (empty : Automaton W).Reverses empty where
  size_eq := rfl
  symbolAt _ _ := rfl
  arcs := by
    have none : (empty : Automaton W).arcs = [] := arcs_eq_nil linksFrom_empty
    rw [none]
    exact .refl _

theorem transpose_union (hT : Counterparts T as) :
    ∃ u u' v, union as = .ok u ∧ u.transpose = .ok u' ∧ union (as.map T) = .ok v ∧
      u'.profiles = v.profiles ∧ ∀ i, (u'.linksFrom i).Perm (v.linksFrom i) := by
  obtain ⟨u, part, hu, hunion, -⟩ := union_ok hT.model
  obtain ⟨v, part', hv, hunion', -⟩ := union_ok (List.forall_mem_map.2 hT.image)
  obtain ⟨wu, wv⟩ : u.WellFormed ∧ v.WellFormed := ⟨hunion.wellFormed, hunion'.wellFormed⟩
  obtain ⟨u', hu', wu', turned⟩ := transpose_ok wu
  have reverses : u.Reverses v := reverses_empty.foldlM hT .empty .empty hu hv
  refine ⟨u, u', v, hu, hu', hv, ?_, fun i => ?_⟩
  · rw [profiles_of_transpose wu hu']
    exact (Numbered.of_union hu).profiles_eq (.of_union hv) wu wv reverses.size_eq.symm
      fun i _ => (reverses.symbolAt_eq wu wv i).symm
  · have row := out_perm (turned.arcs_perm.trans reverses.arcs.symm) i
    rw [out_arcs, out_arcs] at row
    rw [wu'.linksFrom_eq, wv.linksFrom_eq]
    exact row.map _

-- ---------------------------------------------------------------------------
-- Concatenations
-- ---------------------------------------------------------------------------

theorem arcsInRow_turned (hT : Counterparts T as) (f : Nat → Nat → Nat) :
    ((arcsInRow as f).map Arc.turned).Perm
      (arcsInRow (as.map T) fun k i => mirror (f k (mirror i))) := by
  obtain ⟨-, -, reverses⟩ := hT
  induction as generalizing f with
  | nil => exact .refl _
  | cons a as ih =>
    obtain ⟨ha, reverses⟩ := List.forall_mem_cons.1 reverses
    rw [List.map_cons, arcsInRow_cons, arcsInRow_cons, List.map_append]
    refine .append (ha.move fun i => ?_).symm (ih _ reverses)
    rw [mirror_mirror]

omit [LogWeight W] in
theorem getElem?_map_reverse {k : Nat} (hk : k < as.length) :
    (as.map T).reverse[k]? = as[as.length - 1 - k]?.map T := by
  rw [List.getElem?_reverse (by rwa [List.length_map]), List.length_map, List.getElem?_map]

theorem hasState_reverse (hT : Counterparts T as) {k i : Nat} :
    HasState (as.map T).reverse k i ↔
      k < as.length ∧ HasState as (as.length - 1 - k) (mirror i) := by
  have inside : ∀ a ∈ as, mirror i < a.size ↔ i < (T a).size := fun a ha => by
    rw [(hT.reverses a ha).size_eq, mirror_lt (hT.model a ha).two_le_size]
  constructor
  · rintro ⟨b, hb, hi⟩
    have hk := (List.getElem?_eq_some_iff.1 hb).1
    rw [List.length_reverse, List.length_map] at hk
    rw [getElem?_map_reverse hk, Option.map_eq_some_iff] at hb
    obtain ⟨a, ha, rfl⟩ := hb
    exact ⟨hk, a, ha, (inside a (List.mem_of_getElem? ha)).2 hi⟩
  · rintro ⟨hk, a, ha, hi⟩
    refine ⟨T a, ?_, (inside a (List.mem_of_getElem? ha)).1 hi⟩
    rw [getElem?_map_reverse hk, ha, Option.map_some]

theorem sameState_mirror {n k i l j : Nat} (hk : k < n) (hl : l < n) :
    SameState (n - 1 - k) (mirror i) (n - 1 - l) (mirror j) ↔ SameState k i l j := by
  have zero : ∀ m, mirror m = 0 ↔ m = 1 := fun m => by rw [← mirror_one, mirror_inj]
  have one : ∀ m, mirror m = 1 ↔ m = 0 := fun m => by rw [← mirror_zero, mirror_inj]
  rw [SameState, SameState, mirror_inj, zero, zero, one, one]
  omega

theorem LinesUp.reverse {f : Nat → Nat → Nat} (h : c.LinesUp as f) (hT : Counterparts T as)
    (hc : c.Reverses d) (wd : d.WellFormed) :
    d.LinesUp (as.map T).reverse fun k i => mirror (f (as.length - 1 - k) (mirror i)) := by
  have wc := h.wellFormed
  have pos := h.length_pos
  have two := wc.two_le_size
  constructor
  case wellFormed => exact wd
  case models =>
    intro b hb
    obtain ⟨a, ha, rfl⟩ := List.mem_map.1 (List.mem_reverse.1 hb)
    exact hT.image a ha
  case arcs =>
    refine hc.arcs.trans ((h.arcs.map _).trans ((arcsInRow_turned hT f).trans ?_))
    refine .trans (.of_eq (arcsInRow_congr fun k i hk => ?_)) arcsInRow_reverse.symm
    have := hk.lt_length
    rw [List.length_map] at this ⊢
    rw [show as.length - 1 - (as.length - 1 - k) = k by omega]
  case lt_size =>
    intro k i hk
    rw [hc.size_eq, mirror_lt two]
    exact h.lt_size _ _ ((hasState_reverse hT).1 hk).2
  case onto =>
    intro j hj
    rw [hc.size_eq] at hj
    obtain ⟨k, i, hk, hf⟩ := h.onto (mirror j) ((mirror_lt two).2 hj)
    have hlt := hk.lt_length
    have back : as.length - 1 - (as.length - 1 - k) = k := by omega
    refine ⟨as.length - 1 - k, mirror i, (hasState_reverse hT).2 ⟨by omega, ?_⟩, ?_⟩
    · rwa [back, mirror_mirror]
    · rw [back, mirror_mirror, hf, mirror_mirror]
  case symbolAt =>
    intro k b i hb hi
    obtain ⟨hk, -⟩ := (hasState_reverse hT).1 ⟨b, hb, hi⟩
    rw [getElem?_map_reverse hk, Option.map_eq_some_iff] at hb
    obtain ⟨a, ha, rfl⟩ := hb
    have hm := List.mem_of_getElem? ha
    have wa := hT.model a hm
    have hlt : mirror i < a.size := by
      rw [mirror_lt wa.two_le_size, ← (hT.reverses a hm).size_eq]
      exact hi
    rw [wd.symbolAt_mirror, hc.symbolAt_eq wc wd, h.symbolAt _ a _ ha hlt, wa.symbolAt_mirror,
      (hT.reverses a hm).symbolAt_eq wa (hT.image a hm)]
  case init =>
    change mirror (f (as.length - 1) 1) = 0
    rw [h.final, mirror_one]
  case final =>
    rw [List.length_reverse, List.length_map, Nat.sub_self, mirror_one, h.init, mirror_zero]
  case meet =>
    intro k i l j hk hl
    obtain ⟨hkn, hk⟩ := (hasState_reverse hT).1 hk
    obtain ⟨hln, hl⟩ := (hasState_reverse hT).1 hl
    rw [mirror_inj, h.meet _ _ _ _ hk hl, sameState_mirror hkn hln]

theorem transpose_concat (hT : Counterparts T as) (hne : as ≠ []) :
    ∃ c c' d, concat as = .ok c ∧ c.transpose = .ok c' ∧ concat (as.map T).reverse = .ok d ∧
      (∀ s ∈ splices as 2, s < c.size ∧ c.isNil s = true) ∧
      ∃ r : Renaming c' d, r.KeepsArcs ∧
        (splices as 2).map r.image = (splices (as.map T).reverse 2).reverse := by
  have turned : ∀ b ∈ (as.map T).reverse, b.WellFormed := fun b hb =>
    List.forall_mem_map.2 hT.image b (List.mem_reverse.1 hb)
  obtain ⟨c, f, hc, lc, met⟩ := linesUp_concat hne hT.model
  obtain ⟨d, g, hd, ld, met'⟩ := linesUp_concat (by simpa using hne) turned
  obtain ⟨c', hc', wc', h⟩ := transpose_ok lc.wellFormed
  obtain ⟨r, keeps, image⟩ := (lc.reverse hT h.reverses wc').exists_renaming ld
  have length : (as.map T).reverse.length = as.length := by
    rw [List.length_reverse, List.length_map]
  refine ⟨c, c', d, hc, hc', hd, lc.isNil_splice met, r, keeps, List.ext_getElem? fun k => ?_⟩
  by_cases hk : k + 1 < as.length
  · -- the same state is Init of one copy, Final of the one before it, and the other way around
    obtain ⟨joint, splice⟩ := lc.joint hk
    have last : (splices (as.map T).reverse 2).length - 1 - k + 1 < (as.map T).reverse.length := by
      rw [length_splices, length]
      omega
    have place := image _ 1 (ld.hasState_of_lt_two (Nat.lt_of_succ_lt last) Nat.one_lt_two)
    rw [List.getElem?_map, met k hk, Option.map_some, List.getElem?_reverse, met' _ last, ← place]
    · have next : as.length - 1 - ((splices (as.map T).reverse 2).length - 1 - k) = k + 1 := by
        rw [length_splices, length]
        omega
      rw [next, mirror_one, ← joint, mirror_of_le splice]
    · rw [length_splices, length]
      omega
  · rw [List.getElem?_eq_none, List.getElem?_eq_none]
    · rw [List.length_reverse, length_splices, length]
      omega
    · rw [List.length_map, length_splices]
      omega

theorem exists_counterparts (wf : ∀ a ∈ as, a.WellFormed) :
    ∃ T, as.mapM transpose = .ok (as.map T) ∧ Counterparts T as := by
  have turns : ∀ a : Automaton W, a.WellFormed →
      ∃ b, a.transpose = .ok b ∧ b.WellFormed ∧ a.Transposes b := fun a => transpose_ok
  have : Nonempty (Automaton W) := ⟨empty⟩
  choose! T ok image turned using turns
  exact ⟨T, mapM_ok fun a ha => ok a (wf a ha), wf, fun a ha => image a (wf a ha),
    fun a ha => (turned a (wf a ha)).reverses⟩

/-- Transposing a union gives the union of the transposed automata, with the same states in the
same order, and transposing a concatenation the concatenation of the transposed automata in
reverse, up to isomorphism. The splice states, which are nil, are those of the other from the
last to the first. -/
theorem transpose_joins (hne : as ≠ []) (built : ∀ a ∈ as, a.Built) :
    ∃ ts, as.mapM transpose = .ok ts ∧
      (∃ u u' v, union as = .ok u ∧ u.transpose = .ok u' ∧ union ts = .ok v ∧
        u'.profiles = v.profiles ∧ ∀ i, (u'.linksFrom i).Perm (v.linksFrom i)) ∧
      ∃ c c' d, concat as = .ok c ∧ c.transpose = .ok c' ∧ concat ts.reverse = .ok d ∧
        (∀ s ∈ splices as 2, s < c.size ∧ c.isNil s = true) ∧
        ∃ r : Renaming c' d, r.KeepsArcs ∧
          (splices as 2).map r.image = (splices ts.reverse 2).reverse := by
  obtain ⟨T, hts, hT⟩ := exists_counterparts fun a ha => (built a ha).wellFormed
  exact ⟨as.map T, hts, transpose_union hT, transpose_concat hT hne⟩

-- ---------------------------------------------------------------------------
-- Ways back to Init
-- ---------------------------------------------------------------------------

def forked : Automaton ExactWeight :=
  (empty.addState none ⟨none, some (.text "a")⟩).withArcs
    [⟨0, 1, .finite 0⟩, ⟨0, 2, .finite 1⟩, ⟨2, 1, .finite (-1)⟩, ⟨2, 0, .impossible⟩,
      ⟨1, 0, .finite (1 + 1)⟩]

theorem forked_built : forked.Built := by
  refine Built.withArcs (.addState _ _ .empty) fun r hr => ?_
  simp only [List.mem_cons, List.not_mem_nil, or_false] at hr
  rcases hr with rfl | rfl | rfl | rfl | rfl <;> exact ⟨by decide, by decide, rfl⟩

theorem transpose_joins_forked :
    ∃ ts, [forked, forked, empty].mapM transpose = .ok ts ∧
      (∃ u u' v, union [forked, forked, empty] = .ok u ∧ u.transpose = .ok u' ∧ union ts = .ok v ∧
        u'.profiles = v.profiles ∧ ∀ i, (u'.linksFrom i).Perm (v.linksFrom i)) ∧
      ∃ c c' d, concat [forked, forked, empty] = .ok c ∧ c.transpose = .ok c' ∧
        concat ts.reverse = .ok d ∧ (∀ s ∈ [2, 4], s < c.size ∧ c.isNil s = true) ∧
        ∃ r : Renaming c' d, r.KeepsArcs ∧ [2, 4].map r.image = (splices ts.reverse 2).reverse :=
  transpose_joins (List.cons_ne_nil _ _) (by simp [forked_built, Built.empty])

end LogAutomata.Automaton
