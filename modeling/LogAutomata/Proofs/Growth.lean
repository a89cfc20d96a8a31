import LogAutomata.Proofs.Remap

/-!
# How automata grow

Every operation starts from the empty automaton, or from one that it was given, and only adds
states to it and links that `arc?` has passed. So what growth keeps holds of every automaton
that is built.
-/

namespace LogAutomata.Automaton

variable {W : Type} [LogWeight W]

/-- `b` is `a` after some states and some arcs that fit have been added to it. -/
inductive Grows (a : Automaton W) : Automaton W → Prop
  | refl : Grows a a
  | addState {b : Automaton W} (id : Option Int) (s : Symbol) : Grows a b → Grows a (b.addState id s)
  | withArcs {b : Automaton W} {arcs : List (Arc W)} :
      Grows a b → (∀ r ∈ arcs, b.Fits r) → Grows a (b.withArcs arcs)

theorem Grows.size_le {a b : Automaton W} (h : a.Grows b) : a.size ≤ b.size := by
  induction h with
  | refl => exact Nat.le_refl _
  | addState id s _ ih =>
    rw [size_addState]
    exact Nat.le_succ_of_le ih
  | withArcs _ _ ih => rwa [size_withArcs]

-- ---------------------------------------------------------------------------
-- Copies
-- ---------------------------------------------------------------------------

namespace Grows

variable {a t : Automaton W} (h : a.Grows t)
include h

theorem remap (b : Automaton W) (r : Remap) : a.Grows (b.remap r t).2 := by
  unfold Automaton.remap
  generalize (#[some r.init, some r.final] : Table) = table
  induction b.interior generalizing table t with
  | nil => exact h
  | cons s ss ih =>
    rw [List.foldl_cons, copyState]
    split
    · exact ih (h.addState _ _) _
    · exact ih h _

theorem carry {b : Automaton W} {starts arrivals : Table} {operation : String}
    {ls : List (Link W)} {arcs : List (Arc W)}
    (hc : b.carry starts arrivals operation t ls = .ok arcs) : a.Grows (t.withArcs arcs) :=
  h.withArcs (fits_of_carry hc)

theorem embed {b c : Automaton W} {operation : String} {r : Remap}
    (he : b.embed operation r t = .ok c) : a.Grows c := by
  simp only [Automaton.embed, bind_ok, pure_ok] at he
  obtain ⟨arcs, hc, rfl⟩ := he
  exact (h.remap b r).carry hc

theorem concatFrom {entry : Endpoint} {as : List (Automaton W)} {b : Automaton W}
    (hc : concatFrom entry as t = .ok b) : a.Grows b := by
  induction as generalizing entry t with
  | nil =>
    cases hc
    exact h
  | cons c rest ih =>
    cases rest with
    | nil => exact h.embed hc
    | cons c' rest =>
      simp only [Automaton.concatFrom, bind_ok] at hc
      obtain ⟨grown, hg, hc⟩ := hc
      exact ih ((h.addState none .nil).embed hg) hc

theorem link {b : Automaton W} {src dest : Endpoint} {w : W} (hl : t.link src dest w = .ok b) :
    a.Grows b := by
  simp only [Automaton.link, bind_ok, pure_ok] at hl
  obtain ⟨r, hr, rfl⟩ := hl
  refine h.withArcs fun s hs => ?_
  rw [List.mem_singleton.1 hs]
  exact (arc?_eq_ok_iff.1 hr).2.2.2

theorem addStates {α : Type} (f : α → Symbol) (xs : List α) :
    a.Grows (xs.foldl (fun t x => t.addState none (f x)) t) := by
  induction xs generalizing t with
  | nil => exact h
  | cons x xs ih => exact ih (h.addState none (f x))

end Grows

-- ---------------------------------------------------------------------------
-- Operations
-- ---------------------------------------------------------------------------

theorem arcs_fit {α : Type} {a : Automaton W} {xs : List α} {arcs : List (Arc W)}
    {f : α → Endpoint × Endpoint × W}
    (h : (xs.mapM fun x => a.arc? (f x).1 (f x).2.1 (f x).2.2) = .ok arcs) :
    ∀ r ∈ arcs, a.Fits r := by
  intro r hr
  obtain ⟨x, -, hx⟩ := mem_of_mapM_eq_ok h hr
  exact (arc?_eq_ok_iff.1 hx).2.2.2

theorem grows_of_linear {b : Automaton W} {labels : List (Option Label)}
    {emissions : List (Option Label × Option Int)} {w : W}
    (h : linear labels emissions w = .ok b) : empty.Grows b := by
  simp only [linear, bind_ok, pure_ok] at h
  obtain ⟨arcs, h, rfl⟩ := h
  exact (Grows.refl.addStates _ labels).withArcs
    (arcs_fit (f := fun p : Nat × Nat => (.inner p.1, .inner p.2, w)) h)

theorem grows_of_transpose {a b : Automaton W} (h : a.transpose = .ok b) : empty.Grows b := by
  simp only [transpose, bind_ok, pure_ok] at h
  obtain ⟨arcs, hc, rfl⟩ := h
  exact (Grows.refl.remap a _).carry hc

theorem grows_of_union {as : List (Automaton W)} {b : Automaton W} (h : union as = .ok b) :
    empty.Grows b :=
  foldlM_induction h .refl fun _ _ _ _ ht he => ht.embed he

theorem grows_of_normalize {a b : Automaton W} (h : a.normalize = .ok b) : empty.Grows b := by
  simp only [normalize, bind_ok, pure_ok] at h
  obtain ⟨arcs, hc, rfl⟩ := h
  exact (Grows.refl.remap a _).carry hc

theorem grows_of_coalesce {a b : Automaton W} (h : a.coalesce = .ok b) : empty.Grows b := by
  simp only [coalesce, bind_ok, pure_ok] at h
  obtain ⟨_, -, arcs, hc, rfl⟩ := h
  exact (Grows.refl.remap a _).withArcs
    (arcs_fit (f := fun e : (Nat × Nat) × W => (.inner e.1.1, .inner e.1.2, e.2)) hc)

theorem grows_of_pushWeights {a b : Automaton W} (h : a.pushWeights = .ok b) : empty.Grows b := by
  simp only [pushWeights, bind_ok, pure_ok] at h
  obtain ⟨_, -, arcs, hc, rfl⟩ := h
  exact (Grows.refl.remap a _).carry hc

theorem Grows.placeNode {a : Automaton W} {placed : Automaton W × Array Nat}
    (h : a.Grows placed.1) (n : Node W) : a.Grows (placeNode placed n).1 := by
  unfold Automaton.placeNode
  split
  · exact h.addState _ _
  · exact h

theorem grows_placeNodes (nodes : List (Node W)) : empty.Grows (placeNodes nodes).1 := by
  unfold placeNodes
  suffices hs : ∀ placed : Automaton W × Array Nat, empty.Grows placed.1 →
      empty.Grows (nodes.tail.foldl placeNode placed).1 from hs _ .refl
  induction nodes.tail with
  | nil => exact fun placed h => h
  | cons n ns ih => exact fun placed h => ih _ (h.placeNode n)

theorem fits_of_enter {target : Automaton W} {places : Array Nat} {x : Node W × Nat}
    {arcs : List (Arc W)} (h : target.enter places x = .ok arcs) : ∀ r ∈ arcs, target.Fits r := by
  intro r hr
  obtain ⟨e, -, he⟩ := mem_of_mapM_eq_ok h hr
  simp only at he
  split at he
  · exact (arc?_eq_ok_iff.1 he).2.2.2
  · cases he

theorem grows_of_replay {g : PrefixGraph W} {b : Automaton W} (h : g.replay = .ok b) :
    empty.Grows b := by
  simp only [PrefixGraph.replay, bind_ok, pure_ok] at h
  obtain ⟨arcs, hm, rfl⟩ := h
  refine (grows_placeNodes _).withArcs fun r hr => ?_
  obtain ⟨row, hrow, hr⟩ := List.mem_flatten.1 hr
  obtain ⟨x, -, hx⟩ := mem_of_mapM_eq_ok hm hrow
  exact fits_of_enter hx r hr

theorem grows_of_leftMerge {a b : Automaton W} (h : a.leftMerge = .ok b) : empty.Grows b := by
  simp only [leftMerge, bind_ok] at h
  obtain ⟨g, -, h⟩ := h
  exact grows_of_replay h

theorem grows_of_minimize {a b : Automaton W} {checked : Bool} (h : a.minimize checked = .ok b) :
    empty.Grows b := by
  simp only [minimize] at h
  split at h
  · simp only [bind_ok] at h
    obtain ⟨_, -, _, -, _, -, h⟩ := h
    exact grows_of_normalize h
  · simp only [bind_ok] at h
    obtain ⟨_, -, _, -, h⟩ := h
    exact grows_of_normalize h

theorem fits_of_advance_arc {a target : Automaton W} {table : Table} {r : Route W} {l : Link W}
    {v : Advance W} {arc : Arc W} (h : a.advance table target r l = .ok v)
    (hv : v.arc? = some arc) : target.Fits arc := by
  simp only [advance, bind_ok] at h
  obtain ⟨dest, -, h⟩ := h
  split at h
  · cases h
    split at hv <;> cases hv
  · simp only [bind_ok, pure_ok] at h
    obtain ⟨src, -, image, -, arc', harc, rfl⟩ := h
    cases hv
    exact (arc?_eq_ok_iff.1 harc).2.2.2

theorem fits_of_elide {a target : Automaton W} {table : Table} {f : Frontier W}
    {arcs : List (Arc W)} (h : a.elide table target f = .ok arcs) : ∀ r ∈ arcs, target.Fits r := by
  induction f using elide.induct a table target generalizing arcs with
  | case1 roots =>
    rw [elide] at h
    cases h
    simp
  | case2 roots r routes e he =>
    rw [elide] at h
    split at h <;> simp_all
  | case3 roots r routes vs hvs ih =>
    rw [elide] at h
    split at h
    · simp_all
    · next vs' hvs' =>
      obtain rfl : vs = vs' := by simpa [hvs] using hvs'
      simp only [bind_ok, pure_ok] at h
      obtain ⟨rest, hr, rfl⟩ := h
      intro s hs
      rcases List.mem_append.1 hs with hs | hs
      · obtain ⟨v, hv, hs⟩ := List.mem_filterMap.1 hs
        obtain ⟨⟨q, l⟩, -, hq⟩ := mem_of_mapM_eq_ok hvs hv
        exact fits_of_advance_arc hq hs
      · exact ih hr s hs

theorem grows_of_removeNilStates {a b : Automaton W} (h : a.removeNilStates = .ok b) :
    empty.Grows b := by
  simp only [removeNilStates, bind_ok, pure_ok] at h
  obtain ⟨arcs, hc, rfl⟩ := h
  exact (Grows.refl.remap a _).withArcs (fits_of_elide hc)

theorem grows_of_compose {a b : Automaton W} {units : List (Option Label × Automaton W)}
    (h : a.compose units = .ok b) : empty.Grows b := by
  simp only [compose, bind_ok, pure_ok] at h
  obtain ⟨asm, hasm, arcs, hc, rfl⟩ := h
  refine Grows.carry ?_ hc
  refine foldlM_induction (P := fun asm => empty.Grows asm.target) hasm .refl
    fun s _ x y hx hy => ?_
  simp only [Assembly.place] at hy
  split at hy
  · cases hy
    exact hx.addState _ _
  · simp only [bind_ok, pure_ok] at hy
    obtain ⟨t, ht, rfl⟩ := hy
    exact ((hx.addState _ _).addState _ _).embed ht

theorem Built.grows {a : Automaton W} (h : a.Built) : Automaton.empty.Grows a := by
  induction h with
  | empty => exact .refl
  | linear h => exact grows_of_linear h
  | addState id s _ ih => exact ih.addState id s
  | link _ h ih => exact ih.link h
  | copy _ h => exact Grows.refl.embed h
  | transpose _ h => exact grows_of_transpose h
  | union _ h => exact grows_of_union h
  | concat _ h => exact Grows.refl.concatFrom h
  | normalize _ h => exact grows_of_normalize h
  | coalesce _ h => exact grows_of_coalesce h
  | minimize _ h => exact grows_of_minimize h
  | removeNilStates _ h => exact grows_of_removeNilStates h
  | compose _ _ h => exact grows_of_compose h
  | pushWeights _ h => exact grows_of_pushWeights h
  | leftMerge _ h => exact grows_of_leftMerge h

theorem Built.withArcs {a : Automaton W} (h : a.Built) {rs : List (Arc W)}
    (fits : ∀ r ∈ rs, a.Fits r) : (a.withArcs rs).Built := by
  induction rs generalizing a with
  | nil => exact h
  | cons r rs ih =>
    have hr := fits r List.mem_cons_self
    have made : a.link (.inner r.src) (.inner r.dest) r.weight = .ok (a.withArcs [r]) := by
      rw [Automaton.link, arc?_eq_ok_iff.2 ⟨rfl, rfl, rfl, hr⟩]
      rfl
    have rest : ∀ s ∈ rs, (a.withArcs [r]).Fits s := by
      intro s hs
      obtain ⟨h1, h2, h3⟩ := fits s (List.mem_cons_of_mem _ hs)
      exact ⟨by rwa [size_withArcs], by rwa [size_withArcs], h3⟩
    exact ih (h.link made) rest

end LogAutomata.Automaton
