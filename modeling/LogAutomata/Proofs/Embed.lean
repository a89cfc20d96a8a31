import LogAutomata.Proofs.Refusals
import LogAutomata.Proofs.WellFormed

/-!
# Copies with links

Most operations copy all interior states of an automaton behind those of a
target and then carry arcs along the table. In a well-formed automaton no step
of this fails, and the result is the target with the copies and the moved arcs.
-/

namespace LogAutomata

def Arc.move {W : Type} (image : Nat → Nat) (r : Arc W) : Arc W :=
  ⟨image r.src, image r.dest, r.weight⟩

theorem map_move_id {W : Type} {f : Nat → Nat} (h : ∀ i, f i = i) (rs : List (Arc W)) :
    rs.map (Arc.move f) = rs := by
  obtain rfl : f = id := funext h
  exact List.map_id rs

namespace Automaton

-- ---------------------------------------------------------------------------
-- Arcs out of a state
-- ---------------------------------------------------------------------------

section
variable {W : Type}

def out (rs : List (Arc W)) (i : Nat) : List (Nat × W) :=
  (rs.filter (·.src == i)).map fun r => (r.dest, r.weight)

theorem out_append (rs ss : List (Arc W)) (i : Nat) : out (rs ++ ss) i = out rs i ++ out ss i := by
  rw [out, List.filter_append, List.map_append]
  rfl

theorem out_arcs (a : Automaton W) (i : Nat) : out a.arcs i = a.arcsFrom i := filter_src_arcs a i

theorem out_perm {rs ss : List (Arc W)} (h : rs.Perm ss) (i : Nat) : (out rs i).Perm (out ss i) :=
  (h.filter _).map _

theorem out_move {f : Nat → Nat} {rs : List (Arc W)} {i : Nat}
    (inj : ∀ r ∈ rs, f r.src = f i → r.src = i) :
    out (rs.map (Arc.move f)) (f i) = (out rs i).map fun e => (f e.1, e.2) := by
  have same : rs.filter ((·.src == f i) ∘ Arc.move f) = rs.filter (·.src == i) := by
    refine List.filter_congr fun r hr => ?_
    rw [Bool.eq_iff_iff, Function.comp, beq_iff_eq, beq_iff_eq]
    exact ⟨inj r hr, congrArg f⟩
  rw [out, out, List.filter_map, same, List.map_map, List.map_map]
  rfl

theorem out_move_of_ne {f : Nat → Nat} {k : Nat} (hk : ∀ i, f i ≠ k) (rs : List (Arc W)) :
    out (rs.map (Arc.move f)) k = [] := by
  have none : (rs.map (Arc.move f)).filter (·.src == k) = [] := by
    refine List.filter_eq_nil_iff.2 fun r hr => ?_
    obtain ⟨s, -, rfl⟩ := List.mem_map.1 hr
    rw [beq_iff_eq]
    exact hk s.src
  rw [out, none]
  rfl

/-- Of the order of arcs only that of arcs from the same state is seen. -/
theorem out_move_congr {f : Nat → Nat} (inj : ∀ i j, f i = f j → i = j) {rs ss : List (Arc W)}
    (same : ∀ i, out rs i = out ss i) (k : Nat) :
    out (rs.map (Arc.move f)) k = out (ss.map (Arc.move f)) k := by
  by_cases hk : ∃ i, f i = k
  · obtain ⟨i, rfl⟩ := hk
    rw [out_move fun r _ => inj r.src i, out_move fun r _ => inj r.src i, same]
  · have hk : ∀ i, f i ≠ k := fun i hi => hk ⟨i, hi⟩
    rw [out_move_of_ne hk, out_move_of_ne hk]

end

-- ---------------------------------------------------------------------------
-- Copies
-- ---------------------------------------------------------------------------

variable {W : Type} [LogWeight W]

theorem WellFormed.arcsFrom_addState {a : Automaton W} (ha : a.WellFormed) (id : Option Int)
    (s : Symbol) (i : Nat) : (a.addState id s).arcsFrom i = a.arcsFrom i := by
  rw [arcsFrom, arcsFrom, linksFrom_addState]
  refine List.filterMap_congr fun l hl => ?_
  obtain ⟨j, hj⟩ := Option.isSome_iff_exists.1 (ha.owns_dest i l hl)
  obtain ⟨hd, hlt⟩ := position?_eq_some_iff.1 hj
  have : (a.addState id s).position? l.dest = some j :=
    position?_eq_some_iff.2 ⟨hd, by rw [size_addState]; exact Nat.lt_succ_of_lt hlt⟩
  rw [hj, this]

/-- `b` is `target` with copies of the interior states of `a` and these arcs. -/
structure Extends (a target b : Automaton W) (arcs : List (Arc W)) : Prop where
  wellFormed : b.WellFormed
  size_eq : b.size = target.size + (a.size - 2)
  symbolAt_of_lt : ∀ i, i < target.size → b.symbolAt i = target.symbolAt i
  symbolAt_add : ∀ i, b.symbolAt (target.size + i) = a.symbolAt (i + 2)
  arcsFrom : ∀ i, b.arcsFrom i =
    target.arcsFrom i ++ (arcs.filter (·.src == i)).map fun r => (r.dest, r.weight)

theorem Extends.symbolAt_eq {a t b : Automaton W} {rs : List (Arc W)} (h : a.Extends t b rs)
    (k : Nat) : b.symbolAt k = if k < t.size then t.symbolAt k else a.symbolAt (k - t.size + 2) := by
  split
  · next hk => exact h.symbolAt_of_lt k hk
  · next hk =>
    rw [← h.symbolAt_add, Nat.add_sub_cancel' (Nat.not_lt.1 hk)]

theorem Extends.arcs_perm {a target b : Automaton W} {rs : List (Arc W)}
    (h : a.Extends target b rs) : b.arcs.Perm (target.arcs ++ rs) :=
  Automaton.arcs_perm fun i => by
    rw [h.arcsFrom, List.filter_append, List.map_append, filter_src_arcs]

theorem Extends.out_arcs {a target b : Automaton W} {rs : List (Arc W)}
    (h : a.Extends target b rs) (k : Nat) : out b.arcs k = out (target.arcs ++ rs) k := by
  rw [Automaton.out_arcs, h.arcsFrom, out_append, Automaton.out_arcs]
  rfl

theorem carry_extends {a target : Automaton W} (ht : target.WellFormed) (r : Remap)
    (keeps : ∀ s, r.keep s = true) {init final : Nat} (hi : r.init = .inner init)
    (hf : r.final = .inner final) (hinit : init < target.size) (hfinal : final < target.size)
    (arcs : List (Arc W)) (fits : ∀ s ∈ arcs, a.Fits s) (operation : String) :
    ∃ b, (a.carry (a.remap r target).1 (a.remap r target).1 operation (a.remap r target).2
        (arcs.map Arc.toLink)).map (a.remap r target).2.withArcs = .ok b ∧
      Extends a target b (arcs.map (Arc.move (relocate init final target.size))) := by
  have sends := remap_sends keeps a target hi hf
  have size := remap_size keeps a target
  have moved : ∀ s ∈ arcs,
      (a.remap r target).2.Fits (s.move (relocate init final target.size)) := by
    intro s hs
    obtain ⟨h1, h2, h3⟩ := fits s hs
    refine ⟨?_, ?_, h3⟩
    · rw [size]
      exact relocate_lt_size a hinit hfinal h1
    · rw [size]
      exact relocate_lt_size a hinit hfinal h2
  have fits' : ∀ s ∈ arcs.map (Arc.move (relocate init final target.size)),
      (a.remap r target).2.Fits s := by
    intro s hs
    obtain ⟨s', hs', rfl⟩ := List.mem_map.1 hs
    exact moved s' hs'
  have carried := carry_ok sends sends operation
    (fun s hs => ⟨(fits s hs).src, (fits s hs).dest⟩) moved
  refine ⟨(a.remap r target).2.withArcs (arcs.map (Arc.move (relocate init final target.size))),
    ?_, (ht.remap a r).withArcs fits', ?_, fun i hi => ?_, fun i => ?_, fun i => ?_⟩
  · rw [carried]
    rfl
  · rw [size_withArcs, size]
  · rw [symbolAt_withArcs, remap_symbolAt_of_lt keeps a hi]
  · rw [symbolAt_withArcs, remap_symbolAt_add keeps]
  · rw [arcsFrom_withArcs fun s hs => ⟨(fits' s hs).src, (fits' s hs).dest⟩, Automaton.arcsFrom,
      remap_linksFrom]
    congr 1
    refine List.filterMap_congr fun l hl => ?_
    obtain ⟨j, hj⟩ := Option.isSome_iff_exists.1 (ht.owns_dest i l hl)
    obtain ⟨hd, hlt⟩ := position?_eq_some_iff.1 hj
    have hlt' : j < (a.remap r target).2.size := by
      rw [size]
      exact Nat.lt_add_right _ hlt
    rw [hj, position?_eq_some_iff.2 ⟨hd, hlt'⟩]

theorem WellFormed.fits {a : Automaton W} (h : a.WellFormed) {r : Arc W} (hr : r ∈ a.arcs) :
    a.Fits r :=
  ⟨src_lt_size (mem_arcs_iff.1 hr), dest_lt_size (mem_arcs_iff.1 hr),
    h.weight_defined (mem_arcs_iff.1 hr)⟩

theorem embed_ok {a target : Automaton W} (ha : a.WellFormed) (ht : target.WellFormed) {r : Remap}
    (keeps : ∀ s, r.keep s = true) {init final : Nat} (hi : r.init = .inner init)
    (hf : r.final = .inner final) (hinit : init < target.size) (hfinal : final < target.size)
    (operation : String) :
    ∃ b, a.embed operation r target = .ok b ∧
      Extends a target b (a.arcs.map (Arc.move (relocate init final target.size))) := by
  obtain ⟨b, hb, h⟩ := carry_extends ht r keeps hi hf hinit hfinal a.arcs (fun s hs => ha.fits hs)
    operation
  refine ⟨b, ?_, h⟩
  rw [embed, ha.links_eq]
  exact hb

section
variable {a t g : Automaton W} {i f : Nat} {operation : String}

theorem embed_between (ha : a.WellFormed) (ht : t.WellFormed) (hi : i < t.size) (hf : f < t.size)
    (operation : String) :
    ∃ g, a.embed operation { init := .inner i, final := .inner f } t = .ok g ∧
      a.Extends t g (a.arcs.map (Arc.move (relocate i f t.size))) :=
  embed_ok ha ht (r := { init := .inner i, final := .inner f }) (fun _ => rfl) rfl rfl hi hf
    operation

theorem extends_of_embed (ha : a.WellFormed) (ht : t.WellFormed) (hi : i < t.size)
    (hf : f < t.size)
    (hg : a.embed operation { init := .inner i, final := .inner f } t = .ok g) :
    a.Extends t g (a.arcs.map (Arc.move (relocate i f t.size))) := by
  obtain ⟨g', hg', h⟩ := embed_between ha ht hi hf operation
  obtain rfl : g = g' := Except.ok.inj (hg.symm.trans hg')
  exact h

end

/-- `b` has the states of `a` in their places, and arcs out of them row by row. -/
structure Rebuilds (a b : Automaton W) (row : Nat → List (Nat × W)) : Prop where
  wellFormed : b.WellFormed
  size_eq : b.size = a.size
  symbolAt : ∀ i, b.symbolAt i = a.symbolAt i
  arcsFrom : ∀ i, b.arcsFrom i = row i

theorem rebuilds_withArcs {a : Automaton W} (ha : a.WellFormed) {arcs : List (Arc W)}
    (fits : ∀ r ∈ arcs, a.Fits r) :
    a.Rebuilds ((a.remap {} empty).2.withArcs arcs) fun i =>
      (arcs.filter (·.src == i)).map fun r => (r.dest, r.weight) := by
  have keeps : ∀ s, ({} : Remap).keep s = true := fun _ => rfl
  have size : (a.remap {} empty).2.size = a.size := by
    rw [remap_size keeps, size_empty]
    exact Nat.add_sub_cancel' ha.two_le_size
  have fits' : ∀ r ∈ arcs, (a.remap {} empty).2.Fits r := by
    intro r hr
    obtain ⟨h1, h2, h3⟩ := fits r hr
    exact ⟨size ▸ h1, size ▸ h2, h3⟩
  have wf := (WellFormed.empty.remap a {}).withArcs fits'
  refine ⟨wf, by rw [size_withArcs, size], fun i => ?_, fun i => ?_⟩
  · rcases i with _ | _ | i
    · rw [wf.symbolAt_zero, ha.symbolAt_zero]
    · rw [wf.symbolAt_one, ha.symbolAt_one]
    · have := remap_symbolAt_add keeps a empty i
      rwa [size_empty, Nat.add_comm 2 i, ← symbolAt_withArcs _ arcs] at this
  · have none : (a.remap {} empty).2.arcsFrom i = [] := by simp [arcsFrom]
    rw [arcsFrom_withArcs fun r hr => ⟨(fits' r hr).src, (fits' r hr).dest⟩, none,
      List.nil_append]

/-- Copying into the empty automaton, with the sentinels in their places. -/
theorem rebuild_ok {a : Automaton W} (ha : a.WellFormed) {is : List Nat} (hn : is.Nodup)
    (row : Nat → List (Nat × W))
    (fits : ∀ i, ∀ e ∈ row i, i ∈ is ∧ i < a.size ∧ e.1 < a.size ∧ isUndefined e.2 = false)
    (operation : String) :
    ∃ b, (a.carry (a.remap {} empty).1 (a.remap {} empty).1 operation (a.remap {} empty).2
        ((arcsOf is row).map Arc.toLink)).map (a.remap {} empty).2.withArcs = .ok b ∧
      a.Rebuilds b row := by
  have hfits : ∀ r ∈ arcsOf is row, a.Fits r := by
    intro r hr
    obtain ⟨-, h1, h2, h3⟩ := fits r.src _ (mem_arcsOf_iff.1 hr).2
    exact ⟨h1, h2, h3⟩
  have h := rebuilds_withArcs ha hfits
  have sends : (a.remap {} empty).1.Sends a.size id := by
    have := remap_sends (r := {}) (fun _ => rfl) a empty rfl rfl
    rwa [size_empty, funext relocate_two] at this
  have size : (a.remap {} empty).2.size = a.size := by
    have := h.size_eq
    rwa [size_withArcs] at this
  have fits' : ∀ r ∈ arcsOf is row, (a.remap {} empty).2.Fits ⟨id r.src, id r.dest, r.weight⟩ :=
    fun r hr => ⟨size ▸ (hfits r hr).src, size ▸ (hfits r hr).dest, (hfits r hr).defined⟩
  have carried := carry_ok sends sends operation
    (fun r hr => ⟨(hfits r hr).src, (hfits r hr).dest⟩) fits'
  have stay : (arcsOf is row).map (fun r => ⟨id r.src, id r.dest, r.weight⟩) = arcsOf is row :=
    List.map_id' _
  rw [stay] at carried
  refine ⟨_, congrArg _ carried, h.wellFormed, h.size_eq, h.symbolAt, fun i => ?_⟩
  rw [h.arcsFrom, filter_src_arcsOf hn]
  split
  · rfl
  · next hi =>
    cases hr : row i with
    | nil => rfl
    | cons e es => exact absurd (fits i e (by simp [hr])).1 hi

/-- Where all ends are inside, only a weight can be refused. -/
theorem rebuild_undefined (a : Automaton W) {is : List Nat} {row : Nat → List (Nat × W)}
    (inside : ∀ i ∈ is, ∀ e ∈ row i, i < a.size ∧ e.1 < a.size)
    (h : ∃ i ∈ is, ∃ e ∈ row i, isUndefined e.2 = true) (operation : String) : ∃ src dest,
      (a.carry (a.remap {} empty).1 (a.remap {} empty).1 operation (a.remap {} empty).2
        ((arcsOf is row).map Arc.toLink)).map (a.remap {} empty).2.withArcs =
          .error (.undefinedWeight src dest) := by
  have lands : (a.remap {} empty).2.Lands (a.remap {} empty).1 a.size :=
    lands_remap (fun _ => rfl) a rfl rfl Nat.two_pos Nat.one_lt_two
  have owned : ∀ l ∈ (arcsOf is row).map Arc.toLink, ¬a.Foreign l := by
    intro l hl
    obtain ⟨r, hr, rfl⟩ := List.mem_map.1 hl
    obtain ⟨hi, he⟩ := mem_arcsOf_iff.1 hr
    obtain ⟨hs, hd⟩ := inside r.src hi _ he
    simp [Foreign, Arc.toLink, owns, hs, hd]
  obtain ⟨i, hi, e, he, lost⟩ := h
  have held : Arc.toLink ⟨i, e.1, e.2⟩ ∈ (arcsOf is row).map Arc.toLink :=
    List.mem_map_of_mem (mem_arcsOf_iff.2 ⟨hi, he⟩)
  obtain ⟨src, dest, refused⟩ :=
    carry_undefined lands lands owned ⟨_, held, lost⟩
  exact ⟨src, dest, congrArg (Except.map _) refused⟩

end Automaton

end LogAutomata
