import LogAutomata.Proofs.Trips

/-!
# All legs

From Init on, the rounds of the elision make every leg of every root once, and no
other trips. A frontier knows trips of which none is a part of another one; what comes
from it are the legs that begin with one of its trips, and all legs of the roots that
are still to be found.
-/

namespace LogAutomata.Automaton

variable {W : Type} {a : Automaton W}

-- ---------------------------------------------------------------------------
-- What a round collects
-- ---------------------------------------------------------------------------

/-- The roots and the trips after these outcomes, the last trip first. -/
structure Collects (a : Automaton W) (us : List Trip) (roots : List Nat) (ts : List Trip)
    (roots' : List Nat) (ts' : List Trip) : Prop where
  mem_roots : ∀ i, i ∈ roots' ↔ i ∈ roots ∨ ∃ u ∈ us, a.isNil (a.tip u) = false ∧ a.tip u = i
  mem : ∀ t, t ∈ ts' ↔ t ∈ ts ∨
    (t ∈ us ∧ a.isNil (a.tip t) = true ∧ (a.entered t.places).Nodup) ∨
    t.places = [] ∧ t.root ∉ roots ∧ t.root ∈ roots'
  nodup : us.Nodup → ts.Nodup → (∀ u ∈ us, u ∉ ts ∧ u.places ≠ []) →
    (∀ t ∈ ts, t.places = [] → t.root ∈ roots) → ts'.Nodup

namespace Collects

variable {u : Trip} {us : List Trip} {roots roots' roots'' : List Nat} {ts ts' ts'' : List Trip}

theorem nil (roots : List Nat) (ts : List Trip) : a.Collects [] roots ts roots ts where
  mem_roots := by simp
  mem t := by
    constructor
    · exact .inl
    · rintro (h | ⟨h, -⟩ | ⟨-, h, h'⟩)
      · exact h
      · cases h
      · exact absurd h' h
  nodup _ h _ _ := h

theorem passed (hn : a.isNil (a.tip u) = true) (hd : (a.entered u.places).Nodup) :
    a.Collects [u] roots ts roots (u :: ts) where
  mem_roots := by simp [hn]
  mem t := by grind
  nodup _ ht hu _ := List.nodup_cons.2 ⟨(hu u List.mem_cons_self).1, ht⟩

theorem cut (hn : a.isNil (a.tip u) = true) (hd : ¬(a.entered u.places).Nodup) :
    a.Collects [u] roots ts roots ts where
  mem_roots := by simp [hn]
  mem t := by grind
  nodup _ ht _ _ := ht

theorem known (hn : a.isNil (a.tip u) = false) (hr : a.tip u ∈ roots) :
    a.Collects [u] roots ts roots ts where
  mem_roots := by grind
  mem t := by grind
  nodup _ ht _ _ := ht

theorem found (hn : a.isNil (a.tip u) = false) (hr : a.tip u ∉ roots) :
    a.Collects [u] roots ts (a.tip u :: roots) (⟨a.tip u, []⟩ :: ts) where
  mem_roots := by grind
  mem t := by grind [Trip]
  nodup _ ht _ hs := by
    refine List.nodup_cons.2 ⟨fun hm => hr (hs _ hm rfl), ht⟩

theorem cons (h : a.Collects [u] roots ts roots' ts') (h' : a.Collects us roots' ts' roots'' ts'') :
    a.Collects (u :: us) roots ts roots'' ts'' where
  mem_roots i := by
    rw [h'.mem_roots, h.mem_roots]
    simp [or_assoc]
  mem t := by
    have h1 := h.mem_roots
    have h2 := h'.mem_roots
    rw [h'.mem, h.mem]
    grind
  nodup hu ht hf hs := by
    have h1 := h.mem
    have h2 := h.mem_roots
    refine h'.nodup (List.nodup_cons.1 hu).2 (h.nodup (List.nodup_singleton u) ht ?_ hs) ?_ ?_
    · grind
    · grind
    · grind

end Collects

variable [LogWeight W]

theorem take_outcome (image : Nat → Nat) (u : Trip) (roots : List Nat) (ts : List Trip) :
    ∃ roots' ts', Frontier.take ⟨roots, ts.map a.routeOf⟩ (a.outcome image u) =
      ⟨roots', ts'.map a.routeOf⟩ ∧ a.Collects [u] roots ts roots' ts' := by
  rw [outcome]
  by_cases hn : a.isNil (a.tip u) = true
  · rw [if_pos hn]
    by_cases hd : (a.entered u.places).Nodup
    · rw [if_pos hd]
      exact ⟨roots, u :: ts, rfl, .passed hn hd⟩
    · rw [if_neg hd]
      exact ⟨roots, ts, rfl, .cut hn hd⟩
  · have hk : a.isNil (a.tip u) = false := by simpa using hn
    rw [if_neg hn]
    by_cases hr : a.tip u ∈ roots
    · exact ⟨roots, ts, if_pos hr, .known hk hr⟩
    · exact ⟨a.tip u :: roots, ⟨a.tip u, []⟩ :: ts, if_neg hr, .found hk hr⟩

theorem foldl_take (image : Nat → Nat) (us : List Trip) (roots : List Nat) (ts : List Trip) :
    ∃ roots' ts', (us.map (a.outcome image)).foldl Frontier.take ⟨roots, ts.map a.routeOf⟩ =
      ⟨roots', ts'.map a.routeOf⟩ ∧ a.Collects us roots ts roots' ts' := by
  induction us generalizing roots ts with
  | nil => exact ⟨roots, ts, rfl, .nil roots ts⟩
  | cons u us ih =>
    obtain ⟨roots', ts', he, h⟩ := take_outcome (a := a) image u roots ts
    obtain ⟨roots'', ts'', he', h'⟩ := ih roots' ts'
    exact ⟨roots'', ts'', by rw [List.map_cons, List.foldl_cons, he, he'], h.cons h'⟩

/-- Trips are collected with the last one first, and the frontier has them in their order. -/
theorem exists_following (image : Nat → Nat) (us : List Trip) (roots : List Nat) :
    ∃ roots' ts', Frontier.following roots (us.map (a.outcome image)) =
      ⟨roots', ts'.reverse.map a.routeOf⟩ ∧ a.Collects us roots [] roots' ts' := by
  obtain ⟨roots', ts', he, hc⟩ := foldl_take (a := a) image us roots []
  have start : (⟨roots, []⟩ : Frontier W) = ⟨roots, ([] : List Trip).map a.routeOf⟩ := rfl
  refine ⟨roots', ts', ?_, hc⟩
  rw [Frontier.following, start, he, List.map_reverse]

-- ---------------------------------------------------------------------------
-- Frontiers
-- ---------------------------------------------------------------------------

/-- Trips under way from kept states that have been found, none a part of another one. -/
structure Front (a : Automaton W) (roots : List Nat) (ts : List Trip) : Prop where
  kept : ∀ i ∈ roots, a.Keeps audible i ∧ i < a.size
  rooted : ∀ t ∈ ts, t.root ∈ roots
  underWay : ∀ t ∈ ts, a.UnderWay t
  nodup : ts.Nodup
  apart : ∀ t ∈ ts, ∀ u ∈ ts, t.root = u.root → t.places <+: u.places → t = u

namespace Front

variable {roots roots' : List Nat} {ts ts' : List Trip} (ha : a.WellFormed) (h : a.Front roots ts)
include ha h

theorem mem_longer {u : Trip} : u ∈ ts.flatMap a.longer ↔ ∃ t ∈ ts, u.root = t.root ∧
    ∃ n, u.places = t.places ++ [⟨a.tip t, n⟩] ∧ a.IsWalk u.root u.places (a.tip u) := by
  rw [List.mem_flatMap]
  exact exists_congr fun t => and_congr_right fun ht => mem_longer_iff ha (h.underWay t ht).walk

theorem nodup_longer : (ts.flatMap a.longer).Nodup := by
  refine List.nodup_flatMap.2 ⟨fun t _ => Automaton.nodup_longer a t, ?_⟩
  refine h.nodup.imp_of_mem fun {t u} ht hu hne => List.disjoint_left.2 fun v hv hv' => hne ?_
  obtain ⟨hr, n, hp, -⟩ := (mem_longer_iff ha (h.underWay t ht).walk).1 hv
  obtain ⟨hr', m, hp', -⟩ := (mem_longer_iff ha (h.underWay u hu).walk).1 hv'
  have same := (List.append_inj' (hp.symm.trans hp') rfl).1
  exact h.apart t ht u hu (hr.symm.trans hr') (same ▸ List.prefix_refl _)

theorem of_collects (hc : a.Collects (ts.flatMap a.longer) roots [] roots' ts') {u : Trip}
    (hu : u ∈ ts') : (∃ t ∈ ts, u.root = t.root ∧ ∃ n, u.places = t.places ++ [⟨a.tip t, n⟩] ∧
      a.UnderWay u) ∨ u.places = [] ∧ u.root ∉ roots := by
  rcases (hc.mem u).1 hu with hu | ⟨hu, hn, hd⟩ | ⟨hp, hr, -⟩
  · cases hu
  · obtain ⟨t, ht, hu⟩ := List.mem_flatMap.1 hu
    obtain ⟨hr, n, hp, -⟩ := (mem_longer_iff ha (h.underWay t ht).walk).1 hu
    exact .inl ⟨t, ht, hr, n, hp, ((h.underWay t ht).next ha hu).2 hn hd⟩
  · exact .inr ⟨hp, hr⟩

theorem next (hc : a.Collects (ts.flatMap a.longer) roots [] roots' ts') : a.Front roots' ts' where
  kept i hi := by
    rcases (hc.mem_roots i).1 hi with hi | ⟨u, hu, hk, rfl⟩
    · exact h.kept i hi
    · obtain ⟨t, ht, -, n, hp, hw⟩ := (h.mem_longer ha).1 hu
      rw [hp] at hw
      have inside := (lt_size_of_mem_successors
        (mem_successors_of_arrival (isWalk_concat_iff.1 hw).2)).2
      exact ⟨(keeps_audible_iff inside).2 hk, inside⟩
  rooted u hu := by
    rcases (hc.mem u).1 hu with hu | ⟨hu, -⟩ | ⟨-, -, hu⟩
    · cases hu
    · obtain ⟨t, ht, hr, -⟩ := (h.mem_longer ha).1 hu
      rw [hr]
      exact (hc.mem_roots _).2 (.inl (h.rooted t ht))
    · exact hu
  underWay u hu := by
    rcases h.of_collects ha hc hu with ⟨-, -, -, -, -, hu⟩ | ⟨hp, -⟩
    · exact hu
    · obtain ⟨r, ps⟩ := u
      obtain rfl : ps = [] := hp
      exact underWay_start a r
  nodup := by
    refine hc.nodup (h.nodup_longer ha) List.nodup_nil (fun u hu => ⟨List.not_mem_nil, ?_⟩)
      fun t ht => absurd ht List.not_mem_nil
    obtain ⟨t, -, -, n, hp, -⟩ := (h.mem_longer ha).1 hu
    simp [hp]
  apart u hu v hv hr hp := by
    -- a new root has no trips yet, so both are longer trips or both start there
    rcases h.of_collects ha hc hu with ⟨t, ht, htr, n, hu, -⟩ | ⟨hu, hnew⟩
    · rcases h.of_collects ha hc hv with ⟨t', ht', htr', m, hv, -⟩ | ⟨-, hnew⟩
      · rw [hu, hv, List.prefix_concat_iff] at hp
        rcases hp with hp | hp
        · exact Trip.ext hr (by rw [hu, hv, hp])
        · have := h.apart t ht t' ht' (by rw [← htr, hr, htr']) ((List.prefix_append _ _).trans hp)
          subst this
          simpa using hp.length_le
      · exact absurd (h.rooted t ht) (by rwa [← htr, hr])
    · rcases h.of_collects ha hc hv with ⟨t', ht', htr', -⟩ | ⟨hv, -⟩
      · exact absurd (h.rooted t' ht') (by rwa [← htr', ← hr])
      · exact Trip.ext hr (hu.trans hv.symm)

theorem reaches_of_collects (hc : a.Collects (ts.flatMap a.longer) roots [] roots' ts') {r : Nat}
    (hr : r ∈ roots') : ∃ s ∈ roots, a.Reaches s r := by
  rcases (hc.mem_roots r).1 hr with hr | ⟨u, hu, -, rfl⟩
  · exact ⟨r, hr, .refl a r⟩
  · obtain ⟨t, ht, hur, -, -, hw⟩ := (h.mem_longer ha).1 hu
    exact ⟨t.root, h.rooted t ht, hur ▸ ⟨_, hw⟩⟩

omit [LogWeight W] ha in
theorem reverse : a.Front roots ts.reverse where
  kept := h.kept
  rooted t ht := h.rooted t (List.mem_reverse.1 ht)
  underWay t ht := h.underWay t (List.mem_reverse.1 ht)
  nodup := List.nodup_reverse.2 h.nodup
  apart t ht u hu := h.apart t (List.mem_reverse.1 ht) u (List.mem_reverse.1 hu)

end Front

-- ---------------------------------------------------------------------------
-- The legs that come from a frontier
-- ---------------------------------------------------------------------------

/-- These are the legs that begin with one of the trips, and all legs of roots that are
found on the way. -/
structure Elides (a : Automaton W) (roots : List Nat) (ts ls : List Trip) : Prop where
  nodup : ls.Nodup
  leg : ∀ l ∈ ls, a.Leg l
  rooted : ∀ l ∈ ls, a.Keeps audible l.root ∧ ∃ r ∈ roots, a.Reaches r l.root
  begins : ∀ l ∈ ls, l.root ∈ roots → ∃ t ∈ ts, l.root = t.root ∧ t.places <+: l.places
  old : ∀ t ∈ ts, ∀ l, a.Leg l → l.root = t.root → t.places <+: l.places → l ∈ ls
  new : ∀ l ∈ ls, a.tip l ∉ roots → ∀ m, a.Leg m → m.root = a.tip l → m ∈ ls

omit [LogWeight W] in
theorem elides_nil (roots : List Nat) : a.Elides roots [] [] := by
  constructor <;> simp

omit [LogWeight W] in
theorem Elides.of_reverse {roots : List Nat} {ts ls : List Trip}
    (h : a.Elides roots ts.reverse ls) : a.Elides roots ts ls where
  nodup := h.nodup
  leg := h.leg
  rooted := h.rooted
  begins := by simpa using h.begins
  old := by simpa using h.old
  new := h.new

-- ---------------------------------------------------------------------------
-- The legs of one round
-- ---------------------------------------------------------------------------

def landed (a : Automaton W) (ts : List Trip) : List Trip :=
  (ts.flatMap a.longer).filter fun u => !a.isNil (a.tip u)

omit [LogWeight W] in
theorem mem_landed {ts : List Trip} {l : Trip} :
    l ∈ a.landed ts ↔ l ∈ ts.flatMap a.longer ∧ a.isNil (a.tip l) = false := by
  simp [landed]

section
variable {roots roots' : List Nat} {ts ts' ls : List Trip} (ha : a.WellFormed)
  (h : a.Front roots ts)
include ha h

theorem Front.exists_of_landed {l : Trip} (hl : l ∈ a.landed ts) : ∃ t ∈ ts, l.root = t.root ∧
    ∃ n, l.places = t.places ++ [⟨a.tip t, n⟩] ∧ a.IsWalk l.root l.places (a.tip l) :=
  (h.mem_longer ha).1 (mem_landed.1 hl).1

theorem Front.mem_roots_of_landed {l : Trip} (hl : l ∈ a.landed ts) : l.root ∈ roots := by
  obtain ⟨t, ht, hr, -⟩ := h.exists_of_landed ha hl
  exact hr ▸ h.rooted t ht

theorem Front.leg_of_landed {l : Trip} (hl : l ∈ a.landed ts) : a.Leg l := by
  obtain ⟨hl, hk⟩ := mem_landed.1 hl
  obtain ⟨t, ht, hl⟩ := List.mem_flatMap.1 hl
  exact ((h.underWay t ht).next ha hl).1 hk

variable (hc : a.Collects (ts.flatMap a.longer) roots [] roots' ts')
include hc

/-- A leg of an old root that comes in a later round begins with a longer trip. -/
theorem Elides.later (he : a.Elides roots' ts' ls) {l : Trip} (hl : l ∈ ls)
    (hr : l.root ∈ roots) : ∃ t ∈ ts, l.root = t.root ∧ ∃ n,
      t.places ++ [⟨a.tip t, n⟩] <+: l.places ∧
      a.UnderWay ⟨t.root, t.places ++ [⟨a.tip t, n⟩]⟩ := by
  obtain ⟨u, hu, hru, hp⟩ := he.begins l hl ((hc.mem_roots _).2 (.inl hr))
  rcases h.of_collects ha hc hu with ⟨t, ht, htr, n, hup, way⟩ | ⟨-, hnew⟩
  · refine ⟨t, ht, hru.trans htr, n, hup ▸ hp, ?_⟩
    rwa [← htr, ← hup]
  · exact absurd hr (hru ▸ hnew)

theorem Elides.not_mem_of_landed (he : a.Elides roots' ts' ls) {l : Trip}
    (hl : l ∈ a.landed ts) : l ∉ ls := by
  intro hl'
  obtain ⟨t, ht, hr, n, hp, -⟩ := h.exists_of_landed ha hl
  obtain ⟨t', ht', hr', n', hp', way⟩ := he.later ha h hc hl' (hr ▸ h.rooted t ht)
  rw [hp, List.prefix_concat_iff] at hp'
  rcases hp' with same | hp'
  · -- then the trip has not landed, but is still under way
    have same : l = ⟨t'.root, t'.places ++ [⟨a.tip t', n'⟩]⟩ := Trip.ext hr' (hp.trans same.symm)
    have nil := way.isNil_tip (by simp)
    rw [← same, (mem_landed.1 hl).2] at nil
    cases nil
  · obtain rfl := h.apart t' ht' t ht (hr'.symm.trans hr) ((List.prefix_append _ _).trans hp')
    simpa using hp'.length_le

/-- A leg that begins with a trip of the frontier lands now or in a later round. -/
theorem Elides.old_round (he : a.Elides roots' ts' ls) {t l : Trip} (ht : t ∈ ts) (hl : a.Leg l)
    (hr : l.root = t.root) (hp : t.places <+: l.places) : l ∈ a.landed ts ++ ls := by
  obtain ⟨n, hw, hl' | ⟨way, hp⟩⟩ := hl.exists_next (h.underWay t ht) hr hp
  · refine List.mem_append_left _ (mem_landed.2 ⟨?_, hl.kept⟩)
    rw [hl']
    exact (h.mem_longer ha).2 ⟨t, ht, rfl, n, rfl, hw⟩
  · have longer : ⟨t.root, t.places ++ [⟨a.tip t, n⟩]⟩ ∈ ts.flatMap a.longer :=
      (h.mem_longer ha).2 ⟨t, ht, rfl, n, rfl, hw⟩
    have next := (hc.mem _).2 (.inr (.inl ⟨longer, way.isNil_tip (by simp), way.nodup⟩))
    exact List.mem_append_right _ (he.old _ next l hl hr hp)

omit [LogWeight W] ha h in
/-- The legs of a kept state that is found in this round come in later ones. -/
theorem Elides.new_round (he : a.Elides roots' ts' ls) {l m : Trip} (hl : l ∈ a.landed ts ++ ls)
    (hr : a.tip l ∉ roots) (hm : a.Leg m) (hmr : m.root = a.tip l) : m ∈ ls := by
  by_cases hr' : a.tip l ∈ roots'
  · have start : ⟨a.tip l, []⟩ ∈ ts' := (hc.mem _).2 (.inr (.inr ⟨rfl, hr, hr'⟩))
    exact he.old _ start m hm hmr List.nil_prefix
  · rcases List.mem_append.1 hl with hl | hl
    · obtain ⟨hl, hk⟩ := mem_landed.1 hl
      exact absurd ((hc.mem_roots _).2 (.inr ⟨l, hl, hk, rfl⟩)) hr'
    · exact he.new l hl hr' m hm hmr

theorem Elides.round (he : a.Elides roots' ts' ls) : a.Elides roots ts (a.landed ts ++ ls) where
  nodup := List.nodup_append'.2 ⟨(h.nodup_longer ha).filter _, he.nodup,
    fun _ hl => he.not_mem_of_landed ha h hc hl⟩
  leg l hl := by
    rcases List.mem_append.1 hl with hl | hl
    · exact h.leg_of_landed ha hl
    · exact he.leg l hl
  rooted l hl := by
    rcases List.mem_append.1 hl with hl | hl
    · have root := h.mem_roots_of_landed ha hl
      exact ⟨(h.kept _ root).1, l.root, root, .refl a _⟩
    · obtain ⟨hk, r, hr, hreach⟩ := he.rooted l hl
      obtain ⟨s, hs, hsr⟩ := h.reaches_of_collects ha hc hr
      exact ⟨hk, s, hs, hsr.trans hreach⟩
  begins l hl hr := by
    rcases List.mem_append.1 hl with hl | hl
    · obtain ⟨t, ht, hr, n, hp, -⟩ := h.exists_of_landed ha hl
      exact ⟨t, ht, hr, hp ▸ List.prefix_append _ _⟩
    · obtain ⟨t, ht, hr, n, hp, -⟩ := he.later ha h hc hl hr
      exact ⟨t, ht, hr, (List.prefix_append _ _).trans hp⟩
  old t ht l hl hr hp := he.old_round ha h hc ht hl hr hp
  new l hl hr m hm hmr := List.mem_append_right _ (he.new_round hc hl hr hm hmr)

end

-- ---------------------------------------------------------------------------
-- The rounds
-- ---------------------------------------------------------------------------

theorem filterMap_arc? (image : Nat → Nat) (us : List Trip) :
    (us.map (a.outcome image)).filterMap Advance.arc? =
      (us.filter fun u => !a.isNil (a.tip u)).map (a.legArc image) := by
  induction us with
  | nil => rfl
  | cons u us ih =>
    rw [List.map_cons, List.filterMap_cons, ih, outcome]
    by_cases hn : a.isNil (a.tip u) = true
    · by_cases hd : (a.entered u.places).Nodup <;> simp [hn, hd, Advance.arc?]
    · simp [hn, Advance.arc?]

section
variable {roots : List Nat} {ts : List Trip} (ha : a.WellFormed) (h : a.Front roots ts)
include ha h

theorem Front.advances_eq :
    a.advances (a.remap { keep := audible } empty).1 (a.remap { keep := audible } empty).2
        (ts.map a.routeOf) = (ts.flatMap a.longer).mapM a.attempt := by
  have pairs : (ts.map a.routeOf).flatMap (fun r => (a.linksFrom r.tip).map fun l => (r, l)) =
      (ts.flatMap fun t => (a.arcsFrom (a.tip t)).zipIdx.map fun x => (t, x)).map fun y =>
        (a.routeOf y.1, (⟨.inner (a.tip y.1), .inner y.2.1.1, y.2.1.2⟩ : Link W)) := by
    rw [List.flatMap_map, List.map_flatMap]
    refine List.flatMap_congr fun t _ => ?_
    rw [routeOf, ha.linksFrom_eq, List.map_map, List.map_map]
    conv_lhs => rw [← List.zipIdx_map_fst 0 (a.arcsFrom (a.tip t)), List.map_map]
    rfl
  have trips : ts.flatMap a.longer =
      (ts.flatMap fun t => (a.arcsFrom (a.tip t)).zipIdx.map fun x => (t, x)).map fun y =>
        ⟨y.1.root, y.1.places ++ [⟨a.tip y.1, y.2.2⟩]⟩ := by
    rw [List.map_flatMap]
    refine List.flatMap_congr fun t _ => ?_
    rw [longer, List.map_map]
    rfl
  unfold advances
  rw [trips]
  change List.mapM _ ((ts.map a.routeOf).flatMap fun r =>
    (a.linksFrom r.tip).map fun l => (r, l)) = _
  rw [pairs, mapM_map, mapM_map]
  refine mapM_congr fun y hy => ?_
  obtain ⟨t, ht, hy⟩ := List.mem_flatMap.1 hy
  obtain ⟨x, hx, rfl⟩ := List.mem_map.1 hy
  have hr := h.kept _ (h.rooted t ht)
  exact advance_longer ha (h.underWay t ht) hr.1 hr.2 hx

theorem Front.advances_cases :
    (∃ l ∈ a.landed ts, isUndefined (a.walkWeight l.places) = true) ∧
        (∃ src dest, a.advances (a.remap { keep := audible } empty).1
          (a.remap { keep := audible } empty).2 (ts.map a.routeOf) =
            .error (.undefinedWeight src dest)) ∨
      (∀ l ∈ a.landed ts, isUndefined (a.walkWeight l.places) = false) ∧
        a.advances (a.remap { keep := audible } empty).1 (a.remap { keep := audible } empty).2
          (ts.map a.routeOf) =
            .ok ((ts.flatMap a.longer).map (a.outcome (a.keptImage audible))) := by
  rw [h.advances_eq ha]
  have ends : ∀ u ∈ ts.flatMap a.longer, a.Keeps audible u.root ∧ a.tip u < a.size := by
    intro u hu
    obtain ⟨t, ht, hr, n, hp, hw⟩ := (h.mem_longer ha).1 hu
    rw [hp] at hw
    exact ⟨hr ▸ (h.kept _ (h.rooted t ht)).1,
      (lt_size_of_mem_successors (mem_successors_of_arrival (isWalk_concat_iff.1 hw).2)).2⟩
  cases hv : (ts.flatMap a.longer).mapM a.attempt with
  | error e =>
    obtain ⟨u, hu, he⟩ := exists_of_mapM_eq_error hv
    rcases attempt_cases (ends u hu).1 (ends u hu).2 with ⟨⟨hn, hd⟩, src, dest, hs⟩ | ⟨-, hs⟩
    · obtain rfl := Except.error.inj (he.symm.trans hs)
      exact .inl ⟨⟨u, mem_landed.2 ⟨hu, hn⟩, hd⟩, src, dest, rfl⟩
    · cases he.symm.trans hs
  | ok vs =>
    have passed : ∀ u ∈ ts.flatMap a.longer,
        (a.isNil (a.tip u) = false → isUndefined (a.walkWeight u.places) = false) ∧
          a.attempt u = .ok (a.outcome (a.keptImage audible) u) := by
      intro u hu
      obtain ⟨v, -, hv⟩ := exists_of_mapM_eq_ok hv hu
      refine (attempt_cases (ends u hu).1 (ends u hu).2).resolve_left ?_
      rintro ⟨-, src, dest, hs⟩
      cases hv.symm.trans hs
    refine .inr ⟨fun l hl => ?_, ?_⟩
    · obtain ⟨hl, hn⟩ := mem_landed.1 hl
      exact (passed l hl).1 hn
    · rw [← hv]
      exact mapM_ok fun u hu => (passed u hu).2

/-- The elision makes all legs, or meets one without a weight. -/
theorem Front.elide_cases :
    (∃ l, a.Leg l ∧ (a.Keeps audible l.root ∧ ∃ r ∈ roots, a.Reaches r l.root) ∧
        isUndefined (a.walkWeight l.places) = true) ∧
        (∃ src dest, a.elide (a.remap { keep := audible } empty).1
          (a.remap { keep := audible } empty).2 ⟨roots, ts.map a.routeOf⟩ =
            .error (.undefinedWeight src dest)) ∨
      ∃ ls, (∀ l ∈ ls, isUndefined (a.walkWeight l.places) = false) ∧
        a.elide (a.remap { keep := audible } empty).1 (a.remap { keep := audible } empty).2
          ⟨roots, ts.map a.routeOf⟩ = .ok (ls.map (a.legArc (a.keptImage audible))) ∧
        a.Elides roots ts ls := by
  generalize hf : (⟨roots, ts.map a.routeOf⟩ : Frontier W) = f
  induction f using elide.induct a (a.remap { keep := audible } empty).1
      (a.remap { keep := audible } empty).2 generalizing roots ts with
  | case1 roots' =>
    obtain ⟨rfl, hts⟩ := Frontier.mk.inj hf
    obtain rfl : ts = [] := List.map_eq_nil_iff.1 hts
    exact .inr ⟨[], by simp, by rw [elide]; rfl, elides_nil roots⟩
  | case2 roots' r routes e he =>
    obtain ⟨rfl, hts⟩ := Frontier.mk.inj hf
    rcases h.advances_cases ha with ⟨⟨l, hl, lost⟩, src, dest, hs⟩ | ⟨-, hs⟩
    · rw [hts] at hs
      have root := h.mem_roots_of_landed ha hl
      exact .inl ⟨⟨l, h.leg_of_landed ha hl, ⟨(h.kept _ root).1, l.root, root, .refl a _⟩, lost⟩,
        src, dest, elide_eq_error hs⟩
    · rw [hts, he] at hs
      cases hs
  | case3 roots' r routes vs hvs ih =>
    obtain ⟨rfl, hts⟩ := Frontier.mk.inj hf
    rcases h.advances_cases ha with ⟨-, src, dest, hs⟩ | ⟨defined, hs⟩
    · rw [hts, hvs] at hs
      cases hs
    rw [hts, hvs] at hs
    obtain rfl := Except.ok.inj hs
    obtain ⟨roots', ts', following, hc⟩ :=
      exists_following (a := a) (a.keptImage audible) (ts.flatMap a.longer) roots
    rcases ih (h.next ha hc).reverse following.symm with
      ⟨⟨l, leg, ⟨hk, r', hr', reaches⟩, lost⟩, src, dest, hs⟩ | ⟨ls, hd, hls, hel⟩
    · obtain ⟨s, hs', hsr⟩ := h.reaches_of_collects ha hc hr'
      refine .inl ⟨⟨l, leg, ⟨hk, s, hs', hsr.trans reaches⟩, lost⟩, src, dest, ?_⟩
      rw [elide_of_advances hvs, hs]
      rfl
    · refine .inr ⟨a.landed ts ++ ls, fun l hl => ?_, ?_, hel.of_reverse.round ha h hc⟩
      · exact (List.mem_append.1 hl).elim (defined l) (hd l)
      · rw [elide_of_advances hvs, hls, filterMap_arc?, List.map_append]
        rfl

end

end LogAutomata.Automaton
