import LogAutomata.Proofs.Elide

/-!
# Walks without nil states

Every link of the result stands for a leg of the original, so a walk of the result is
the way of a walk of the original from kept state to kept state, with the same reading
and the same weight. No walk is met twice, and none is missed unless it goes around a
cycle of nil states; then one that does not reads the same.
-/

namespace LogAutomata.Automaton

variable {W : Type} [LogWeight W] {a b : Automaton W} {ls : List Trip}

-- ---------------------------------------------------------------------------
-- The result
-- ---------------------------------------------------------------------------

/-- `b` has the kept states of `a`, and a link for each of these legs. -/
structure Skips (a b : Automaton W) (ls : List Trip) : Prop where
  wellFormed : b.WellFormed
  legs : a.Elides [0] [⟨0, []⟩] ls
  lt_size : ∀ i, a.Keeps audible i → a.keptImage audible i < b.size
  symbolAt : ∀ i, 2 ≤ i → a.Keeps audible i → b.symbolAt (a.keptImage audible i) = a.symbolAt i
  exists_kept : ∀ k, 2 ≤ k → k < b.size →
    ∃ i, 2 ≤ i ∧ a.Keeps audible i ∧ a.keptImage audible i = k
  arcsFrom : ∀ k, b.arcsFrom k = (ls.filter fun l => a.keptImage audible l.root == k).map fun l =>
    (a.keptImage audible (a.tip l), a.walkWeight l.places)

theorem front_init (ha : a.WellFormed) : a.Front [0] [⟨0, []⟩] where
  kept i hi := by
    obtain rfl := List.mem_singleton.1 hi
    have := ha.two_le_size
    exact ⟨.inl Nat.two_pos, by omega⟩
  rooted t ht := by simp [List.mem_singleton.1 ht]
  underWay t ht := by
    obtain rfl := List.mem_singleton.1 ht
    exact underWay_start a 0
  nodup := List.nodup_singleton _
  apart t ht u hu _ _ := by rw [List.mem_singleton.1 ht, List.mem_singleton.1 hu]

theorem removeNilStates_of_elide {ls : List Trip}
    (he : a.elide (a.remap { keep := audible } empty).1 (a.remap { keep := audible } empty).2
      ⟨[0], ([⟨0, []⟩] : List Trip).map a.routeOf⟩ = .ok (ls.map (a.legArc (a.keptImage audible))))
    (hl : a.Elides [0] [⟨0, []⟩] ls) : ∃ b, a.removeNilStates = .ok b ∧ a.Skips b ls := by
  have fits : ∀ r ∈ ls.map (a.legArc (a.keptImage audible)),
      (a.remap { keep := audible } empty).2.Fits r := fits_of_elide he
  refine ⟨(a.remap { keep := audible } empty).2.withArcs (ls.map (a.legArc (a.keptImage audible))),
    ?_, (WellFormed.empty.remap a _).withArcs fits, hl, fun i hk => ?_, fun i h2 hk => ?_,
    fun k h2 hk => ?_, fun k => ?_⟩
  · rw [removeNilStates]
    change (a.elide (a.remap { keep := audible } empty).1 (a.remap { keep := audible } empty).2
      ⟨[0], ([⟨0, []⟩] : List Trip).map a.routeOf⟩ >>= _) = _
    rw [he]
    rfl
  · rw [size_withArcs]
    exact keptImage_lt_size hk
  · obtain ⟨i, rfl⟩ := Nat.exists_eq_add_of_le' h2
    rw [symbolAt_withArcs, symbolAt_remap hk]
  · rw [size_withArcs] at hk
    exact exists_keptImage_eq h2 hk
  · rw [arcsFrom_withArcs fun r hr => ⟨(fits r hr).src, (fits r hr).dest⟩, Automaton.arcsFrom,
      remap_linksFrom, linksFrom_empty, List.filterMap_nil, List.nil_append, List.filter_map,
      List.map_map]
    rfl

theorem removeNilStates_cases (ha : a.WellFormed) :
    (∃ l, a.Leg l ∧ a.isNil l.root = false ∧ a.Reaches 0 l.root ∧
        isUndefined (a.walkWeight l.places) = true) ∧
        (∃ src dest, a.removeNilStates = .error (.undefinedWeight src dest)) ∨
      ∃ b ls, (∀ l ∈ ls, isUndefined (a.walkWeight l.places) = false) ∧
        a.removeNilStates = .ok b ∧ a.Skips b ls := by
  have inside : 0 < a.size := Nat.lt_of_lt_of_le Nat.two_pos ha.two_le_size
  rcases (front_init ha).elide_cases ha with
    ⟨⟨l, leg, ⟨hk, r, hr, reaches⟩, lost⟩, src, dest, he⟩ | ⟨ls, defined, he, hl⟩
  · obtain rfl := List.mem_singleton.1 hr
    refine .inl ⟨⟨l, leg, ?_, reaches, lost⟩, src, dest, ?_⟩
    · exact (keeps_audible_iff (reaches.lt_size inside)).1 hk
    · exact congrArg (Except.map _) he
  · obtain ⟨b, hb, h⟩ := removeNilStates_of_elide he hl
    exact .inr ⟨b, ls, defined, hb, h⟩

theorem removeNilStates_ok (ha : a.WellFormed)
    (defined : ∀ i ps j, a.IsWalk i ps j → isUndefined (a.walkWeight ps) = false) :
    ∃ b ls, a.removeNilStates = .ok b ∧ a.Skips b ls := by
  rcases removeNilStates_cases ha with ⟨⟨l, leg, -, -, lost⟩, -⟩ | ⟨b, ls, -, hb, h⟩
  · rw [defined _ _ _ leg.walk] at lost
    cases lost
  · exact ⟨b, ls, hb, h⟩

-- ---------------------------------------------------------------------------
-- Detours
-- ---------------------------------------------------------------------------

def legAt (a : Automaton W) (ls : List Trip) (y : Place) : Option Trip :=
  (ls.filter fun l => a.keptImage audible l.root == y.state)[y.number]?

/-- The way of a walk of the result in the original. -/
def detour (a : Automaton W) (ls : List Trip) (ys : List Place) : List Place :=
  (ys.filterMap (a.legAt ls)).flatMap Trip.places

omit [LogWeight W] in
theorem detour_cons {y : Place} {l : Trip} (h : a.legAt ls y = some l) (ys : List Place) :
    a.detour ls (y :: ys) = l.places ++ a.detour ls ys := by
  simp [detour, h]

/-- A kept state to which Init leads by legs. -/
def IsRoot (a : Automaton W) (ls : List Trip) (i : Nat) : Prop := i = 0 ∨ ∃ l ∈ ls, a.tip l = i

section
omit [LogWeight W]

theorem Leg.reading {l : Trip} (h : a.Leg l) : a.reading l.places = a.heard (a.tip l) := by
  obtain ⟨ps, p, hp, way⟩ := h.exists_last
  have walk := h.walk
  rw [hp] at walk
  have quiet : (a.entered ps).flatMap a.heard = [] :=
    List.flatMap_eq_nil_iff.2 fun j hj => heard_of_isNil (way.nils j hj)
  rw [reading_eq_flatMap, hp, entered_concat (isWalk_concat_iff.1 walk).2, List.flatMap_append,
    quiet]
  simp

end

namespace Skips

variable (h : a.Skips b ls)
include h

theorem arcAt_eq (y : Place) : b.arcAt y = (a.legAt ls y).map fun l =>
    (a.keptImage audible (a.tip l), a.walkWeight l.places) := by
  rw [arcAt, h.arcsFrom, List.getElem?_map]
  rfl

theorem arrival_eq (y : Place) :
    b.arrival y = (a.legAt ls y).map fun l => a.keptImage audible (a.tip l) := by
  rw [h.wellFormed.arrival_eq_map, h.arcAt_eq, Option.map_map]
  rfl

omit [LogWeight W] h in
theorem legAt_spec {y : Place} {l : Trip} (hl : a.legAt ls y = some l) :
    l ∈ ls ∧ a.keptImage audible l.root = y.state := by
  obtain ⟨hm, hr⟩ := List.mem_filter.1 (List.mem_of_getElem? hl)
  exact ⟨hm, beq_iff_eq.1 hr⟩

theorem legAt_inj {y z : Place} {l : Trip} (hy : a.legAt ls y = some l)
    (hz : a.legAt ls z = some l) : y = z := by
  have state : y.state = z.state := (legAt_spec hy).2.symm.trans (legAt_spec hz).2
  obtain ⟨i, n⟩ := y
  obtain ⟨j, m⟩ := z
  obtain rfl : i = j := state
  have number : n = m := by
    refine (List.getElem?_inj (List.getElem?_eq_some_iff.1 hy).1 ?_).1 (hy.trans hz.symm)
    exact h.legs.nodup.filter _
  rw [number]

theorem heard_image {i : Nat} (hi : a.Keeps audible i) :
    b.heard (a.keptImage audible i) = a.heard i := by
  rcases i with _ | _ | i
  · rw [heard_of_lt_two Nat.two_pos, keptImage, heard_of_lt_two Nat.two_pos]
  · rw [heard_of_lt_two Nat.one_lt_two, keptImage, heard_of_lt_two Nat.one_lt_two]
  · have h2 := Nat.le_add_left 2 i
    rw [heard_of_two_le h2, heard_of_two_le (by simp [keptImage]), h.symbolAt _ h2 hi]

theorem reading_detour (ys : List Place) : a.reading (a.detour ls ys) = b.reading ys := by
  have entered : b.entered ys =
      (ys.filterMap (a.legAt ls)).map fun l => a.keptImage audible (a.tip l) := by
    rw [Automaton.entered, List.map_filterMap]
    exact List.filterMap_congr fun y _ => h.arrival_eq y
  rw [reading_eq_flatMap, reading_eq_flatMap, entered, List.flatMap_map, detour]
  have legs : ∀ l ∈ ys.filterMap (a.legAt ls), l ∈ ls := by
    intro l hl
    obtain ⟨y, -, hl⟩ := List.mem_filterMap.1 hl
    exact (legAt_spec hl).1
  generalize ys.filterMap (a.legAt ls) = ms at legs ⊢
  induction ms with
  | nil => rfl
  | cons l ms ih =>
    obtain ⟨hl, hms⟩ := List.forall_mem_cons.1 legs
    rw [List.flatMap_cons, List.flatMap_cons, entered_append, List.flatMap_append, ih hms,
      ← reading_eq_flatMap, (h.legs.leg l hl).reading, h.heard_image (h.legs.leg l hl).keeps_tip]

theorem weights_eq (ys : List Place) :
    b.weights ys = (ys.filterMap (a.legAt ls)).map fun l => a.walkWeight l.places := by
  rw [weights, List.map_filterMap]
  refine List.filterMap_congr fun y _ => ?_
  rw [h.wellFormed.weight_eq_map, h.arcAt_eq, Option.map_map]
  rfl

-- ---------------------------------------------------------------------------
-- Roots
-- ---------------------------------------------------------------------------

theorem keeps_root {i : Nat} (hi : a.IsRoot ls i) : a.Keeps audible i := by
  rcases hi with rfl | ⟨l, hl, rfl⟩
  · exact .inl Nat.two_pos
  · exact (h.legs.leg l hl).keeps_tip

theorem reaches_root {i : Nat} (hi : a.IsRoot ls i) : a.Reaches 0 i := by
  rcases hi with rfl | ⟨l, hl, rfl⟩
  · exact .refl a 0
  · obtain ⟨-, r, hr, hreach⟩ := h.legs.rooted l hl
    rw [List.mem_singleton.1 hr] at hreach
    exact hreach.trans ⟨_, (h.legs.leg l hl).walk⟩

theorem mem_of_root {i : Nat} (hi : a.IsRoot ls i) {m : Trip} (hm : a.Leg m) (hr : m.root = i) :
    m ∈ ls := by
  by_cases h0 : i = 0
  · exact h.legs.old ⟨0, []⟩ List.mem_cons_self m hm (hr.trans h0) List.nil_prefix
  · obtain rfl | ⟨l, hl, rfl⟩ := hi
    · exact absurd rfl h0
    · exact h.legs.new l hl (by simpa using h0) m hm hr

-- ---------------------------------------------------------------------------
-- From the result to the original
-- ---------------------------------------------------------------------------

theorem exists_leg {i m : Nat} {y : Place} {ys : List Place} (hi : a.IsRoot ls i)
    (hw : b.IsWalk (a.keptImage audible i) (y :: ys) m) :
    ∃ l, a.legAt ls y = some l ∧ a.Leg l ∧ l.root = i ∧ a.IsRoot ls (a.tip l) ∧
      b.IsWalk (a.keptImage audible (a.tip l)) ys m := by
  obtain ⟨hy, k, hk, hw⟩ := isWalk_cons_iff.1 hw
  rw [h.arrival_eq] at hk
  obtain ⟨l, hl, rfl⟩ := Option.map_eq_some_iff.1 hk
  obtain ⟨hm, hr⟩ := legAt_spec hl
  have root : l.root = i :=
    keptImage_inj (h.legs.rooted l hm).1 (h.keeps_root hi) (hr.trans hy)
  exact ⟨l, hl, h.legs.leg l hm, root, .inr ⟨l, hm, rfl⟩, hw⟩

theorem isWalk_detour {i m : Nat} {ys : List Place} (hi : a.IsRoot ls i)
    (hw : b.IsWalk (a.keptImage audible i) ys m) :
    ∃ j, a.IsRoot ls j ∧ a.keptImage audible j = m ∧ a.IsWalk i (a.detour ls ys) j := by
  induction ys generalizing i with
  | nil => exact ⟨i, hi, isWalk_nil_iff.1 hw, .nil i⟩
  | cons y ys ih =>
    obtain ⟨l, hl, leg, rfl, htip, hw⟩ := h.exists_leg hi hw
    obtain ⟨j, hj, rfl, hrest⟩ := ih htip hw
    exact ⟨j, hj, rfl, by rw [detour_cons hl]; exact leg.walk.append hrest⟩

theorem detour_inj {i m n : Nat} {ys zs : List Place} (hi : a.IsRoot ls i)
    (hy : b.IsWalk (a.keptImage audible i) ys m) (hz : b.IsWalk (a.keptImage audible i) zs n)
    (he : a.detour ls ys = a.detour ls zs) : ys = zs := by
  induction ys generalizing i zs with
  | nil =>
    cases zs with
    | nil => rfl
    | cons z zs =>
      obtain ⟨l, hl, leg, -⟩ := h.exists_leg hi hz
      rw [detour_cons hl] at he
      exact absurd (List.append_eq_nil_iff.1 he.symm).1 leg.places_ne_nil
  | cons y ys ih =>
    obtain ⟨l, hl, leg, hr, htip, hys⟩ := h.exists_leg hi hy
    cases zs with
    | nil =>
      rw [detour_cons hl] at he
      exact absurd (List.append_eq_nil_iff.1 he).1 leg.places_ne_nil
    | cons z zs =>
      obtain ⟨l', hl', leg', hr', -, hzs⟩ := h.exists_leg hi hz
      rw [detour_cons hl, detour_cons hl'] at he
      obtain rfl : l = l' := leg.eq_of_append leg' (hr.trans hr'.symm) he
      rw [h.legAt_inj hl hl', ih htip hys hzs (List.append_cancel_left he)]

end Skips

-- ---------------------------------------------------------------------------
-- From the original to the result
-- ---------------------------------------------------------------------------

/-- No cycle of nil states only can be reached from Init. -/
def NilAcyclic (a : Automaton W) : Prop :=
  ∀ i ps, a.Reaches 0 i → a.IsWalk i ps i → ps ≠ [] → ∃ j ∈ a.entered ps, a.isNil j = false

section
omit [LogWeight W]

theorem UnderWay.reading {t : Trip} (h : a.UnderWay t) : a.reading t.places = [] := by
  rw [reading_eq_flatMap]
  exact List.flatMap_eq_nil_iff.2 fun j hj => heard_of_isNil (h.nils j hj)

theorem UnderWay.concat {t : Trip} (h : a.UnderWay t) {p : Place} {k : Nat}
    (hp : p.state = a.tip t) (hk : a.arrival p = some k) (hn : a.isNil k = true)
    (hseen : k ∉ a.entered t.places) : a.UnderWay ⟨t.root, t.places ++ [p]⟩ where
  walk := by
    rw [tip_concat hk]
    exact isWalk_concat_iff.2 ⟨hp ▸ h.walk, hk⟩
  nils j hj := by
    rw [entered_concat hk, List.mem_append, List.mem_singleton] at hj
    rcases hj with hj | rfl
    · exact h.nils j hj
    · exact hn
  nodup := by
    rw [entered_concat hk]
    exact List.nodup_append.2 ⟨h.nodup, List.nodup_singleton k, by grind⟩

theorem nilAcyclic_of_rank (rank : Nat → Nat) (h : ∀ r ∈ a.arcs, a.isNil r.src = true →
    a.isNil r.dest = true → rank r.src < rank r.dest) : a.NilAcyclic := by
  have climbs : ∀ i ps j, a.IsWalk i ps j → a.isNil i = true →
      (∀ k ∈ a.entered ps, a.isNil k = true) → rank i + ps.length ≤ rank j := by
    intro i ps j hw hi hn
    induction hw with
    | nil => exact Nat.le_refl _
    | @cons i k j n ps hk _ ih =>
      rw [entered_cons hk] at hn
      obtain ⟨hnk, hn⟩ := List.forall_mem_cons.1 hn
      obtain ⟨w, hmem⟩ := mem_successors_iff_mem_arcs.1 (mem_successors_of_arrival hk)
      have up : rank i < rank k := h _ hmem hi hnk
      have := ih hnk hn
      simp only [List.length_cons]
      omega
  intro i ps _ hw hne
  by_contra hall
  have hn : ∀ k ∈ a.entered ps, a.isNil k = true := by simpa using hall
  obtain ⟨qs, p, rfl⟩ := List.eq_nil_or_concat' ps |>.resolve_left hne
  have hi : a.isNil i = true := hn i (by simp [entered_concat (isWalk_concat_iff.1 hw).2])
  have := climbs i _ i hw hi hn
  simp at this

/-- A trip under way that comes back to a nil state has gone around a cycle of them. -/
theorem UnderWay.not_mem_of_nilAcyclic {t : Trip} (h : a.UnderWay t) (hr : a.Reaches 0 t.root)
    (hc : a.NilAcyclic) {p : Place} {k : Nat} (hp : p.state = a.tip t)
    (hk : a.arrival p = some k) (hn : a.isNil k = true) : k ∉ a.entered t.places := by
  intro hseen
  obtain ⟨qs, qs', hq, -, hwq, hwq'⟩ := h.walk.exists_split hseen
  have around : a.IsWalk k (qs' ++ [p]) k := isWalk_concat_iff.2 ⟨hp ▸ hwq', hk⟩
  obtain ⟨m, hm, hkept⟩ := hc k _ (hr.trans ⟨qs, hwq⟩) around (by simp)
  rw [entered_concat hk, List.mem_append, List.mem_singleton] at hm
  have nil : a.isNil m = true := by
    rcases hm with hm | rfl
    · refine h.nils m ?_
      rw [hq, entered_append]
      exact List.mem_append_right _ hm
    · exact hn
  rw [hkept] at nil
  cases nil

/-- A walk to a kept state begins with a leg. If it takes a nil state twice before, the leg
leaves out what is between, which nothing is heard of. -/
theorem UnderWay.exists_leg {t : Trip} (ht : a.UnderWay t) (hr : a.Reaches 0 t.root) {j : Nat}
    {ps : List Place} (hw : a.IsWalk (a.tip t) ps j) (hj : a.isNil j = false)
    (hne : t.places ++ ps ≠ []) :
    ∃ l qs, a.Leg l ∧ l.root = t.root ∧ a.IsWalk (a.tip l) qs j ∧ qs.length < ps.length ∧
      a.reading (l.places ++ qs) = a.reading ps ∧
      (a.NilAcyclic → l.places ++ qs = t.places ++ ps) := by
  induction ps generalizing t with
  | nil =>
    have hp : t.places ≠ [] := by simpa using hne
    rw [← isWalk_nil_iff.1 hw, ht.isNil_tip hp] at hj
    cases hj
  | cons p ps ih =>
    obtain ⟨hp, k, hk, hw⟩ := isWalk_cons_iff.1 hw
    have walk : a.IsWalk t.root (t.places ++ [p]) k := isWalk_concat_iff.2 ⟨hp ▸ ht.walk, hk⟩
    have tip : a.tip ⟨t.root, t.places ++ [p]⟩ = k := tip_concat hk
    by_cases hn : a.isNil k = true
    · have quiet : a.reading (p :: ps) = a.reading ps := by
        rw [reading_eq_flatMap, reading_eq_flatMap, entered_cons hk,
          List.flatMap_cons, heard_of_isNil hn]
        rfl
      by_cases hseen : k ∈ a.entered t.places
      · obtain ⟨qs, qs', hq, hqne, hwq, hwq'⟩ := ht.walk.exists_split hseen
        have way : a.UnderWay ⟨t.root, qs ++ qs'⟩ := hq ▸ ht
        obtain ⟨l, rs, leg, hlr, hwl, hlen, hread, -⟩ := ih way.of_append hr (by rwa [hwq.tip_eq])
          (by simp [hqne])
        exact ⟨l, rs, leg, hlr, hwl, Nat.lt_succ_of_lt hlen, hread.trans quiet.symm,
          fun hc => absurd hseen (ht.not_mem_of_nilAcyclic hr hc hp hk hn)⟩
      · have way : a.UnderWay ⟨t.root, t.places ++ [p]⟩ := ht.concat hp hk hn hseen
        obtain ⟨l, rs, leg, hlr, hwl, hlen, hread, hsame⟩ := ih way hr (by rwa [tip]) (by simp)
        refine ⟨l, rs, leg, hlr, hwl, Nat.lt_succ_of_lt hlen, hread.trans quiet.symm, fun hc => ?_⟩
        simpa using hsame hc
    · have hk' : a.isNil k = false := by simpa using hn
      have leg : a.Leg ⟨t.root, t.places ++ [p]⟩ :=
        ⟨⟨t.places, p, rfl, ht⟩, by rwa [tip], by rwa [tip]⟩
      refine ⟨⟨t.root, t.places ++ [p]⟩, ps, leg, rfl, by rwa [tip], Nat.lt_succ_self _, ?_, ?_⟩
      · rw [List.append_assoc, List.singleton_append, reading_append, ht.reading, List.nil_append]
      · intro _
        simp

end

omit [LogWeight W] in
theorem exists_legAt {l : Trip} (hl : l ∈ ls) : ∃ n,
    a.legAt ls ⟨a.keptImage audible l.root, n⟩ = some l := by
  have hm : l ∈ ls.filter fun m => a.keptImage audible m.root == a.keptImage audible l.root := by
    simpa using hl
  exact List.getElem?_of_mem hm

namespace Skips

variable (h : a.Skips b ls)
include h

/-- A walk from a root to a kept state is met by a walk of the result that reads the same. -/
theorem exists_walk {i j : Nat} {ps : List Place} (hi : a.IsRoot ls i) (hw : a.IsWalk i ps j)
    (hj : a.isNil j = false) :
    ∃ ys, b.IsWalk (a.keptImage audible i) ys (a.keptImage audible j) ∧
      b.reading ys = a.reading ps ∧ (a.NilAcyclic → a.detour ls ys = ps) := by
  induction hn : ps.length using Nat.strong_induction_on generalizing i ps with
  | _ n ih =>
    by_cases hp : ps = []
    · subst hp
      obtain rfl := isWalk_nil_iff.1 hw
      exact ⟨[], .nil _, rfl, fun _ => rfl⟩
    · obtain ⟨l, qs, leg, rfl, hq, hlen, hread, hsame⟩ :=
        (underWay_start a i).exists_leg (h.reaches_root hi) hw hj (by simpa using hp)
      have hm := h.mem_of_root hi leg rfl
      obtain ⟨n, hn'⟩ := exists_legAt hm
      obtain ⟨ys, hys, hread', hsame'⟩ := ih _ (hn ▸ hlen) (.inr ⟨l, hm, rfl⟩) hq rfl
      refine ⟨⟨_, n⟩ :: ys, .cons ?_ hys, ?_, fun hc => ?_⟩
      · rw [h.arrival_eq, hn']
        rfl
      · rw [← h.reading_detour, detour_cons hn', reading_append, h.reading_detour, hread',
          ← reading_append, hread]
      · rw [detour_cons hn', hsame' hc]
        exact hsame hc

theorem exists_model (ha : a.WellFormed) {k : Nat} (hk : k < b.size) :
    ∃ i, i < a.size ∧ a.Keeps audible i ∧ a.keptImage audible i = k := by
  rcases k with _ | _ | k
  · exact ⟨0, Nat.lt_of_lt_of_le Nat.two_pos ha.two_le_size, .inl Nat.two_pos, rfl⟩
  · exact ⟨1, ha.two_le_size, .inl Nat.one_lt_two, rfl⟩
  · obtain ⟨i, hi, keeps, he⟩ := h.exists_kept (k + 2) (Nat.le_add_left 2 k) hk
    exact ⟨i, (keeps.resolve_left (Nat.not_lt.2 hi)).1, keeps, he⟩

theorem mem_legs_iff (ha : a.WellFormed) {l : Trip} :
    l ∈ ls ↔ a.Leg l ∧ a.isNil l.root = false ∧ a.Reaches 0 l.root := by
  have h0 : 0 < a.size := Nat.lt_of_lt_of_le Nat.two_pos ha.two_le_size
  constructor
  · intro hl
    obtain ⟨keeps, r, hr, reaches⟩ := h.legs.rooted l hl
    obtain rfl := List.mem_singleton.1 hr
    exact ⟨h.legs.leg l hl, (keeps_audible_iff (reaches.lt_size h0)).1 keeps, reaches⟩
  · rintro ⟨leg, hk, reaches⟩
    obtain ⟨ps, hw⟩ := reaches
    obtain ⟨ys, hys, -⟩ := h.exists_walk (.inl rfl) hw hk
    obtain ⟨j, hj, he, -⟩ := h.isWalk_detour (.inl rfl) hys
    have keeps := (keeps_audible_iff (Reaches.lt_size ⟨ps, hw⟩ h0)).2 hk
    obtain rfl := keptImage_inj (h.keeps_root hj) keeps he
    exact h.mem_of_root hj leg rfl

theorem isNil_eq_false {k : Nat} (hk : k < b.size) : b.isNil k = false := by
  by_cases h2 : k < 2
  · simp [isNil, isSentinel, h2]
  · obtain ⟨i, hi, keeps, rfl⟩ := h.exists_kept k (Nat.not_lt.1 h2) hk
    rcases id keeps with hlt | ⟨-, kept⟩
    · omega
    · have kept : (a.symbolAt i).isNil = false := by simpa [audible] using kept
      simp [isNil, h.symbolAt i hi keeps, kept]

end Skips

-- ---------------------------------------------------------------------------
-- Accepting walks
-- ---------------------------------------------------------------------------

theorem Skips.walkWeight_detour {a b : Automaton ExactWeight} (h : a.Skips b ls)
    (ys : List Place) : a.walkWeight (a.detour ls ys) = b.walkWeight ys := by
  rw [b.walkWeight_eq_sum, h.weights_eq, detour]
  induction ys.filterMap (a.legAt ls) with
  | nil => rfl
  | cons l ms ih => rw [List.flatMap_cons, walkWeight_append, ih, List.map_cons, List.sum_cons]

theorem removeNilStates_walks {a : Automaton ExactWeight} (ha : a.Built)
    (hw : ∀ l ∈ a.links, l.weight.Proper) : ∃ b, a.removeNilStates = .ok b ∧
      (∀ i < b.size, b.isNil i = false) ∧ (∀ s, b.Accepts s ↔ a.Accepts s) ∧
      ∃ f : b.AcceptingWalk → a.AcceptingWalk, f.Injective ∧
        (∀ w, a.reading (f w).1 = b.reading w.1 ∧ a.walkWeight (f w).1 = b.walkWeight w.1) ∧
        (a.NilAcyclic → f.Surjective) := by
  have wf := ha.wellFormed
  have defined : ∀ i ps j, a.IsWalk i ps j → isUndefined (a.walkWeight ps) = false :=
    fun i ps j h => ((wf.weighted hw).walkWeight ExactWeight.proper_zero
      (fun _ _ => ExactWeight.Proper.add) wf h).defined
  obtain ⟨b, ls, hb, h⟩ := removeNilStates_ok wf defined
  have back : ∀ ys, b.IsWalk 0 ys 1 → a.IsWalk 0 (a.detour ls ys) 1 := by
    intro ys hy
    obtain ⟨j, hj, himage, hwalk⟩ := h.isWalk_detour (.inl rfl) hy
    obtain rfl : j = 1 := keptImage_inj (h.keeps_root hj) (.inl Nat.one_lt_two) himage
    exact hwalk
  have found : ∀ ps, a.IsWalk 0 ps 1 → ∃ ys, b.IsWalk 0 ys 1 ∧ b.reading ys = a.reading ps ∧
      (a.NilAcyclic → a.detour ls ys = ps) := fun ps hp => h.exists_walk (.inl rfl) hp rfl
  refine ⟨b, hb, fun i => h.isNil_eq_false, fun s => ⟨?_, ?_⟩,
    fun w => ⟨a.detour ls w.1, back w.1 w.2⟩, fun v w he => ?_, fun w => ?_, fun hc w => ?_⟩
  · rintro ⟨ys, hy, rfl⟩
    exact ⟨_, back ys hy, h.reading_detour ys⟩
  · rintro ⟨ps, hp, rfl⟩
    obtain ⟨ys, hy, hr, -⟩ := found ps hp
    exact ⟨ys, hy, hr⟩
  · exact Subtype.ext (h.detour_inj (.inl rfl) v.2 w.2 (congrArg Subtype.val he))
  · exact ⟨h.reading_detour w.1, h.walkWeight_detour w.1⟩
  · obtain ⟨ys, hy, -, hd⟩ := found w.1 w.2
    exact ⟨⟨ys, hy⟩, Subtype.ext (hd hc)⟩

-- ---------------------------------------------------------------------------
-- A cycle through a nil state
-- ---------------------------------------------------------------------------

def hushedArcs : List (Arc ExactWeight) :=
  [⟨0, 2, .finite 1⟩, ⟨2, 3, .impossible⟩, ⟨2, 3, .finite 0⟩, ⟨3, 2, .finite 1⟩, ⟨3, 1, .finite 0⟩]

def hushed : Automaton ExactWeight :=
  (((empty : Automaton ExactWeight).addState none .nil).addState none (letter "a")).withArcs
    hushedArcs

theorem hushedArcs_proper : ∀ r ∈ hushedArcs, r.weight.Proper := by
  simp [hushedArcs, ExactWeight.Proper]

theorem hushed_built : hushed.Built :=
  (Built.empty.addState none .nil).addState none (letter "a") |>.withProperArcs (by decide)
    hushedArcs_proper

theorem hushed_nilAcyclic : hushed.NilAcyclic :=
  nilAcyclic_of_rank id (by decide)

theorem removeNilStates_hushed : ∃ b, hushed.removeNilStates = .ok b ∧
    (∀ i < b.size, b.isNil i = false) ∧ (∀ s, b.Accepts s ↔ hushed.Accepts s) ∧
    ∃ f : b.AcceptingWalk → hushed.AcceptingWalk, f.Bijective ∧
      ∀ w, hushed.reading (f w).1 = b.reading w.1 ∧
        hushed.walkWeight (f w).1 = b.walkWeight w.1 := by
  obtain ⟨b, hb, hn, hs, f, hf, hw, onto⟩ := removeNilStates_walks hushed_built
    (hushed_built.wellFormed.forall_links hushedArcs_proper)
  exact ⟨b, hb, hn, hs, f, ⟨hf, onto hushed_nilAcyclic⟩, hw⟩

end LogAutomata.Automaton
