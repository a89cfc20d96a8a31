import LogAutomata.Proofs.Kept
import LogAutomata.Proofs.Refusals
import LogAutomata.Proofs.Sums
import LogAutomata.Proofs.Weighted

/-!
# Trips through nil states

A route of the elision stands for a trip: a walk from its root that has only entered
different nil states. One round makes every trip longer by each link of its tip.
Those that come to a kept state are legs of the result, and a kept state that no trip
has come to before is the root of new trips.
-/

namespace LogAutomata

/-- Places in a row from a kept state on. -/
@[ext]
structure Trip where
  root : Nat
  places : List Place
  deriving DecidableEq

namespace Automaton

variable {W : Type}

-- ---------------------------------------------------------------------------
-- Tips
-- ---------------------------------------------------------------------------

def tip (a : Automaton W) (t : Trip) : Nat := (a.entered t.places).getLastD t.root

theorem tip_concat {a : Automaton W} {r : Nat} {ps : List Place} {p : Place} {j : Nat}
    (h : a.arrival p = some j) : a.tip ⟨r, ps ++ [p]⟩ = j := by
  simp [tip, entered_concat h]

theorem IsWalk.tip_eq {a : Automaton W} {i j : Nat} {ps : List Place} (h : a.IsWalk i ps j) :
    a.tip ⟨i, ps⟩ = j := by
  rcases List.eq_nil_or_concat ps with rfl | ⟨qs, p, rfl⟩
  · exact isWalk_nil_iff.1 h
  · rw [List.concat_eq_append] at h ⊢
    exact tip_concat (isWalk_concat_iff.1 h).2

/-- The trip has only entered different nil states. -/
structure UnderWay (a : Automaton W) (t : Trip) : Prop where
  walk : a.IsWalk t.root t.places (a.tip t)
  nils : ∀ j ∈ a.entered t.places, a.isNil j = true
  nodup : (a.entered t.places).Nodup

/-- The trip has come to a kept state at last, and was under way until then. -/
structure Leg (a : Automaton W) (t : Trip) : Prop where
  exists_last : ∃ ps p, t.places = ps ++ [p] ∧ a.UnderWay ⟨t.root, ps⟩
  walk : a.IsWalk t.root t.places (a.tip t)
  kept : a.isNil (a.tip t) = false

theorem underWay_start (a : Automaton W) (r : Nat) : a.UnderWay ⟨r, []⟩ where
  walk := .nil r
  nils := by simp [entered]
  nodup := List.nodup_nil

theorem UnderWay.of_append {a : Automaton W} {r : Nat} {ps qs : List Place}
    (h : a.UnderWay ⟨r, ps ++ qs⟩) : a.UnderWay ⟨r, ps⟩ := by
  obtain ⟨hw, hn, hd⟩ := h
  obtain ⟨j, hj, -⟩ := isWalk_append_iff.1 hw
  rw [entered_append] at hn hd
  exact ⟨by rwa [hj.tip_eq], fun k hk => hn k (List.mem_append_left _ hk),
    (List.nodup_append.1 hd).1⟩

theorem UnderWay.isNil_tip {a : Automaton W} {t : Trip} (h : a.UnderWay t) (hp : t.places ≠ []) :
    a.isNil (a.tip t) = true := by
  obtain ⟨r, ps⟩ := t
  rcases List.eq_nil_or_concat ps with rfl | ⟨qs, p, rfl⟩
  · exact absurd rfl hp
  · rw [List.concat_eq_append] at h ⊢
    obtain ⟨-, hj⟩ := isWalk_concat_iff.1 h.walk
    refine h.nils _ ?_
    rw [entered_concat hj]
    exact List.mem_append_right _ List.mem_cons_self

theorem Leg.places_ne_nil {a : Automaton W} {t : Trip} (h : a.Leg t) : t.places ≠ [] := by
  obtain ⟨ps, p, hp, -⟩ := h.exists_last
  simp [hp]

/-- No leg goes on after another one. -/
theorem Leg.eq_of_prefix {a : Automaton W} {t u : Trip} (ht : a.Leg t) (hu : a.Leg u)
    (hr : t.root = u.root) (hp : t.places <+: u.places) : t = u := by
  obtain ⟨ps, p, hps, way⟩ := hu.exists_last
  rw [hps] at hp
  rcases List.prefix_concat_iff.1 hp with hp | ⟨qs, rfl⟩
  · exact Trip.ext hr (hp.trans hps.symm)
  · rw [← hr] at way
    have := way.of_append.isNil_tip ht.places_ne_nil
    rw [ht.kept] at this
    cases this

theorem Leg.eq_of_append {a : Automaton W} {t u : Trip} (ht : a.Leg t) (hu : a.Leg u)
    (hr : t.root = u.root) {ps qs : List Place} (he : t.places ++ ps = u.places ++ qs) : t = u := by
  rcases List.prefix_or_prefix_of_prefix (List.prefix_append _ ps) (he ▸ List.prefix_append _ qs)
    with hp | hp
  · exact ht.eq_of_prefix hu hr hp
  · exact (hu.eq_of_prefix ht hr.symm hp).symm

/-- A leg that begins with a trip under way takes one more link, and then it is there or
the longer trip is under way. -/
theorem Leg.exists_next {a : Automaton W} {t u : Trip} (h : a.Leg t) (hu : a.UnderWay u)
    (hr : t.root = u.root) (hp : u.places <+: t.places) :
    ∃ n, a.IsWalk u.root (u.places ++ [⟨a.tip u, n⟩]) (a.tip ⟨u.root, u.places ++ [⟨a.tip u, n⟩]⟩) ∧
      (t = ⟨u.root, u.places ++ [⟨a.tip u, n⟩]⟩ ∨
        a.UnderWay ⟨u.root, u.places ++ [⟨a.tip u, n⟩]⟩ ∧
          u.places ++ [⟨a.tip u, n⟩] <+: t.places) := by
  obtain ⟨rest, hp⟩ := hp
  obtain ⟨r', qs⟩ := u
  obtain ⟨r, ps⟩ := t
  obtain rfl : r = r' := hr
  obtain rfl : qs ++ rest = ps := hp
  obtain ⟨j, hj, hrest⟩ := isWalk_append_iff.1 h.walk
  cases rest with
  | nil =>
    rw [List.append_nil] at h
    obtain ⟨ps, p, hq, -⟩ := h.exists_last
    have hne : qs ≠ [] := by
      rintro rfl
      cases ps <;> cases hq
    exact absurd (hu.isNil_tip hne) (by simp [h.kept])
  | cons q rest =>
    obtain ⟨hq, m, hm, hrest⟩ := isWalk_cons_iff.1 hrest
    have walk : a.IsWalk r (qs ++ [q]) m := isWalk_concat_iff.2 ⟨hq ▸ hj, hm⟩
    have here : (⟨a.tip ⟨r, qs⟩, q.number⟩ : Place) = q := by rw [hj.tip_eq, ← hq]
    refine ⟨q.number, ?_⟩
    rw [here, walk.tip_eq]
    refine ⟨walk, ?_⟩
    rcases List.eq_nil_or_concat rest with rfl | ⟨rest, p, rfl⟩
    · exact .inl rfl
    · obtain ⟨ps, p', hps, way⟩ := h.exists_last
      have parts : qs ++ q :: rest ++ [p] = ps ++ [p'] := by
        rw [← hps, List.concat_eq_append, List.append_assoc]
        rfl
      have front : qs ++ q :: rest = ps := (List.append_inj' parts rfl).1
      have way : a.UnderWay ⟨r, (qs ++ [q]) ++ rest⟩ := by
        rw [List.append_assoc]
        exact front ▸ way
      exact .inr ⟨way.of_append, ⟨rest ++ [p], by simp⟩⟩

-- ---------------------------------------------------------------------------
-- One link more
-- ---------------------------------------------------------------------------

def longer (a : Automaton W) (t : Trip) : List Trip :=
  (a.arcsFrom (a.tip t)).zipIdx.map fun x => ⟨t.root, t.places ++ [⟨a.tip t, x.2⟩]⟩

variable [LogWeight W]

def routeOf (a : Automaton W) (t : Trip) : Route W where
  root := t.root
  tip := a.tip t
  weight := a.walkWeight t.places
  nils := (a.entered t.places).reverse

def legArc (a : Automaton W) (image : Nat → Nat) (t : Trip) : Arc W :=
  ⟨image t.root, image (a.tip t), a.walkWeight t.places⟩

def outcome (a : Automaton W) (image : Nat → Nat) (t : Trip) : Advance W :=
  if a.isNil (a.tip t) then
    if (a.entered t.places).Nodup then .passed (a.routeOf t) else .cut
  else .arrived (a.tip t) (a.legArc image t)

section
variable {a : Automaton W} (ha : a.WellFormed) {t u : Trip}
include ha

theorem mem_longer_iff (ht : a.IsWalk t.root t.places (a.tip t)) : u ∈ a.longer t ↔
    u.root = t.root ∧ ∃ n, u.places = t.places ++ [⟨a.tip t, n⟩] ∧
      a.IsWalk u.root u.places (a.tip u) := by
  obtain ⟨r, ps⟩ := u
  rw [longer, List.mem_map]
  constructor
  · rintro ⟨x, hx, he⟩
    obtain ⟨rfl, rfl⟩ := Trip.mk.inj he
    have arrives := (arrival_eq_some_iff ha).2 ⟨x.1, hx, rfl⟩
    refine ⟨rfl, x.2, rfl, ?_⟩
    rw [tip_concat arrives]
    exact isWalk_concat_iff.2 ⟨ht, arrives⟩
  · rintro ⟨rfl, n, rfl, hw⟩
    obtain ⟨e, he, -⟩ := (arrival_eq_some_iff ha).1 (isWalk_concat_iff.1 hw).2
    exact ⟨(e, n), he, rfl⟩

omit ha [LogWeight W] in
theorem nodup_longer (a : Automaton W) (t : Trip) : (a.longer t).Nodup := by
  have numbers : a.longer t = ((a.arcsFrom (a.tip t)).zipIdx.map Prod.snd).map fun n =>
      ⟨t.root, t.places ++ [⟨a.tip t, n⟩]⟩ := by
    rw [longer, List.map_map]
    rfl
  rw [numbers, List.zipIdx_map_snd]
  exact (List.nodup_range' ..).map fun n m h => by simpa using h

theorem UnderWay.next (ht : a.UnderWay t) (hu : u ∈ a.longer t) :
    (a.isNil (a.tip u) = false → a.Leg u) ∧
      (a.isNil (a.tip u) = true → (a.entered u.places).Nodup → a.UnderWay u) := by
  obtain ⟨hr, n, hp, hw⟩ := (mem_longer_iff ha ht.walk).1 hu
  have last : a.arrival ⟨a.tip t, n⟩ = some (a.tip u) := by
    rw [hp] at hw
    exact (isWalk_concat_iff.1 hw).2
  constructor
  · intro hk
    refine ⟨⟨t.places, _, hp, ?_⟩, hw, hk⟩
    rw [hr]
    exact ht
  · intro hn nodup
    refine ⟨hw, fun j hj => ?_, nodup⟩
    rw [hp, entered_concat last] at hj
    rcases List.mem_append.1 hj with hj | hj
    · exact ht.nils j hj
    · rw [List.mem_singleton.1 hj]
      exact hn

end

-- ---------------------------------------------------------------------------
-- One round
-- ---------------------------------------------------------------------------

section
variable {a target : Automaton W} {table : Table} {roots : List Nat} {r : Route W}
  {routes : List (Route W)}

theorem elide_eq_error {e : Fault} (h : a.advances table target (r :: routes) = .error e) :
    a.elide table target ⟨roots, r :: routes⟩ = .error e := by
  rw [elide]
  split
  · next e' he =>
    obtain rfl := Except.error.inj (h.symm.trans he)
    rfl
  · next vs hvs => cases h.symm.trans hvs

theorem elide_of_advances {vs : List (Advance W)}
    (h : a.advances table target (r :: routes) = .ok vs) :
    a.elide table target ⟨roots, r :: routes⟩ = (a.elide table target (.following roots vs)).map
      (vs.filterMap Advance.arc? ++ ·) := by
  rw [elide]
  split
  · next e he => cases h.symm.trans he
  · next vs' hvs =>
    obtain rfl := Except.ok.inj (h.symm.trans hvs)
    rfl

end

def audible (s : Symbol) : Bool := !s.isNil

omit [LogWeight W] in
theorem keeps_audible_iff {a : Automaton W} {i : Nat} (hi : i < a.size) :
    a.Keeps audible i ↔ a.isNil i = false := by
  by_cases h2 : i < 2 <;> simp [Keeps, audible, isNil, isSentinel, h2, hi]

omit [LogWeight W] in
theorem Leg.keeps_tip {a : Automaton W} {t : Trip} (h : a.Leg t) : a.Keeps audible (a.tip t) := by
  obtain ⟨ps, p, hp, -⟩ := h.exists_last
  have walk := h.walk
  rw [hp] at walk
  have arrives := mem_successors_of_arrival (isWalk_concat_iff.1 walk).2
  exact (keeps_audible_iff (lt_size_of_mem_successors arrives).2).2 h.kept

theorem advance_eq {a : Automaton W} {r : Route W} (hr : a.Keeps audible r.root)
    (hlt : r.root < a.size) {l : Link W} {j : Nat} (hl : a.position? l.dest = some j) :
    a.advance (a.remap { keep := audible } empty).1 (a.remap { keep := audible } empty).2 r l =
      if a.isNil j then
        .ok (if j ∈ r.nils then .cut else .passed ⟨r.root, j, r.weight + l.weight, j :: r.nils⟩)
      else ((a.remap { keep := audible } empty).2.arc? (.inner (a.keptImage audible r.root))
        (.inner (a.keptImage audible j)) (r.weight + l.weight)).map (.arrived j) := by
  obtain ⟨hd, inside⟩ := position?_eq_some_iff.1 hl
  have owned : a.owned "remove_nil_states" l.dest = .ok j := owned_eq_ok_iff.2 ⟨hd, inside⟩
  simp only [advance, owned, ok_bind]
  by_cases hn : a.isNil j = true
  · rw [if_pos hn, if_pos hn]
    rfl
  · have kept : a.Keeps audible j := (keeps_audible_iff inside).2 (by simpa using hn)
    have src := mapped_inner hlt (remap_table hr) "remove_nil_states"
    have dest := mapped_inner inside (remap_table kept) "remove_nil_states"
    rw [if_neg hn, if_neg hn, src, ok_bind, dest, ok_bind]
    rfl

/-- The outcome for a trip that has just been made longer. A leg becomes a link, which may be
refused. -/
def attempt (a : Automaton W) (t : Trip) : Except Fault (Advance W) :=
  if a.isNil (a.tip t) then .ok (a.outcome (a.keptImage audible) t)
  else ((a.remap { keep := audible } empty).2.arc? (.inner (a.keptImage audible t.root))
    (.inner (a.keptImage audible (a.tip t))) (a.walkWeight t.places)).map (.arrived (a.tip t))

section
variable {a : Automaton W} {t : Trip}

theorem advance_longer (ha : a.WellFormed) (ht : a.UnderWay t) (hr : a.Keeps audible t.root)
    (hlt : t.root < a.size) {x : (Nat × W) × Nat} (hx : x ∈ (a.arcsFrom (a.tip t)).zipIdx) :
    a.advance (a.remap { keep := audible } empty).1 (a.remap { keep := audible } empty).2
        (a.routeOf t) ⟨.inner (a.tip t), .inner x.1.1, x.1.2⟩ =
      a.attempt ⟨t.root, t.places ++ [⟨a.tip t, x.2⟩]⟩ := by
  have inside : x.1.1 < a.size :=
    dest_lt_size (List.mem_of_getElem? (List.mem_zipIdx_iff_getElem?.1 hx))
  have arrives := (arrival_eq_some_iff ha).2 ⟨x.1, hx, rfl⟩
  have tip : a.tip ⟨t.root, t.places ++ [⟨a.tip t, x.2⟩]⟩ = x.1.1 := tip_concat arrives
  have entered : a.entered (t.places ++ [⟨a.tip t, x.2⟩]) = a.entered t.places ++ [x.1.1] :=
    entered_concat arrives t.places
  have weight : a.walkWeight (t.places ++ [⟨a.tip t, x.2⟩]) = a.walkWeight t.places + x.1.2 :=
    walkWeight_concat ha hx
  rw [advance_eq hr hlt (position?_eq_some_iff.2 ⟨rfl, inside⟩)]
  simp only [attempt, outcome, tip, weight]
  by_cases hn : a.isNil x.1.1 = true
  · have again : (a.entered t.places ++ [x.1.1]).Nodup ↔ x.1.1 ∉ (a.routeOf t).nils := by
      rw [← List.concat_eq_append, List.nodup_concat]
      simp [routeOf, ht.nodup]
    rw [if_pos hn, if_pos hn, if_pos hn, entered]
    by_cases hseen : x.1.1 ∈ (a.routeOf t).nils
    · rw [if_pos hseen, if_neg fun h => again.1 h hseen]
    · rw [if_neg hseen, if_pos (again.2 hseen)]
      simp [routeOf, tip, entered, weight]
  · rw [if_neg hn, if_neg hn]
    rfl

theorem attempt_cases (hr : a.Keeps audible t.root) (inside : a.tip t < a.size) :
    (a.isNil (a.tip t) = false ∧ isUndefined (a.walkWeight t.places) = true) ∧
        (∃ src dest, a.attempt t = .error (.undefinedWeight src dest)) ∨
      (a.isNil (a.tip t) = false → isUndefined (a.walkWeight t.places) = false) ∧
        a.attempt t = .ok (a.outcome (a.keptImage audible) t) := by
  by_cases hn : a.isNil (a.tip t) = true
  · exact .inr ⟨fun h => absurd hn (ne_true_of_eq_false h), if_pos hn⟩
  · have kept : a.Keeps audible (a.tip t) := (keeps_audible_iff inside).2 (eq_false_of_ne_true hn)
    have arc := arc?_inside (keptImage_lt_size hr) (keptImage_lt_size kept) (a.walkWeight t.places)
    by_cases hd : isUndefined (a.walkWeight t.places) = true
    · refine .inl ⟨⟨eq_false_of_ne_true hn, hd⟩, ?_⟩
      rw [attempt, if_neg hn, arc, if_pos hd]
      exact ⟨_, _, rfl⟩
    · refine .inr ⟨fun _ => eq_false_of_ne_true hd, ?_⟩
      rw [attempt, outcome, if_neg hn, if_neg hn, arc, if_neg hd]
      rfl

end

end Automaton

end LogAutomata
