import LogAutomata.Proofs.LeadsOut
import LogAutomata.Proofs.Trips

/-!
# What the elision visits

The elision of nil states follows the links from Init on, and on the way it adds weights,
whose sum may be undefined. Unless it stops for that, it comes to every state that Init
reaches, and so to every link that leads out.
-/

namespace LogAutomata

variable {W : Type}

-- ---------------------------------------------------------------------------
-- What a frontier takes
-- ---------------------------------------------------------------------------

structure Frontier.Takes [Zero W] (f : Frontier W) (vs : List (Advance W)) (f' : Frontier W) :
    Prop where
  mem_roots : ∀ i, i ∈ f'.roots ↔ i ∈ f.roots ∨ ∃ arc, .arrived i arc ∈ vs
  found : ∀ i ∈ f'.roots, i ∈ f.roots ∨ ∃ r ∈ f'.routes, r.tip = i
  passed : ∀ r, r ∈ f.routes ∨ .passed r ∈ vs → r ∈ f'.routes
  mem_routes : ∀ r ∈ f'.routes, r ∈ f.routes ∨ .passed r ∈ vs ∨
    ∃ i arc, .arrived i arc ∈ vs ∧ r = { root := i, tip := i, weight := 0 }

namespace Frontier
variable [Zero W] {f g h : Frontier W} {vs : List (Advance W)}

theorem Takes.nil (f : Frontier W) : f.Takes [] f where
  mem_roots := by simp
  found _ hi := .inl hi
  passed := by simp
  mem_routes _ hr := .inl hr

theorem takes_take (f : Frontier W) (v : Advance W) : f.Takes [v] (f.take v) := by
  cases v with
  | cut => exact ⟨by simp [take], fun _ => .inl, by simp [take], fun _ => .inl⟩
  | passed r =>
    exact ⟨by simp [take], fun _ => .inl, by simp [take, or_comm], by simp [take, or_comm]⟩
  | arrived i arc =>
    by_cases hi : i ∈ f.roots
    · rw [take, if_pos hi]
      exact ⟨by grind, fun _ => .inl, by simp, fun _ => .inl⟩
    · rw [take, if_neg hi]
      refine ⟨by grind, fun k hk => ?_, by grind, by grind⟩
      rcases List.mem_cons.1 hk with rfl | hk
      · exact .inr ⟨_, List.mem_cons_self, rfl⟩
      · exact .inl hk

theorem Takes.cons {v : Advance W} (h1 : f.Takes [v] g) (h2 : g.Takes vs h) :
    f.Takes (v :: vs) h where
  mem_roots i := by
    rw [h2.mem_roots, h1.mem_roots, or_assoc]
    simp [exists_or]
  found i hi := by
    rcases h2.found i hi with hi | hi
    · rcases h1.found i hi with hi | ⟨r, hr, ht⟩
      · exact .inl hi
      · exact .inr ⟨r, h2.passed r (.inl hr), ht⟩
    · exact .inr hi
  passed r hr := by
    have := h1.passed r
    have := h2.passed r
    grind
  mem_routes r hr := by
    have := h1.mem_routes r
    have := h2.mem_routes r hr
    grind

theorem takes_foldl (f : Frontier W) (vs : List (Advance W)) : f.Takes vs (vs.foldl take f) := by
  induction vs generalizing f with
  | nil => exact .nil f
  | cons v vs ih => exact (f.takes_take v).cons (ih _)

theorem takes_following (roots : List Nat) (vs : List (Advance W)) :
    Takes ⟨roots, []⟩ vs (following roots vs) := by
  obtain ⟨h1, h2, h3, h4⟩ := takes_foldl ⟨roots, []⟩ vs
  refine ⟨h1, fun i hi => (h2 i hi).imp_right ?_, fun r hr => List.mem_reverse.2 (h3 r hr),
    fun r hr => h4 r (List.mem_reverse.1 hr)⟩
  rintro ⟨r, hr, ht⟩
  exact ⟨r, List.mem_reverse.2 hr, ht⟩

end Frontier

namespace Automaton

variable [LogWeight W] {a : Automaton W} {r : Route W} {l : Link W}

-- ---------------------------------------------------------------------------
-- One more link
-- ---------------------------------------------------------------------------

/-- The route is a walk from a kept state that Init reaches, with the weights along it. -/
structure Sound (a : Automaton W) (r : Route W) : Prop where
  keeps : a.Keeps audible r.root
  lt_size : r.root < a.size
  reached : a.Reaches 0 r.root
  walk : ∃ ps, a.IsWalk r.root ps r.tip ∧ a.walkWeight ps = r.weight

theorem sound_start {i : Nat} (hk : a.Keeps audible i) (hi : i < a.size) (h0 : a.Reaches 0 i) :
    a.Sound { root := i, tip := i, weight := 0 } := ⟨hk, hi, h0, [], .nil i, rfl⟩

theorem Sound.exists_walk (h : a.Sound r) (hl : l ∈ a.linksFrom r.tip) {j : Nat}
    (hj : a.position? l.dest = some j) :
    ∃ ps, a.IsWalk r.root ps j ∧ a.walkWeight ps = r.weight + l.weight := by
  obtain ⟨ps, hw, he⟩ := h.walk
  obtain ⟨n, hn⟩ := List.getElem?_of_mem hl
  have hp : a.linkAt ⟨r.tip, n⟩ = some l := hn
  have arrives : a.arrival ⟨r.tip, n⟩ = some j := by rw [arrival, hp, Option.bind_some, hj]
  exact ⟨_, isWalk_concat_iff.2 ⟨hw, arrives⟩, by rw [walkWeight_concat_linkAt hp, he]⟩

/-- The elision stops at a state without counterpart, or at a walk whose weights have no sum. -/
def Stops (a : Automaton W) (e : Fault) : Prop :=
  (∃ s, e = .unmapped "remove_nil_states" s) ∨ (∃ s d, e = .undefinedWeight s d) ∧
    ∃ i ps k, a.Reaches 0 i ∧ a.IsWalk i ps k ∧ isUndefined (a.walkWeight ps) = true

inductive Comes (a : Automaton W) (r : Route W) (j : Nat) : Advance W → Prop
  | cut : j ∈ r.nils → Comes a r j .cut
  | passed {w : W} : a.Sound ⟨r.root, j, w, j :: r.nils⟩ →
      Comes a r j (.passed ⟨r.root, j, w, j :: r.nils⟩)
  | arrived {arc : Arc W} : a.Sound { root := j, tip := j, weight := 0 } →
      Comes a r j (.arrived j arc)

theorem Sound.advance_cases (h : a.Sound r) (hl : l ∈ a.linksFrom r.tip) :
    (∃ e, a.advance (a.remap { keep := audible } empty).1 (a.remap { keep := audible } empty).2
      r l = .error e ∧ a.Stops e) ∨
    ∃ v j, a.advance (a.remap { keep := audible } empty).1
      (a.remap { keep := audible } empty).2 r l = .ok v ∧ a.position? l.dest = some j ∧
        a.Comes r j v := by
  cases hj : a.position? l.dest with
  | none =>
    refine .inl ⟨.unmapped "remove_nil_states" (a.profile l.dest), ?_, .inl ⟨_, rfl⟩⟩
    simp only [advance, owned, hj]
    rfl
  | some j =>
    obtain ⟨ps, hw, he⟩ := h.exists_walk hl hj
    have inside := (position?_eq_some_iff.1 hj).2
    rw [advance_eq h.keeps h.lt_size hj]
    by_cases hn : a.isNil j = true
    · rw [if_pos hn]
      refine .inr ⟨_, j, rfl, rfl, ?_⟩
      by_cases again : j ∈ r.nils
      · rw [if_pos again]
        exact .cut again
      · rw [if_neg again]
        exact .passed ⟨h.keeps, h.lt_size, h.reached, ps, hw, he⟩
    · have keeps : a.Keeps audible j := (keeps_audible_iff inside).2 (by simpa using hn)
      rw [if_neg hn, arc?_inside (keptImage_lt_size h.keeps) (keptImage_lt_size keeps)]
      cases hd : isUndefined (r.weight + l.weight) with
      | true => exact .inl ⟨_, rfl, .inr ⟨⟨_, _, rfl⟩, r.root, ps, j, h.reached, hw, he ▸ hd⟩⟩
      | false =>
        exact .inr ⟨_, j, rfl, rfl, .arrived (sound_start keeps inside (h.reached.trans ⟨ps, hw⟩))⟩

section
variable {routes : List (Route W)} (sound : ∀ r ∈ routes, a.Sound r)
include sound

theorem stops_of_advances {e : Fault} (h : a.advances (a.remap { keep := audible } empty).1
    (a.remap { keep := audible } empty).2 routes = .error e) : a.Stops e := by
  obtain ⟨x, hx, he⟩ := exists_of_mapM_eq_error h
  obtain ⟨r, hr, hx⟩ := List.mem_flatMap.1 hx
  obtain ⟨l, hl, rfl⟩ := List.mem_map.1 hx
  rcases (sound r hr).advance_cases hl with ⟨e', he', stops⟩ | ⟨v, -, hv, -⟩
  · obtain rfl := Except.error.inj (he.symm.trans he')
    exact stops
  · cases he.symm.trans hv

variable {vs : List (Advance W)} (h : a.advances (a.remap { keep := audible } empty).1
  (a.remap { keep := audible } empty).2 routes = .ok vs)
include h

theorem comes_of_advances {r : Route W} (hr : r ∈ routes) (hl : l ∈ a.linksFrom r.tip) :
    ∃ v ∈ vs, ∃ j, a.position? l.dest = some j ∧ a.Comes r j v := by
  have hm : (r, l) ∈ routes.flatMap fun r => (a.linksFrom r.tip).map fun l => (r, l) :=
    List.mem_flatMap.2 ⟨r, hr, List.mem_map_of_mem hl⟩
  obtain ⟨v, hv, he⟩ := exists_of_mapM_eq_ok h hm
  rcases (sound r hr).advance_cases hl with ⟨e, he', -⟩ | ⟨w, j, hw, hj, comes⟩
  · cases he.symm.trans he'
  · obtain rfl := Except.ok.inj (he.symm.trans hw)
    exact ⟨v, hv, j, hj, comes⟩

theorem exists_of_comes {v : Advance W} (hv : v ∈ vs) : ∃ r ∈ routes, ∃ j, a.Comes r j v := by
  obtain ⟨x, hx, he⟩ := mem_of_mapM_eq_ok h hv
  obtain ⟨r, hr, hx⟩ := List.mem_flatMap.1 hx
  obtain ⟨l, hl, rfl⟩ := List.mem_map.1 hx
  rcases (sound r hr).advance_cases hl with ⟨e, he', -⟩ | ⟨w, j, hw, -, comes⟩
  · cases he.symm.trans he'
  · obtain rfl := Except.ok.inj (he.symm.trans hw)
    exact ⟨r, hr, j, comes⟩

end

-- ---------------------------------------------------------------------------
-- The whole search
-- ---------------------------------------------------------------------------

/-- The links of the state have been followed, or come next. -/
def Covered (explored : List Nat) (f : Frontier W) (i : Nat) : Prop :=
  i ∈ explored ∨ ∃ r ∈ f.routes, r.tip = i

structure Searching (a : Automaton W) (explored : List Nat) (f : Frontier W) : Prop where
  tight : ∀ i ∈ explored, ¬a.Leaks i
  closed : ∀ i ∈ explored, ∀ j ∈ a.successors i, Covered explored f j
  start : 0 ∈ f.roots
  roots : ∀ i ∈ f.roots, Covered explored f i
  nils : ∀ r ∈ f.routes, ∀ i ∈ r.nils, Covered explored f i
  sound : ∀ r ∈ f.routes, a.Sound r

theorem searching_start (h : 0 < a.size) :
    a.Searching [] ⟨[0], [{ root := 0, tip := 0, weight := 0 }]⟩ where
  tight := by simp
  closed := by simp
  start := List.mem_cons_self
  roots i hi := .inr ⟨_, List.mem_cons_self, (List.mem_singleton.1 hi).symm⟩
  nils r hr i hi := by
    rw [List.mem_singleton.1 hr] at hi
    cases hi
  sound r hr := by
    rw [List.mem_singleton.1 hr]
    exact sound_start (.inl Nat.two_pos) h (.refl a 0)

section
variable {explored roots : List Nat} {routes : List (Route W)} {f : Frontier W}

omit [LogWeight W] in
theorem covered_iff {i : Nat} : Covered explored f i ↔ i ∈ explored ++ f.routes.map Route.tip := by
  rw [List.mem_append, List.mem_map]
  rfl

namespace Searching

variable (h : a.Searching explored ⟨roots, routes⟩) {vs : List (Advance W)}
  (hv : a.advances (a.remap { keep := audible } empty).1 (a.remap { keep := audible } empty).2
    routes = .ok vs)
include h

theorem roots_next {i : Nat} (hi : i ∈ (Frontier.following roots vs).roots) :
    Covered (explored ++ routes.map Route.tip) (.following roots vs) i := by
  rcases (Frontier.takes_following roots vs).found i hi with hi | hi
  · exact .inl (covered_iff.1 (h.roots i hi))
  · exact .inr hi

include hv

theorem closed_next {r : Route W} (hr : r ∈ routes) {j : Nat} (hj : j ∈ a.successors r.tip) :
    Covered (explored ++ routes.map Route.tip) (.following roots vs) j := by
  have takes := Frontier.takes_following roots vs
  obtain ⟨l, hl, hp⟩ := List.mem_filterMap.1 hj
  obtain ⟨v, hm, k, hk, comes⟩ := comes_of_advances h.sound hv hr hl
  obtain rfl := Option.some.inj (hp.symm.trans hk)
  cases comes with
  | cut hn => exact .inl (covered_iff.1 (h.nils r hr j hn))
  | passed => exact .inr ⟨_, takes.passed _ (.inr hm), rfl⟩
  | arrived => exact h.roots_next ((takes.mem_roots j).2 (.inr ⟨_, hm⟩))

theorem route_next {r : Route W} (hr : r ∈ (Frontier.following roots vs).routes) : a.Sound r ∧
    ∀ i ∈ r.nils, Covered (explored ++ routes.map Route.tip) (.following roots vs) i := by
  rcases (Frontier.takes_following roots vs).mem_routes r hr with old | passed | ⟨k, arc, hm, rfl⟩
  · cases old
  · obtain ⟨s, hs, j, comes⟩ := exists_of_comes h.sound hv passed
    cases comes with
    | passed sound =>
      refine ⟨sound, List.forall_mem_cons.2 ⟨.inr ⟨_, hr, rfl⟩, fun i hi => ?_⟩⟩
      exact .inl (covered_iff.1 (h.nils s hs i hi))
  · obtain ⟨s, hs, j, comes⟩ := exists_of_comes h.sound hv hm
    cases comes with
    | arrived sound => exact ⟨sound, by simp⟩

theorem step : a.Searching (explored ++ routes.map Route.tip) (.following roots vs) := by
  have cases_of_mem : ∀ {i}, i ∈ explored ++ routes.map Route.tip →
      i ∈ explored ∨ ∃ r ∈ routes, r.tip = i :=
    fun hi => (covered_iff (f := ⟨roots, routes⟩)).2 hi
  refine ⟨fun i hi => ?_, fun i hi j hj => ?_, ?_, fun i => h.roots_next,
    fun r hr => (h.route_next hv hr).2, fun r hr => (h.route_next hv hr).1⟩
  · rcases cases_of_mem hi with hi | ⟨r, hr, rfl⟩
    · exact h.tight i hi
    · rintro ⟨l, hl, out⟩
      obtain ⟨-, -, j, hj, -⟩ := comes_of_advances h.sound hv hr hl
      rw [owns, hj] at out
      cases out
  · rcases cases_of_mem hi with hi | ⟨r, hr, rfl⟩
    · exact .inl (covered_iff.1 (h.closed i hi j hj))
    · exact h.closed_next hv hr hj
  · exact ((Frontier.takes_following roots vs).mem_roots 0).2 (.inl h.start)

end Searching

theorem Searching.done (h : a.Searching explored ⟨roots, []⟩) : ¬a.LeadsOut := by
  have explored_of : ∀ {i}, Covered explored ⟨roots, ([] : List (Route W))⟩ i → i ∈ explored := by
    rintro i (hi | ⟨r, hr, -⟩)
    · exact hi
    · cases hr
  exact not_leadsOut_of_closed (P := (· ∈ explored)) (explored_of (h.roots 0 h.start))
    (fun i hi j hj => explored_of (h.closed i hi j hj)) h.tight

theorem Searching.elide (h : a.Searching explored f) :
    (∃ e, a.elide (a.remap { keep := audible } empty).1 (a.remap { keep := audible } empty).2 f =
      .error e ∧ a.Stops e) ∨ ¬a.LeadsOut := by
  induction f using elide.induct a (a.remap { keep := audible } empty).1
      (a.remap { keep := audible } empty).2 generalizing explored with
  | case1 roots => exact .inr h.done
  | case2 roots r routes e he => exact .inl ⟨e, elide_eq_error he, stops_of_advances h.sound he⟩
  | case3 roots r routes vs hvs ih =>
    rcases ih (h.step hvs) with ⟨e, he, stops⟩ | tight
    · refine .inl ⟨e, ?_, stops⟩
      rw [elide_of_advances hvs, he]
      rfl
    · exact .inr tight

end

/-- Where a link leads out the elision stops, there or before. -/
theorem removeNilStates_stops (h : a.LeadsOut) :
    ∃ e, a.removeNilStates = .error e ∧ a.Stops e := by
  obtain ⟨i, hi, leak⟩ := id h
  have start := searching_start (Nat.zero_lt_of_lt leak.lt_size)
  obtain ⟨e, he, stops⟩ := start.elide.resolve_right fun hn => hn h
  refine ⟨e, ?_, stops⟩
  have := congrArg (Except.map (a.remap { keep := audible } empty).2.withArcs) he
  exact this

end Automaton

end LogAutomata
