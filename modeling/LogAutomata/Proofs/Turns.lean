import LogAutomata.Proofs.Legs

/-!
# One route at a time

The routes wait in a queue. A turn takes the first one and puts the routes that come next behind
the others. Turn by turn the elision makes the same links in the same order as round by round,
and stops at the same fault.

The turns come to an end whatever cycles there are. Every waiting route and every root that is
still to be found is worth as many turns as can come of it, and a turn takes away more than it
adds.
-/

namespace LogAutomata

variable {W : Type}

-- ---------------------------------------------------------------------------
-- Routes behind others
-- ---------------------------------------------------------------------------

namespace Frontier

variable [Zero W]

theorem take_append (f : Frontier W) (routes : List (Route W)) (v : Advance W) :
    take ⟨f.roots, f.routes ++ routes⟩ v = ⟨(f.take v).roots, (f.take v).routes ++ routes⟩ := by
  cases v with
  | arrived dest arc => by_cases hd : dest ∈ f.roots <;> simp [take, hd]
  | passed route => rfl
  | cut => rfl

theorem foldl_take_append (vs : List (Advance W)) (f : Frontier W) (routes : List (Route W)) :
    vs.foldl take ⟨f.roots, f.routes ++ routes⟩ =
      ⟨(vs.foldl take f).roots, (vs.foldl take f).routes ++ routes⟩ := by
  induction vs generalizing f with
  | nil => rfl
  | cons v vs ih => rw [List.foldl_cons, take_append, ih, List.foldl_cons]

theorem following_append (roots : List Nat) (vs ws : List (Advance W)) :
    following roots (vs ++ ws) = ⟨(following (following roots vs).roots ws).roots,
      (following roots vs).routes ++ (following (following roots vs).roots ws).routes⟩ := by
  have later := foldl_take_append ws ⟨(vs.foldl take ⟨roots, []⟩).roots, []⟩
    (vs.foldl take ⟨roots, []⟩).routes
  rw [List.nil_append] at later
  simp only [following, List.foldl_append, later, List.reverse_append]

def start : Frontier W := ⟨[0], [{ root := 0, tip := 0, weight := 0 }]⟩

def requeue (roots : List Nat) (routes : List (Route W)) (vs : List (Advance W)) : Frontier W :=
  { following roots vs with routes := routes ++ (following roots vs).routes }

theorem requeue_nil (roots : List Nat) (routes : List (Route W)) :
    requeue roots routes [] = ⟨roots, routes⟩ := by
  simp [requeue, following]

theorem requeue_append (roots : List Nat) (routes : List (Route W)) (vs ws : List (Advance W)) :
    requeue roots routes (vs ++ ws) =
      requeue (following roots vs).roots (routes ++ (following roots vs).routes) ws := by
  simp [requeue, following_append]

end Frontier

-- ---------------------------------------------------------------------------
-- The worth of what waits
-- ---------------------------------------------------------------------------

/-- The turns that can come of a route with these nil states, if no state has more than `m`
links. -/
def worth (n m : Nat) (nils : List Nat) : Nat := (m + 1) ^ unseen n nils

theorem worth_pos (n m : Nat) (nils : List Nat) : 0 < worth n m nils := Nat.pow_pos (Nat.succ_pos m)

namespace Frontier

/-- The worth of the roots that are still to be found and of the routes. -/
def credit (n m : Nat) (f : Frontier W) : Nat :=
  unseen n f.roots * worth n m [] + (f.routes.map fun r => worth n m r.nils).sum

section
variable [Zero W] {n k m c : Nat} {roots : List Nat} {r : Route W} {routes : List (Route W)}
  {vs : List (Advance W)}

/-- A root is paid for when it is found. Only a route that goes on costs more. -/
theorem credit_take {v : Advance W} (hv : v.Fits n k)
    (hc : ∀ r, v = .passed r → worth n m r.nils ≤ c) (f : Frontier W) :
    (f.take v).credit n m ≤ f.credit n m + c := by
  cases v with
  | cut => exact Nat.le_add_right _ c
  | passed r =>
    have := hc r rfl
    simp only [take, credit, List.map_cons, List.sum_cons]
    omega
  | arrived dest arc =>
    by_cases hd : dest ∈ f.roots
    · rw [take, if_pos hd]
      exact Nat.le_add_right _ c
    · have paid := Nat.mul_le_mul_right (worth n m []) (unseen_cons_lt hv hd)
      rw [Nat.succ_mul] at paid
      rw [take, if_neg hd]
      simp only [credit, List.map_cons, List.sum_cons]
      omega

theorem credit_foldl (hv : ∀ v ∈ vs, v.Fits n k)
    (hc : ∀ r, .passed r ∈ vs → worth n m r.nils ≤ c) (f : Frontier W) :
    (vs.foldl take f).credit n m ≤ f.credit n m + vs.length * c := by
  induction vs generalizing f with
  | nil => simp
  | cons v vs ih =>
    obtain ⟨fits, hv⟩ := List.forall_mem_cons.1 hv
    have now := credit_take fits (fun r hr => hc r (hr ▸ List.mem_cons_self)) f
    have later := ih hv (fun r hr => hc r (List.mem_cons_of_mem v hr)) (f.take v)
    rw [List.foldl_cons, List.length_cons, Nat.succ_mul]
    omega

/-- What comes of a turn is worth less than the route it takes. -/
theorem credit_requeue (hv : ∀ v ∈ vs, v.Fits n (unseen n r.nils + 1)) (hm : vs.length ≤ m) :
    (requeue roots routes vs).credit n m < credit n m ⟨roots, r :: routes⟩ := by
  have price : ∃ c, (∀ s, .passed s ∈ vs → worth n m s.nils ≤ c) ∧ m * c < worth n m r.nils := by
    cases hr : unseen n r.nils with
    | zero =>
      -- a route that has taken all positions cannot go on
      refine ⟨0, fun s hs => ?_, worth_pos n m _⟩
      have := hv _ hs
      simp [Advance.Fits, hr] at this
    | succ k =>
      refine ⟨(m + 1) ^ k, fun s hs => Nat.pow_le_pow_right (Nat.succ_pos m) ?_, ?_⟩
      · have := hv _ hs
        simp only [Advance.Fits, hr] at this
        omega
      · rw [worth, hr, Nat.pow_succ', Nat.succ_mul]
        exact Nat.lt_add_of_pos_right (Nat.pow_pos (Nat.succ_pos m))
  obtain ⟨c, hc, cheap⟩ := price
  have cost := credit_foldl hv hc ⟨roots, []⟩
  have few := Nat.mul_le_mul_right c hm
  simp only [credit, requeue, following, List.map_append, List.map_reverse,
    List.sum_append, List.sum_reverse, List.map_cons, List.sum_cons, List.map_nil,
    List.sum_nil] at cost ⊢
  omega

theorem credit_start (hn : 0 < n) (m : Nat) :
    (start : Frontier W).credit n m ≤ n * (m + 1) ^ n := by
  have all : unseen n [] = n := by simp [unseen]
  have init : unseen n [0] < n := (unseen_cons_lt hn List.not_mem_nil).trans_eq all
  calc (start : Frontier W).credit n m
      = (unseen n [0] + 1) * (m + 1) ^ n := by simp [credit, start, worth, all, Nat.succ_mul]
    _ ≤ n * (m + 1) ^ n := Nat.mul_le_mul_right _ init

end

end Frontier

namespace Automaton

variable [LogWeight W] {a target : Automaton W} {table : Table} {f : Frontier W}
  {roots : List Nat} {r : Route W} {routes rs : List (Route W)} {vs : List (Advance W)} {e : Fault}
  {n : Nat} {out : Except Fault (List (Arc W))}

-- ---------------------------------------------------------------------------
-- Turn by turn
-- ---------------------------------------------------------------------------

/-- The turns of a queue until it is empty or a link cannot be made: how many there are, and the
links that come of them. -/
inductive Turns (a : Automaton W) (table : Table) (target : Automaton W) :
    Frontier W → Nat → Except Fault (List (Arc W)) → Prop
  | done (roots : List Nat) : Turns a table target ⟨roots, []⟩ 0 (.ok [])
  | stop {roots : List Nat} {r : Route W} {routes : List (Route W)} {e : Fault} :
      a.advances table target [r] = .error e →
      Turns a table target ⟨roots, r :: routes⟩ 1 (.error e)
  | turn {roots : List Nat} {r : Route W} {routes : List (Route W)} {vs : List (Advance W)}
      {n : Nat} {out : Except Fault (List (Arc W))} :
      a.advances table target [r] = .ok vs →
      Turns a table target (.requeue roots routes vs) n out →
      Turns a table target ⟨roots, r :: routes⟩ (n + 1) (out.map (vs.filterMap Advance.arc? ++ ·))

theorem Turns.unique (h : a.Turns table target f n out) {m : Nat}
    {out' : Except Fault (List (Arc W))} (h' : a.Turns table target f m out') :
    m = n ∧ out' = out := by
  induction h generalizing m out' with
  | done roots =>
    cases h' with
    | done => exact ⟨rfl, rfl⟩
  | stop he =>
    cases h' with
    | stop he' =>
      obtain rfl := Except.error.inj (he.symm.trans he')
      exact ⟨rfl, rfl⟩
    | turn hv' => cases he.symm.trans hv'
  | turn hv _ ih =>
    cases h' with
    | stop he' => cases hv.symm.trans he'
    | turn hv' h' =>
      obtain rfl := Except.ok.inj (hv.symm.trans hv')
      obtain ⟨rfl, rfl⟩ := ih h'
      exact ⟨rfl, rfl⟩

theorem advances_cons (a : Automaton W) (table : Table) (target : Automaton W) (r : Route W)
    (rs : List (Route W)) : a.advances table target (r :: rs) =
      (do return (← a.advances table target [r]) ++ (← a.advances table target rs)) := by
  simp only [advances, List.flatMap_cons, List.flatMap_nil, List.append_nil]
  exact List.mapM_append

/-- The routes of a round have their turns before those that come next. -/
theorem Turns.round (h : a.advances table target rs = .ok vs)
    (ht : a.Turns table target (.requeue roots routes vs) n out) :
    a.Turns table target ⟨roots, rs ++ routes⟩ (n + rs.length)
      (out.map (vs.filterMap Advance.arc? ++ ·)) := by
  induction rs generalizing roots routes vs with
  | nil =>
    obtain rfl : [] = vs := Except.ok.inj h
    rw [Frontier.requeue_nil] at ht
    cases out <;> exact ht
  | cons r rs ih =>
    rw [advances_cons, bind_ok] at h
    obtain ⟨us, hus, h⟩ := h
    obtain ⟨ws, hws, h⟩ := bind_ok.1 h
    obtain rfl := pure_ok.1 h
    rw [Frontier.requeue_append] at ht
    have rest := ih hws ht
    rw [← List.append_assoc] at rest
    have first := Turns.turn hus rest
    cases out <;> simpa [Except.map, Nat.add_assoc] using first

theorem Turns.round_stop (h : a.advances table target rs = .error e) (roots : List Nat)
    (routes : List (Route W)) : ∃ n, a.Turns table target ⟨roots, rs ++ routes⟩ n (.error e) := by
  induction rs generalizing roots routes with
  | nil => cases h
  | cons r rs ih =>
    cases hr : a.advances table target [r] with
    | error e' =>
      rw [advances_cons, hr] at h
      cases h
      exact ⟨1, .stop hr⟩
    | ok us =>
      cases hrs : a.advances table target rs with
      | ok ws =>
        rw [advances_cons, hr, hrs] at h
        cases h
      | error e' =>
        rw [advances_cons, hr, hrs] at h
        cases h
        obtain ⟨n, hn⟩ := ih hrs (Frontier.following roots us).roots
          (routes ++ (Frontier.following roots us).routes)
        rw [← List.append_assoc] at hn
        exact ⟨n + 1, .turn hr hn⟩

/-- Turn by turn the outcome is the one of the rounds. -/
theorem exists_turns (a : Automaton W) (table : Table) (target : Automaton W) (f : Frontier W) :
    ∃ n, a.Turns table target f n (a.elide table target f) := by
  induction f using elide.induct a table target with
  | case1 roots =>
    rw [elide]
    exact ⟨0, .done roots⟩
  | case2 roots r routes e he =>
    rw [elide_eq_error he]
    simpa using Turns.round_stop he roots []
  | case3 roots r routes vs hvs ih =>
    obtain ⟨n, hn⟩ := ih
    have turns : a.Turns table target ⟨roots, (r :: routes) ++ []⟩ _ _ := Turns.round hvs hn
    rw [List.append_nil] at turns
    rw [elide_of_advances hvs]
    exact ⟨_, turns⟩

theorem length_of_advances (h : a.advances table target [r] = .ok vs) : vs.length ≤ a.arcCount := by
  have same := length_of_mapM_eq_ok h
  simp only [List.flatMap_cons, List.flatMap_nil, List.append_nil, List.length_map] at same
  exact same ▸ a.length_linksFrom_le r.tip

theorem Turns.le_credit (h : a.Turns table target f n out) : n ≤ f.credit a.size a.arcCount := by
  induction h with
  | done => exact Nat.zero_le _
  | @stop _ r =>
    have := worth_pos a.size a.arcCount r.nils
    simp only [Frontier.credit, List.map_cons, List.sum_cons]
    omega
  | turn hv _ ih =>
    have fits := fits_of_advances hv
    refine Nat.lt_of_le_of_lt ih (Frontier.credit_requeue (fun v hv => ?_) (length_of_advances hv))
    simpa [extent] using fits v hv

/-- There is one way for the turns to go. They end, with an empty queue or a link that cannot be
made, and there are no more of them than can come of all states. Only a walk whose weights have
no sum has no link. -/
theorem removeNilStates_ends (ha : a.Built) : ∃ n out,
    (∀ m res, a.Turns (a.remap { keep := audible } empty).1 (a.remap { keep := audible } empty).2
      .start m res ↔ m = n ∧ res = out) ∧
    n ≤ a.size * (a.arcCount + 1) ^ a.size ∧
    a.removeNilStates = out.map (a.remap { keep := audible } empty).2.withArcs ∧
    ∀ e, out = .error e → ∃ i ps j, a.IsWalk i ps j ∧ isUndefined (a.walkWeight ps) = true := by
  have wf := ha.wellFormed
  obtain ⟨n, hn⟩ := a.exists_turns (a.remap { keep := audible } empty).1
    (a.remap { keep := audible } empty).2 .start
  have start := Frontier.credit_start (W := W) (Nat.lt_of_lt_of_le Nat.two_pos wf.two_le_size)
    a.arcCount
  refine ⟨n, _, fun m res => ⟨hn.unique, ?_⟩, hn.le_credit.trans start, rfl, fun e he => ?_⟩
  · rintro ⟨rfl, rfl⟩
    exact hn
  · by_contra none
    simp only [not_exists, not_and, Bool.not_eq_true] at none
    obtain ⟨b, -, hb, -⟩ := removeNilStates_ok wf none
    have refused : a.removeNilStates = .error e :=
      congrArg (Except.map (a.remap { keep := audible } empty).2.withArcs) he
    cases refused.symm.trans hb

theorem removeNilStates_ends_circled : ∃ n arcs,
    (∀ m res, circled.Turns (circled.remap { keep := audible } empty).1
      (circled.remap { keep := audible } empty).2 .start m res ↔ m = n ∧ res = .ok arcs) ∧
    n ≤ 5 * 11 ^ 5 ∧
    circled.removeNilStates = .ok ((circled.remap { keep := audible } empty).2.withArcs arcs) := by
  have wf := circled_built.wellFormed
  obtain ⟨n, out, turns, bound, same, undefined⟩ := removeNilStates_ends circled_built
  cases out with
  | ok arcs => exact ⟨n, arcs, turns, bound, same⟩
  | error e =>
    obtain ⟨i, ps, j, hw, hu⟩ := undefined e rfl
    have hd := (wf.weighted (wf.forall_links circledArcs_proper)).walkWeight_defined wf hw
    cases hu.symm.trans hd

end Automaton

end LogAutomata
