import LogAutomata.Automaton.Remap
import LogAutomata.Unseen

/-!
# Eliding nil states

A route is a walk from a kept state, its root, through nil states only. Where a
route arrives at a kept state the result has one link from the root, with the
weight of the whole route. A route never takes a nil state twice.
-/

namespace LogAutomata

variable {W : Type}

structure Route (W : Type) where
  root : Nat
  tip : Nat
  weight : W
  /-- The nil states of this route. -/
  nils : List Nat := []

inductive Advance (W : Type)
  /-- The link leads to the kept state at `dest`. -/
  | arrived (dest : Nat) (arc : Arc W)
  | passed (route : Route W)
  /-- The nil state that comes next is on the route already. -/
  | cut

def Advance.arc? : Advance W → Option (Arc W)
  | .arrived _ arc => some arc
  | _ => none

/-- The kept states that have been a root, and the routes that come next. -/
structure Frontier (W : Type) where
  roots : List Nat
  routes : List (Route W)

/-- A kept state becomes a root when a route first arrives there. New routes are
put first. -/
def Frontier.take [Zero W] (f : Frontier W) : Advance W → Frontier W
  | .arrived dest _ =>
    if dest ∈ f.roots then f
    else ⟨dest :: f.roots, { root := dest, tip := dest, weight := 0 } :: f.routes⟩
  | .passed route => { f with routes := route :: f.routes }
  | .cut => f

def Frontier.following [Zero W] (roots : List Nat) (vs : List (Advance W)) : Frontier W :=
  let f := vs.foldl take ⟨roots, []⟩
  { f with routes := f.routes.reverse }

/-- One more than the largest number of positions that a route can still take. -/
def extent (n : Nat) (routes : List (Route W)) : Nat :=
  routes.foldr (fun r m => max (unseen n r.nils + 1) m) 0

theorem extent_lt_iff {n m : Nat} {routes : List (Route W)} :
    extent n routes < m ↔ 0 < m ∧ ∀ r ∈ routes, unseen n r.nils + 1 < m := by
  induction routes with
  | nil => simp [extent]
  | cons r routes ih =>
    have : extent n (r :: routes) = max (unseen n r.nils + 1) (extent n routes) := rfl
    rw [this, Nat.max_lt, ih]
    simp only [List.forall_mem_cons]
    exact ⟨fun ⟨h, m, t⟩ => ⟨m, h, t⟩, fun ⟨m, h, t⟩ => ⟨h, m, t⟩⟩

theorem unseen_lt_extent {n : Nat} {routes : List (Route W)} {r : Route W} (h : r ∈ routes) :
    unseen n r.nils < extent n routes := by
  induction routes with
  | nil => cases h
  | cons s routes ih =>
    have : extent n (s :: routes) = max (unseen n s.nils + 1) (extent n routes) := rfl
    rcases List.mem_cons.1 h with rfl | h
    · omega
    · have := ih h
      omega

/-- What an outcome promises, so that a search ends: it arrives inside the
automaton, or the route that goes on has fewer positions left than `room`. -/
def Advance.Fits (n room : Nat) : Advance W → Prop
  | .arrived dest _ => dest < n
  | .passed route => unseen n route.nils + 1 < room
  | .cut => True

/-- There is a new root, or all routes have fewer positions left than `room`. -/
def Frontier.Within (n room : Nat) (roots : List Nat) (f : Frontier W) : Prop :=
  unseen n f.roots < unseen n roots ∨
    f.roots = roots ∧ ∀ r ∈ f.routes, unseen n r.nils + 1 < room

theorem Frontier.Within.take [Zero W] {n room : Nat} {roots : List Nat} {f : Frontier W}
    {v : Advance W} (h : f.Within n room roots) (hv : v.Fits n room) :
    (f.take v).Within n room roots := by
  cases v with
  | cut => exact h
  | passed route =>
    refine h.imp id fun ⟨h1, h2⟩ => ⟨h1, fun r hr => ?_⟩
    rcases List.mem_cons.1 hr with rfl | hr
    · exact hv
    · exact h2 r hr
  | arrived dest arc =>
    by_cases hd : dest ∈ f.roots
    · simpa [Frontier.take, hd] using h
    · have := unseen_cons_lt hv hd
      simp only [Frontier.take, hd, if_false]
      refine Or.inl (Nat.lt_of_lt_of_le this ?_)
      rcases h with h | ⟨h, -⟩
      · exact Nat.le_of_lt h
      · exact h ▸ Nat.le_refl _

theorem Frontier.Within.foldl_take [Zero W] {n room : Nat} {roots : List Nat}
    {vs : List (Advance W)} {f : Frontier W} (h : f.Within n room roots)
    (hv : ∀ v ∈ vs, v.Fits n room) : (vs.foldl Frontier.take f).Within n room roots := by
  induction vs generalizing f with
  | nil => exact h
  | cons v vs ih => exact ih (h.take (hv v (by simp))) fun w hw => hv w (by simp [hw])

theorem Frontier.within_following [Zero W] {n room : Nat} {roots : List Nat}
    {vs : List (Advance W)} (hv : ∀ v ∈ vs, v.Fits n room) :
    (following roots vs).Within n room roots := by
  have start : Within n room roots (⟨roots, []⟩ : Frontier W) := Or.inr ⟨rfl, by simp⟩
  refine (start.foldl_take hv).imp id fun ⟨h1, h2⟩ => ⟨h1, fun r hr => ?_⟩
  exact h2 r (List.mem_reverse.1 hr)

namespace Automaton

variable [LogWeight W]

def advance (a : Automaton W) (table : Table) (target : Automaton W) (r : Route W)
    (l : Link W) : Except Fault (Advance W) := do
  let dest ← a.owned "remove_nil_states" l.dest
  let w := r.weight + l.weight
  if a.isNil dest then
    return if dest ∈ r.nils then .cut else .passed ⟨r.root, dest, w, dest :: r.nils⟩
  else
    let src ← a.mapped table "remove_nil_states" (.inner r.root)
    let image ← a.mapped table "remove_nil_states" (.inner dest)
    return .arrived dest (← target.arc? src image w)

def advances (a : Automaton W) (table : Table) (target : Automaton W) (routes : List (Route W)) :
    Except Fault (List (Advance W)) :=
  (routes.flatMap fun r => (a.linksFrom r.tip).map fun l => (r, l)).mapM
    fun (r, l) => a.advance table target r l

theorem fits_of_advance {a : Automaton W} {table : Table} {target : Automaton W} {r : Route W}
    {l : Link W} {v : Advance W} {room : Nat} (h : a.advance table target r l = .ok v)
    (hr : unseen a.size r.nils < room) : v.Fits a.size room := by
  unfold advance at h
  cases hd : a.owned "remove_nil_states" l.dest with
  | error => simp [hd, bind, Except.bind] at h
  | ok dest =>
    have hlt := (owned_eq_ok_iff.1 hd).2
    simp only [hd, bind, Except.bind] at h
    split at h
    · cases h
      split
      · trivial
      · next hn =>
        have := unseen_cons_lt hlt hn
        simp only [Advance.Fits]
        omega
    · split at h
      · cases h
      · split at h
        · cases h
        · split at h
          · cases h
          · cases h
            exact hlt

theorem fits_of_advances {a : Automaton W} {table : Table} {target : Automaton W}
    {routes : List (Route W)} {vs : List (Advance W)}
    (h : a.advances table target routes = .ok vs) :
    ∀ v ∈ vs, v.Fits a.size (extent a.size routes) := by
  intro v hv
  obtain ⟨⟨r, l⟩, hm, hrl⟩ := mem_of_mapM_eq_ok h hv
  obtain ⟨r', hr', hm⟩ := List.mem_flatMap.1 hm
  obtain ⟨l', -, he⟩ := List.mem_map.1 hm
  cases he
  exact fits_of_advance hrl (unseen_lt_extent hr')

/-- The arcs of all routes that start from the frontier, in breadth-first
order. -/
def elide (a : Automaton W) (table : Table) (target : Automaton W) :
    Frontier W → Except Fault (List (Arc W))
  | ⟨_, []⟩ => return []
  | ⟨roots, r :: routes⟩ =>
    match _h : a.advances table target (r :: routes) with
    | .error f => throw f
    | .ok vs => return vs.filterMap Advance.arc? ++
        (← elide a table target (.following roots vs))
termination_by f => (unseen a.size f.roots, extent a.size f.routes)
decreasing_by
  rcases Frontier.within_following (fits_of_advances _h) with h | ⟨h1, h2⟩
  · exact Prod.Lex.left _ _ h
  · rw [h1]
    exact Prod.Lex.right _
      (extent_lt_iff.2 ⟨Nat.zero_lt_of_lt (unseen_lt_extent List.mem_cons_self), h2⟩)

def removeNilStates (a : Automaton W) : Except Fault (Automaton W) := do
  let (table, target) := a.remap { keep := fun s => !s.isNil } empty
  return target.withArcs
    (← a.elide table target ⟨[0], [{ root := 0, tip := 0, weight := 0 }]⟩)

end Automaton

end LogAutomata
