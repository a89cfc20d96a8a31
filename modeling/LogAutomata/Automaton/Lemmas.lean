import LogAutomata.Automaton.Basic

/-!
# What growth does to an automaton

`addState` puts one state without links behind the others. `withArcs` and
`attach` change nothing but links, and put new links behind old ones.
-/

namespace LogAutomata.Automaton

variable {W : Type}

@[simp]
theorem size_empty : (empty : Automaton W).size = 2 := rfl

@[simp]
theorem linksFrom_empty (i : Nat) : (empty : Automaton W).linksFrom i = [] := by
  rcases i with _ | _ | i <;> simp [linksFrom, empty]

theorem linksFrom_eq_nil {a : Automaton W} {i : Nat} (h : a.size ≤ i) : a.linksFrom i = [] := by
  simp [linksFrom, Array.getElem?_eq_none h]

-- ---------------------------------------------------------------------------
-- States
-- ---------------------------------------------------------------------------

@[simp]
theorem size_addState (a : Automaton W) (id : Option Int) (s : Symbol) :
    (a.addState id s).size = a.size + 1 := by simp [addState, size]

@[simp]
theorem linksFrom_addState (a : Automaton W) (id : Option Int) (s : Symbol) (i : Nat) :
    (a.addState id s).linksFrom i = a.linksFrom i := by
  simp only [linksFrom, addState, Array.getElem?_push]
  split
  · next h => simp [h]
  · rfl

theorem symbolAt_addState (a : Automaton W) (id : Option Int) (s : Symbol) (i : Nat) :
    (a.addState id s).symbolAt i = if i = a.size then s else a.symbolAt i := by
  by_cases h : i = a.states.size <;> simp [symbolAt, addState, size, Array.getElem?_push, h]

theorem profile_addState (a : Automaton W) (id : Option Int) (s : Symbol) (i : Nat) :
    (a.addState id s).profile (.inner i) =
      if i = a.size then ⟨some (id.getD a.nextId), s⟩ else a.profile (.inner i) := by
  by_cases h : i = a.states.size <;> simp [profile, State.profile, addState, size, Array.getElem?_push, h]

@[simp]
theorem nextId_addState (a : Automaton W) (id : Option Int) (s : Symbol) :
    (a.addState id s).nextId = max a.nextId (id.getD a.nextId + 1) := rfl

-- ---------------------------------------------------------------------------
-- Links
-- ---------------------------------------------------------------------------

@[simp]
theorem size_attach (a : Automaton W) (i : Nat) (l : Link W) :
    (a.attach i l).size = a.size := by simp [attach, size]

@[simp]
theorem nextId_attach (a : Automaton W) (i : Nat) (l : Link W) :
    (a.attach i l).nextId = a.nextId := rfl

@[simp]
theorem symbolAt_attach (a : Automaton W) (i : Nat) (l : Link W) (j : Nat) :
    (a.attach i l).symbolAt j = a.symbolAt j := by
  simp only [symbolAt, attach, Array.getElem?_modify]
  split
  · cases a.states[j]? <;> rfl
  · rfl

@[simp]
theorem profile_attach (a : Automaton W) (i : Nat) (l : Link W) (e : Endpoint) :
    (a.attach i l).profile e = a.profile e := by
  cases e with
  | inner j =>
    simp only [profile, attach, Array.getElem?_modify]
    split
    · cases a.states[j]? <;> rfl
    · rfl
  | outer h => rfl

theorem linksFrom_attach (a : Automaton W) (l : Link W) {i : Nat} (h : i < a.size) (j : Nat) :
    (a.attach i l).linksFrom j = a.linksFrom j ++ if i = j then [l] else [] := by
  unfold linksFrom attach
  rw [Array.getElem?_modify]
  split
  · next hj =>
    subst hj
    have := Array.getElem?_eq_getElem h
    simp [this]
  · simp

theorem withArcs_induction {P : Automaton W → Prop} {a : Automaton W} (h : P a)
    (attach : ∀ b i l, P b → P (b.attach i l)) (arcs : List (Arc W)) : P (a.withArcs arcs) := by
  unfold withArcs
  induction arcs generalizing a with
  | nil => exact h
  | cons r rest ih => exact ih (attach a r.src r.toLink h)

@[simp]
theorem size_withArcs (a : Automaton W) (arcs : List (Arc W)) :
    (a.withArcs arcs).size = a.size :=
  withArcs_induction (P := fun b => b.size = a.size) rfl (fun _ _ _ h => by simp [h]) arcs

@[simp]
theorem nextId_withArcs (a : Automaton W) (arcs : List (Arc W)) :
    (a.withArcs arcs).nextId = a.nextId :=
  withArcs_induction (P := fun b => b.nextId = a.nextId) rfl (fun _ _ _ h => by simp [h]) arcs

@[simp]
theorem symbolAt_withArcs (a : Automaton W) (arcs : List (Arc W)) (i : Nat) :
    (a.withArcs arcs).symbolAt i = a.symbolAt i :=
  withArcs_induction (P := fun b => b.symbolAt i = a.symbolAt i) rfl
    (fun _ _ _ h => by simp [h]) arcs

@[simp]
theorem profile_withArcs (a : Automaton W) (arcs : List (Arc W)) (e : Endpoint) :
    (a.withArcs arcs).profile e = a.profile e :=
  withArcs_induction (P := fun b => b.profile e = a.profile e) rfl
    (fun _ _ _ h => by simp [h]) arcs

@[simp]
theorem position?_withArcs (a : Automaton W) (arcs : List (Arc W)) (e : Endpoint) :
    (a.withArcs arcs).position? e = a.position? e := by
  cases e <;> simp

theorem linksFrom_withArcs {a : Automaton W} {arcs : List (Arc W)}
    (h : ∀ r ∈ arcs, r.src < a.size) (i : Nat) :
    (a.withArcs arcs).linksFrom i =
      a.linksFrom i ++ (arcs.filter (·.src == i)).map Arc.toLink := by
  unfold withArcs
  induction arcs generalizing a with
  | nil => simp
  | cons r rest ih =>
    rw [List.foldl_cons, ih (by simpa using fun s hs => h s (by simp [hs])),
      linksFrom_attach a _ (h r (by simp))]
    by_cases hr : r.src = i <;> simp [hr]

end LogAutomata.Automaton
