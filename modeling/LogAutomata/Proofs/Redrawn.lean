import LogAutomata.Proofs.Embed

/-!
# Redrawn automata

Coalescing and normalization put links of their own into a copy of an automaton that has fresh
ids. Such a copy shows nothing of its model but the symbols, so a copy of the copy has the same
ids again. If it gets the same links too, it is the same automaton.
-/

namespace LogAutomata

def Link.ends {W : Type} (l : Link W) : Endpoint × Endpoint := (l.src, l.dest)

namespace Automaton

variable {W : Type} {a b c : Automaton W}

-- ---------------------------------------------------------------------------
-- Fresh copies
-- ---------------------------------------------------------------------------

/-- Copies with fresh ids show nothing of their models but the symbols. -/
theorem foldl_copyState_congr {r : Remap} (fresh : r.keepIds = false) {ss ts : List (State W)}
    (h : ss.map (·.symbol) = ts.map (·.symbol)) (x : Table × Automaton W) :
    ss.foldl (copyState r) x = ts.foldl (copyState r) x := by
  induction ss generalizing ts x with
  | nil => rw [List.map_eq_nil_iff.1 h.symm]
  | cons s ss ih =>
    cases ts with
    | nil => cases h
    | cons t ts =>
      obtain ⟨first, rest⟩ := List.cons.inj h
      have same : copyState r x s = copyState r x t := by simp [copyState, fresh, first]
      rw [List.foldl_cons, List.foldl_cons, same, ih rest]

theorem remap_congr (size_eq : b.size = a.size) (symbolAt : ∀ i, b.symbolAt i = a.symbolAt i)
    (target : Automaton W) : b.remap {} target = a.remap {} target := by
  refine foldl_copyState_congr rfl ?_ _
  rw [symbols_interior, symbols_interior, size_eq]
  exact List.map_congr_left fun i _ => symbolAt (i + 2)

def Redraws (a b : Automaton W) : Prop := ∃ arcs, b = (a.remap {} empty).2.withArcs arcs

theorem Redraws.profiles_eq (h : a.Redraws b) : b.profiles = (a.remap {} empty).2.profiles := by
  obtain ⟨arcs, rfl⟩ := h
  exact profiles_withArcs _ arcs

theorem Redraws.nextId_eq (h : a.Redraws b) : b.nextId = (a.remap {} empty).2.nextId := by
  obtain ⟨arcs, rfl⟩ := h
  exact nextId_withArcs _ arcs

section
variable [LogWeight W]

theorem redraws_of_coalesce (h : a.coalesce = .ok b) : a.Redraws b := by
  simp only [coalesce, bind_ok, pure_ok] at h
  obtain ⟨_, -, arcs, -, rfl⟩ := h
  exact ⟨arcs, rfl⟩

theorem redraws_of_normalize (h : a.normalize = .ok b) : a.Redraws b := by
  simp only [normalize, bind_ok, pure_ok] at h
  obtain ⟨arcs, -, rfl⟩ := h
  exact ⟨arcs, rfl⟩

theorem profiles_of_normalize (h : a.normalize = .ok b) :
    b.profiles = (a.remap {} empty).2.profiles := (redraws_of_normalize h).profiles_eq

end

-- ---------------------------------------------------------------------------
-- Equal automata
-- ---------------------------------------------------------------------------

theorem State.eq_of_profile {s t : State W} (profile : s.profile = t.profile)
    (links : s.links.toList = t.links.toList) : s = t := by
  obtain ⟨id, symbol, ls⟩ := s
  obtain ⟨id', symbol', ls'⟩ := t
  obtain rfl : ls = ls' := Array.toList_inj.1 links
  cases profile
  rfl

/-- There is no more to an automaton than its counter, its profiles and its links. -/
theorem eq_of_profiles (nextId : a.nextId = b.nextId) (profiles : a.profiles = b.profiles)
    (links : ∀ i, a.linksFrom i = b.linksFrom i) : a = b := by
  have states : a.states.toList = b.states.toList := by
    refine List.ext_getElem? fun i => ?_
    have profile := congrArg (·[i]?) profiles
    have links := links i
    simp only [Automaton.profiles, List.getElem?_map, Array.getElem?_toList] at profile
    simp only [linksFrom] at links
    simp only [Array.getElem?_toList]
    cases ha : a.states[i]? with
    | none =>
      cases hb : b.states[i]? with
      | none => rfl
      | some t => simp [ha, hb] at profile
    | some s =>
      cases hb : b.states[i]? with
      | none => simp [ha, hb] at profile
      | some t =>
        simp only [ha, hb, Option.map_some, Option.some.injEq] at profile
        simp only [ha, hb, Option.map_some, Option.getD_some] at links
        rw [State.eq_of_profile profile links]
  obtain ⟨ss, n⟩ := a
  obtain ⟨ts, m⟩ := b
  obtain rfl : ss = ts := Array.toList_inj.1 states
  cases nextId
  rfl

theorem symbols_states (a : Automaton W) :
    a.states.toList.map (·.symbol) = (List.range a.size).map a.symbolAt := by
  refine List.ext_getElem? fun i => ?_
  by_cases hi : i < a.size
  · have hs : a.states[i]? = some a.states[i] := Array.getElem?_eq_getElem hi
    simp [hi, hs, symbolAt]
  · have hs : a.states[i]? = none := Array.getElem?_eq_none (Nat.not_lt.1 hi)
    simp [hi, hs]

namespace Rebuilds

variable [LogWeight W] {row row' : Nat → List (Nat × W)}

theorem symbols_eq (h : a.Rebuilds b row) :
    b.states.toList.map (·.symbol) = a.states.toList.map (·.symbol) := by
  rw [symbols_states, symbols_states, h.size_eq]
  exact List.map_congr_left fun i _ => h.symbolAt i

theorem linksFrom_eq (h : a.Rebuilds b row) (i : Nat) :
    b.linksFrom i = (row i).map fun e => ⟨.inner i, .inner e.1, e.2⟩ := by
  rw [h.wellFormed.linksFrom_eq, h.arcsFrom]

/-- Redrawn with the links that it has, a redrawn automaton stays as it is. -/
theorem eq_of_redraws (h : a.Rebuilds b row) (h' : b.Rebuilds c row') (hb : a.Redraws b)
    (hc : b.Redraws c) (rows : ∀ i, row' i = row i) : c = b := by
  have model := remap_congr h.size_eq h.symbolAt (empty : Automaton W)
  apply eq_of_profiles
  · rw [hc.nextId_eq, hb.nextId_eq, model]
  · rw [hc.profiles_eq, hb.profiles_eq, model]
  · intro i
    rw [h'.linksFrom_eq, h.linksFrom_eq, rows]

end Rebuilds

end Automaton

end LogAutomata
