import LogAutomata.Proofs.Growth

/-!
# What is built is well formed

Growth keeps an automaton well formed: the sentinels stay in their places, links stay
between states of the automaton, and the next id stays above all others.
-/

namespace LogAutomata.Automaton

variable {W : Type}

-- ---------------------------------------------------------------------------
-- Profiles
-- ---------------------------------------------------------------------------

def profiles (a : Automaton W) : List Profile := a.states.toList.map State.profile

theorem profiles_addState (a : Automaton W) (id : Option Int) (s : Symbol) :
    (a.addState id s).profiles = a.profiles ++ [⟨some (id.getD a.nextId), s⟩] := by
  simp [profiles, addState, State.profile]

theorem profiles_withArcs (a : Automaton W) (arcs : List (Arc W)) :
    (a.withArcs arcs).profiles = a.profiles := by
  refine withArcs_induction (P := fun b => b.profiles = a.profiles) rfl (fun b i l h => ?_) arcs
  rw [← h, profiles, profiles, attach, Array.toList_modify]
  refine List.ext_getElem? fun j => ?_
  rw [List.getElem?_map, List.getElem?_map, List.getElem?_modify]
  split
  · cases b.states.toList[j]? <;> rfl
  · simp

theorem hasProfile_iff {a : Automaton W} {i : Nat} {p : Profile} :
    a.HasProfile i p ↔ a.profiles[i]? = some p := by
  rw [HasProfile, profiles, List.getElem?_map, Array.getElem?_toList]

theorem ids_lt_iff {a : Automaton W} {n : Int} :
    (∀ s ∈ a.interior, s.id < n) ↔ ∀ p ∈ a.profiles.drop 2, ∀ id, p.id = some id → id < n := by
  rw [profiles, ← List.map_drop]
  constructor
  · intro h p hp id hid
    obtain ⟨s, hs, rfl⟩ := List.mem_map.1 hp
    cases hid
    exact h s hs
  · intro h s hs
    exact h s.profile (List.mem_map_of_mem hs) s.id rfl

theorem HasProfile.addState {a : Automaton W} {i : Nat} {p : Profile} (h : a.HasProfile i p)
    (id : Option Int) (s : Symbol) : (a.addState id s).HasProfile i p := by
  rw [hasProfile_iff] at h ⊢
  rw [profiles_addState, List.getElem?_append_left (List.getElem?_eq_some_iff.1 h).1, h]

theorem HasProfile.profile_eq {a : Automaton W} {i : Nat} {p : Profile} (h : a.HasProfile i p) :
    a.profile (.inner i) = p := by
  simp only [HasProfile] at h
  simp [profile, h]

variable [LogWeight W]

-- ---------------------------------------------------------------------------
-- Growth
-- ---------------------------------------------------------------------------

namespace WellFormed

variable {a : Automaton W}

theorem addState (h : a.WellFormed) (id : Option Int) (s : Symbol) :
    (a.addState id s).WellFormed where
  init := h.init.addState id s
  final := h.final.addState id s
  src_eq i l hl := by
    rw [linksFrom_addState] at hl
    exact h.src_eq i l hl
  owns_dest i l hl := by
    rw [linksFrom_addState] at hl
    obtain ⟨j, hj⟩ := Option.isSome_iff_exists.1 (h.owns_dest i l hl)
    obtain ⟨hd, hlt⟩ := position?_eq_some_iff.1 hj
    refine Option.isSome_iff_exists.2 ⟨j, position?_eq_some_iff.2 ⟨hd, ?_⟩⟩
    rw [size_addState]
    exact Nat.lt_succ_of_lt hlt
  defined i l hl := by
    rw [linksFrom_addState] at hl
    exact h.defined i l hl
  one_le_nextId := by
    rw [nextId_addState]
    exact Int.le_trans h.one_le_nextId (Int.le_max_left _ _)
  id_lt_nextId := by
    rw [ids_lt_iff, profiles_addState, nextId_addState,
      List.drop_append_of_le_length (by simpa [profiles, size] using h.two_le_size)]
    intro p hp k hk
    rcases List.mem_append.1 hp with hp | hp
    · have := ids_lt_iff.1 h.id_lt_nextId p hp k hk
      omega
    · rw [List.mem_singleton.1 hp] at hk
      cases hk
      omega

theorem withArcs (h : a.WellFormed) {arcs : List (Arc W)} (fits : ∀ r ∈ arcs, a.Fits r) :
    (a.withArcs arcs).WellFormed := by
  -- a link of the result is an old one or comes from an arc that fits
  have links : ∀ i, ∀ l ∈ (a.withArcs arcs).linksFrom i,
      l ∈ a.linksFrom i ∨ ∃ r, a.Fits r ∧ r.src = i ∧ l = r.toLink := by
    intro i l hl
    rw [linksFrom_withArcs fun r hr => (fits r hr).src] at hl
    refine (List.mem_append.1 hl).imp id fun hl => ?_
    obtain ⟨r, hr, rfl⟩ := List.mem_map.1 hl
    obtain ⟨hr, hs⟩ := List.mem_filter.1 hr
    exact ⟨r, fits r hr, beq_iff_eq.1 hs, rfl⟩
  refine ⟨?_, ?_, fun i l hl => ?_, fun i l hl => ?_, fun i l hl => ?_, ?_, ?_⟩
  · rw [hasProfile_iff, profiles_withArcs]
    exact hasProfile_iff.1 h.init
  · rw [hasProfile_iff, profiles_withArcs]
    exact hasProfile_iff.1 h.final
  · rcases links i l hl with hl | ⟨r, -, rfl, rfl⟩
    · exact h.src_eq i l hl
    · rfl
  · rw [owns, position?_withArcs]
    rcases links i l hl with hl | ⟨r, hr, rfl, rfl⟩
    · exact h.owns_dest i l hl
    · simp [Arc.toLink, hr.dest]
  · rcases links i l hl with hl | ⟨r, hr, rfl, rfl⟩
    · exact h.defined i l hl
    · exact hr.defined
  · rw [nextId_withArcs]
    exact h.one_le_nextId
  · rw [ids_lt_iff, profiles_withArcs, nextId_withArcs]
    exact ids_lt_iff.1 h.id_lt_nextId

theorem of_grows (h : a.WellFormed) {b : Automaton W} (g : a.Grows b) : b.WellFormed := by
  induction g with
  | refl => exact h
  | addState id s _ ih => exact ih.addState id s
  | withArcs _ fits ih => exact ih.withArcs fits

theorem remap (h : a.WellFormed) (b : Automaton W) (r : Remap) : (b.remap r a).2.WellFormed :=
  h.of_grows (Grows.refl.remap b r)

end WellFormed

theorem Built.wellFormed {a : Automaton W} (h : a.Built) : a.WellFormed := .of_grows .empty h.grows

end LogAutomata.Automaton
