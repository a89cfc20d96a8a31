import LogAutomata.Proofs.Redrawn

/-!
# What ids tell

An automaton does not show the number that its next state gets, and no operation hands it on.
But states are never taken away, so the number can be told from the ids that are there: built
automata with the same profiles and the same links are equal. Copies take over ids or get fresh
ones; where all ids are fresh, they are told by the positions.
-/

namespace LogAutomata.Automaton

variable {W : Type} {a b t : Automaton W}

-- ---------------------------------------------------------------------------
-- The next number
-- ---------------------------------------------------------------------------

def numberAfter (ids : List Int) : Int := ids.foldl (fun n id => max n (id + 1)) 1

theorem numberAfter_concat (ids : List Int) (id : Int) :
    numberAfter (ids ++ [id]) = max (numberAfter ids) (id + 1) := by
  rw [numberAfter, List.foldl_append]
  rfl

def interiorIds (a : Automaton W) : List Int := (a.profiles.drop 2).filterMap Profile.id

theorem length_profiles (a : Automaton W) : a.profiles.length = a.size := by
  simp [profiles, size]

theorem interiorIds_addState (h : 2 ≤ a.size) (id : Option Int) (s : Symbol) :
    (a.addState id s).interiorIds = a.interiorIds ++ [id.getD a.nextId] := by
  rw [interiorIds, profiles_addState, List.drop_append_of_le_length (by rwa [length_profiles]),
    List.filterMap_append]
  rfl

section
variable [LogWeight W]

theorem Grows.nextId_eq (h : empty.Grows a) : a.nextId = numberAfter a.interiorIds := by
  induction h with
  | refl => rfl
  | addState id s h ih =>
    rw [nextId_addState, ih, interiorIds_addState (WellFormed.empty.of_grows h).two_le_size, ih,
      numberAfter_concat]
  | withArcs h _ ih => rw [nextId_withArcs, ih, interiorIds, interiorIds, profiles_withArcs]

theorem WellFormed.linksFrom_congr (ha : a.WellFormed) (hb : b.WellFormed) {i : Nat}
    (h : a.arcsFrom i = b.arcsFrom i) : a.linksFrom i = b.linksFrom i := by
  rw [ha.linksFrom_eq, hb.linksFrom_eq, h]

/-- What is built shows all that there is to it. -/
theorem Grows.ext (ha : empty.Grows a) (hb : empty.Grows b) (profiles : a.profiles = b.profiles)
    (arcsFrom : ∀ i, a.arcsFrom i = b.arcsFrom i) : a = b := by
  refine eq_of_profiles ?_ profiles fun i =>
    (WellFormed.empty.of_grows ha).linksFrom_congr (.of_grows .empty hb) (arcsFrom i)
  rw [ha.nextId_eq, hb.nextId_eq, interiorIds, interiorIds, profiles]

end

-- ---------------------------------------------------------------------------
-- Ids that are kept
-- ---------------------------------------------------------------------------

theorem foldl_copyState_profiles {r : Remap} (keeps : ∀ s, r.keep s = true)
    (ids : r.keepIds = true) (ss : List (State W)) (table : Table) (target : Automaton W) :
    (ss.foldl (copyState r) (table, target)).2.profiles =
      target.profiles ++ ss.map State.profile := by
  induction ss generalizing table target with
  | nil => simp
  | cons s ss ih =>
    rw [List.foldl_cons, copyState, if_pos (keeps s.symbol), ih, profiles_addState, if_pos ids,
      List.append_assoc]
    rfl

theorem remap_profiles {r : Remap} (keeps : ∀ s, r.keep s = true) (ids : r.keepIds = true)
    (a target : Automaton W) :
    (a.remap r target).2.profiles = target.profiles ++ a.profiles.drop 2 := by
  rw [remap, foldl_copyState_profiles keeps ids, profiles, profiles, interior, List.map_drop]

theorem profiles_eq_map (a : Automaton W) :
    a.profiles = (List.range a.size).map fun i => a.profile (.inner i) := by
  refine List.ext_getElem? fun i => ?_
  by_cases hi : i < a.size
  · have hs : a.states[i]? = some a.states[i] := Array.getElem?_eq_getElem hi
    simp [profiles, profile, hi, hs]
  · have hs : a.states[i]? = none := Array.getElem?_eq_none (Nat.not_lt.1 hi)
    simp [profiles, hi, hs]

section
variable [LogWeight W]

theorem WellFormed.profiles_eq (h : a.WellFormed) :
    (Automaton.empty : Automaton W).profiles ++ a.profiles.drop 2 = a.profiles := by
  have init := hasProfile_iff.1 h.init
  have final := hasProfile_iff.1 h.final
  cases hp : a.profiles with
  | nil =>
    rw [hp] at init
    cases init
  | cons p ps =>
    rw [hp] at init final
    cases ps with
    | nil => cases final
    | cons q ps =>
      cases init
      cases final
      rfl

theorem WellFormed.remap_profiles (h : a.WellFormed) {r : Remap} (keeps : ∀ s, r.keep s = true)
    (ids : r.keepIds = true) : (a.remap r Automaton.empty).2.profiles = a.profiles := by
  rw [Automaton.remap_profiles keeps ids, h.profiles_eq]

theorem profiles_of_transpose (h : a.WellFormed) (ht : a.transpose = .ok b) :
    b.profiles = a.profiles := by
  simp only [transpose, bind_ok, pure_ok] at ht
  obtain ⟨arcs, -, rfl⟩ := ht
  rw [profiles_withArcs]
  exact h.remap_profiles (fun _ => rfl) rfl

theorem profiles_of_copy (h : a.WellFormed) (hc : a.copy = .ok b) : b.profiles = a.profiles := by
  simp only [copy, embed, bind_ok, pure_ok] at hc
  obtain ⟨arcs, -, rfl⟩ := hc
  rw [profiles_withArcs]
  exact h.remap_profiles (fun _ => rfl) rfl

end

-- ---------------------------------------------------------------------------
-- Fresh ids
-- ---------------------------------------------------------------------------

/-- The interior states have the ids 1, 2, 3 and so on, and the next one goes on with this. -/
structure Numbered (a : Automaton W) : Prop where
  nextId_eq : a.nextId = a.size - 1
  profile_eq : ∀ i, 2 ≤ i → i < a.size → a.profile (.inner i) = ⟨some (i - 1), a.symbolAt i⟩

namespace Numbered

theorem empty : (empty : Automaton W).Numbered where
  nextId_eq := rfl
  profile_eq _ h hlt := absurd hlt (Nat.not_lt.2 h)

theorem addState (h : a.Numbered) (s : Symbol) : (a.addState none s).Numbered where
  nextId_eq := by
    have := h.nextId_eq
    rw [nextId_addState, size_addState, Option.getD_none]
    omega
  profile_eq i h2 hi := by
    rw [size_addState] at hi
    rw [profile_addState, symbolAt_addState, Option.getD_none]
    by_cases he : i = a.size
    · rw [if_pos he, if_pos he, h.nextId_eq, he]
    · rw [if_neg he, if_neg he]
      exact h.profile_eq i h2 (by omega)

theorem withArcs (h : a.Numbered) (arcs : List (Arc W)) : (a.withArcs arcs).Numbered where
  nextId_eq := by rw [nextId_withArcs, size_withArcs, h.nextId_eq]
  profile_eq i h2 hi := by
    rw [size_withArcs] at hi
    rw [profile_withArcs, symbolAt_withArcs, h.profile_eq i h2 hi]

theorem remap (h : t.Numbered) (a : Automaton W) {r : Remap} (fresh : r.keepIds = false) :
    (a.remap r t).2.Numbered := by
  unfold Automaton.remap
  generalize (#[some r.init, some r.final] : Table) = table
  induction a.interior generalizing table t with
  | nil => exact h
  | cons s ss ih =>
    rw [List.foldl_cons, copyState, fresh]
    split
    · exact ih (h.addState _) _
    · exact ih h _

variable [LogWeight W]

theorem embed (h : t.Numbered) {operation : String} {r : Remap} (fresh : r.keepIds = false)
    (he : a.embed operation r t = .ok b) : b.Numbered := by
  simp only [Automaton.embed, bind_ok, pure_ok] at he
  obtain ⟨arcs, -, rfl⟩ := he
  exact (h.remap a fresh).withArcs arcs

theorem of_union {as : List (Automaton W)} (hu : union as = .ok b) : b.Numbered :=
  foldlM_induction hu .empty fun _ _ _ _ ht he => ht.embed rfl he

theorem profiles_eq (ha : a.Numbered) (hb : b.Numbered) (wa : a.WellFormed) (wb : b.WellFormed)
    (size_eq : a.size = b.size) (symbolAt : ∀ i, i < a.size → a.symbolAt i = b.symbolAt i) :
    a.profiles = b.profiles := by
  rw [profiles_eq_map, profiles_eq_map, ← size_eq]
  refine List.map_congr_left fun i hi => ?_
  have hi := List.mem_range.1 hi
  rcases i with _ | _ | i
  · rw [wa.init.profile_eq, wb.init.profile_eq]
  · rw [wa.final.profile_eq, wb.final.profile_eq]
  · have two : 2 ≤ i + 1 + 1 := Nat.le_add_left 2 i
    rw [ha.profile_eq _ two hi, hb.profile_eq _ two (size_eq ▸ hi), symbolAt _ hi]

theorem ext (ha : a.Numbered) (hb : b.Numbered) (wa : a.WellFormed) (wb : b.WellFormed)
    (size_eq : a.size = b.size) (symbolAt : ∀ i, i < a.size → a.symbolAt i = b.symbolAt i)
    (arcsFrom : ∀ i, a.arcsFrom i = b.arcsFrom i) : a = b := by
  refine eq_of_profiles ?_ (ha.profiles_eq hb wa wb size_eq symbolAt) fun i =>
    wa.linksFrom_congr wb (arcsFrom i)
  rw [ha.nextId_eq, hb.nextId_eq, size_eq]

end Numbered

end LogAutomata.Automaton
