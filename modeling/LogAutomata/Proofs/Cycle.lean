import LogAutomata.Proofs.Paths

/-!
# What the search for a cycle finds

Every state on the trail leads to the innermost one, so a target on the trail closes a cycle. A
state is done when all its targets are, so the states that are done link only to states that
were done before them, and all their targets are states of the automaton. So none is found
exactly where no cycle can be reached and no target leads out. In a well-formed automaton no
target does, and the search never fails.
-/

namespace LogAutomata.Automaton

variable {W : Type} {a : Automaton W}

-- ---------------------------------------------------------------------------
-- Targets
-- ---------------------------------------------------------------------------

theorem mem_of_mem_firstByIndex {e : Endpoint} {es : List Endpoint} (h : e ∈ firstByIndex es) :
    e ∈ es := by
  induction es with
  | nil => exact h
  | cons f es ih =>
    rw [firstByIndex] at h
    rcases List.mem_cons.1 h with rfl | h
    · exact List.mem_cons_self
    · exact List.mem_cons_of_mem _ (ih (List.mem_of_mem_filter h))

theorem exists_mem_firstByIndex {e : Endpoint} {es : List Endpoint} (h : e ∈ es) :
    ∃ f ∈ firstByIndex es, f.index = e.index := by
  induction es with
  | nil => cases h
  | cons g es ih =>
    by_cases hg : e.index = g.index
    · exact ⟨g, by simp [firstByIndex], hg.symm⟩
    · have hne : e ≠ g := fun he => hg (congrArg Endpoint.index he)
      obtain ⟨f, hf, hi⟩ := ih ((List.mem_cons.1 h).resolve_left hne)
      exact ⟨f, by simp [firstByIndex, hf, hi, hg], hi⟩

def OwnsTargets (a : Automaton W) (i : Nat) : Prop := ∀ e ∈ a.targets i, a.owns e = true

theorem mem_successors_of_target {i j : Nat} {e : Endpoint} (he : e ∈ a.targets i)
    (hp : a.position? e = some j) : j ∈ a.successors i := by
  obtain ⟨l, hl, rfl⟩ := List.mem_map.1 (mem_of_mem_firstByIndex he)
  exact List.mem_filterMap.2 ⟨l, hl, hp⟩

theorem exists_target {i j : Nat} (hj : j ∈ a.successors i) : ∃ e ∈ a.targets i, e.index = j := by
  obtain ⟨l, hl, hp⟩ := List.mem_filterMap.1 hj
  have hd : Endpoint.inner j ∈ (a.linksFrom i).map Link.dest :=
    List.mem_map.2 ⟨l, hl, (position?_eq_some_iff.1 hp).1⟩
  exact exists_mem_firstByIndex hd

theorem WellFormed.ownsTargets [LogWeight W] (h : a.WellFormed) (i : Nat) : a.OwnsTargets i := by
  intro e he
  obtain ⟨l, hl, rfl⟩ := List.mem_map.1 (mem_of_mem_firstByIndex he)
  exact h.owns_dest i l hl

theorem owned_eq_ok_iff_position? {operation : String} {e : Endpoint} {i : Nat} :
    a.owned operation e = .ok i ↔ a.position? e = some i := by
  rw [owned_eq_ok_iff, position?_eq_some_iff]

theorem OwnsTargets.exists_owned {i : Nat} (h : a.OwnsTargets i) {e : Endpoint}
    (he : e ∈ a.targets i) (operation : String) : ∃ j, a.owned operation e = .ok j := by
  obtain ⟨j, hj⟩ := Option.isSome_iff_exists.1 (h e he)
  exact ⟨j, owned_eq_ok_iff_position?.2 hj⟩

-- ---------------------------------------------------------------------------
-- The trail
-- ---------------------------------------------------------------------------

/-- The trail goes along links, from Init to its innermost state. -/
def Leads (a : Automaton W) : List Visit → Prop
  | [] => True
  | v :: trail => a.Reaches 0 v.state ∧ (∀ i ∈ Visit.states trail, a.Reaches i v.state) ∧
    v.untried ⊆ a.targets v.state ∧ Leads a trail

namespace Leads

variable {u v : Nat} {e : Endpoint} {rest : List Endpoint} {trail : List Visit}

theorem mem_successors (h : a.Leads (⟨u, e :: rest⟩ :: trail))
    (hv : a.owned "find_cycle" e = .ok v) : v ∈ a.successors u :=
  mem_successors_of_target (h.2.2.1 List.mem_cons_self) (owned_eq_ok_iff_position?.1 hv)

theorem tried (h : a.Leads (⟨u, e :: rest⟩ :: trail)) : a.Leads (⟨u, rest⟩ :: trail) :=
  ⟨h.1, h.2.1, (List.cons_subset.1 h.2.2.1).2, h.2.2.2⟩

theorem enter (h : a.Leads (⟨u, rest⟩ :: trail)) (hv : v ∈ a.successors u) :
    a.Leads (⟨v, a.targets v⟩ :: ⟨u, rest⟩ :: trail) := by
  refine ⟨h.1.step hv, fun i hi => ?_, List.Subset.refl _, h⟩
  rcases List.mem_cons.1 hi with rfl | hi
  · exact reaches_of_mem_successors hv
  · exact (h.2.1 i hi).step hv

end Leads

theorem leads_start (a : Automaton W) : a.Leads [⟨0, a.targets 0⟩] :=
  ⟨.refl a 0, fun _ hi => absurd hi List.not_mem_nil, List.Subset.refl _, trivial⟩

theorem follow_eq_error {trail : List Visit} {done : List Nat} (h : a.Leads trail) {f : Fault}
    (hf : a.follow trail done = .error f) :
    ∃ i, a.Reaches 0 i ∧ ∃ e ∈ a.targets i, a.owned "find_cycle" e = .error f := by
  fun_induction follow a trail done with
  | case1 => cases hf
  | case2 u trail done ih => exact ih h.2.2.2 hf
  | case3 u e rest trail done g hg =>
    cases hf
    exact ⟨u, h.1, e, h.2.2.1 List.mem_cons_self, hg⟩
  | case4 => cases hf
  | case5 u e rest trail done v hv hm hd ih => exact ih h.tried hf
  | case6 u e rest trail done v hv hm hd ih =>
    exact ih (h.tried.enter (h.mem_successors hv)) hf

-- ---------------------------------------------------------------------------
-- Without a cycle none is found
-- ---------------------------------------------------------------------------

theorem follow_eq_none (hc : a.Acyclic) (ho : ∀ i, a.Reaches 0 i → a.OwnsTargets i)
    {trail : List Visit} {done : List Nat} (h : a.Leads trail) :
    a.follow trail done = .ok none := by
  fun_induction follow a trail done with
  | case1 => rfl
  | case2 u trail done ih => exact ih h.2.2.2
  | case3 u e rest trail done f hf =>
    obtain ⟨v, hv⟩ := (ho u h.1).exists_owned (h.2.2.1 List.mem_cons_self) "find_cycle"
    cases hf.symm.trans hv
  | case4 u e rest trail done v hv hm =>
    have hj := h.mem_successors hv
    rcases List.mem_cons.1 hm with rfl | hm
    · exact absurd (.refl a _) (hc.not_reaches h.1 hj)
    · exact absurd (h.2.1 _ hm) (hc.not_reaches h.1 hj)
  | case5 u e rest trail done v hv hm hd ih => exact ih h.tried
  | case6 u e rest trail done v hv hm hd ih => exact ih (h.tried.enter (h.mem_successors hv))

-- ---------------------------------------------------------------------------
-- Where none is found there is none
-- ---------------------------------------------------------------------------

def IsAmong (a : Automaton W) (e : Endpoint) (states : List Nat) : Prop :=
  ∃ i ∈ states, a.position? e = some i

/-- All targets of each of these states are states behind it. -/
def Finished (a : Automaton W) : List Nat → Prop
  | [] => True
  | u :: done => (∀ e ∈ a.targets u, a.IsAmong e done) ∧ Finished a done

/-- Each target of a state on the trail is still to be tried, or it is done or further in on the
trail. -/
def Explored (a : Automaton W) : List Nat → List Visit → Prop
  | _, [] => True
  | seen, v :: trail => (∀ e ∈ a.targets v.state, a.IsAmong e seen ∨ e ∈ v.untried) ∧
    Explored a (v.state :: seen) trail

theorem IsAmong.mono {e : Endpoint} {xs ys : List Nat} (h : a.IsAmong e xs) (hs : xs ⊆ ys) :
    a.IsAmong e ys := h.imp fun _ hi => ⟨hs hi.1, hi.2⟩

namespace Finished

variable {done : List Nat} (h : a.Finished done) {i j : Nat}
include h

theorem among (hi : i ∈ done) {e : Endpoint} (he : e ∈ a.targets i) : a.IsAmong e done := by
  induction done with
  | nil => cases hi
  | cons u done ih =>
    rcases List.mem_cons.1 hi with rfl | hi
    · exact (h.1 e he).mono (List.subset_cons_self _ _)
    · exact (ih h.2 hi).mono (List.subset_cons_self _ _)

theorem ownsTargets (hi : i ∈ done) : a.OwnsTargets i := by
  intro e he
  obtain ⟨j, -, hp⟩ := h.among hi he
  exact Option.isSome_iff_exists.2 ⟨j, hp⟩

omit h in
theorem mem_of_among (h : ∀ e ∈ a.targets i, a.IsAmong e done) (hj : j ∈ a.successors i) :
    j ∈ done := by
  obtain ⟨e, he, index⟩ := exists_target hj
  obtain ⟨k, hk, hp⟩ := h e he
  obtain ⟨rfl, -⟩ := position?_eq_some_iff.1 hp
  obtain rfl : k = j := Int.ofNat.inj index
  exact hk

theorem step (hi : i ∈ done) (hj : j ∈ a.successors i) : j ∈ done :=
  mem_of_among (fun _ he => h.among hi he) hj

theorem path {js : List Nat} (hi : i ∈ done) (hp : a.Path i js j) : j ∈ done := by
  induction hp with
  | nil => exact hi
  | cons hj _ ih => exact ih (h.step hi hj)

theorem not_onCycle (hi : i ∈ done) : ¬a.OnCycle i := by
  induction done with
  | nil => cases hi
  | cons u done ih =>
    -- a cycle through the first state would put it among the states behind it
    rcases List.mem_cons.1 hi with rfl | hi
    · intro hc
      obtain ⟨j, hj, hr⟩ := onCycle_iff.1 hc
      obtain ⟨js, hp⟩ := reaches_iff_path.1 hr
      exact ih h.2 (h.2.path (mem_of_among h.1 hj) hp) hc
    · exact ih h.2 hi

theorem of_reaches (h0 : 0 ∈ done) (hi : a.Reaches 0 i) : i ∈ done := by
  obtain ⟨js, hp⟩ := reaches_iff_path.1 hi
  exact h.path h0 hp

end Finished

namespace Explored

variable {seen : List Nat} {trail : List Visit}

theorem start (a : Automaton W) : a.Explored [] [⟨0, a.targets 0⟩] :=
  ⟨fun _ he => .inr he, trivial⟩

theorem mono {seen' : List Nat} (hs : seen ⊆ seen') (h : a.Explored seen trail) :
    a.Explored seen' trail := by
  induction trail generalizing seen seen' with
  | nil => trivial
  | cons v trail ih =>
    exact ⟨fun e he => (h.1 e he).imp_left fun hm => hm.mono hs,
      ih (List.cons_subset_cons _ hs) h.2⟩

theorem tried {u : Nat} {e : Endpoint} {rest : List Endpoint} (hm : a.IsAmong e seen)
    (h : a.Explored seen (⟨u, e :: rest⟩ :: trail)) : a.Explored seen (⟨u, rest⟩ :: trail) := by
  refine ⟨fun f hf => ?_, h.2⟩
  rcases h.1 f hf with hf | hf
  · exact .inl hf
  · rcases List.mem_cons.1 hf with rfl | hf
    · exact .inl hm
    · exact .inr hf

theorem enter {u v : Nat} {e : Endpoint} {rest : List Endpoint} (hv : a.position? e = some v)
    (h : a.Explored seen (⟨u, e :: rest⟩ :: trail)) :
    a.Explored seen (⟨v, a.targets v⟩ :: ⟨u, rest⟩ :: trail) :=
  ⟨fun _ he => .inr he,
    (h.mono (List.subset_cons_self v seen)).tried ⟨v, List.mem_cons_self, hv⟩⟩

end Explored

/-- If the search finds no cycle, then everything that it has come by is done. -/
theorem exists_finished {trail : List Visit} {done : List Nat} (hf : a.Finished done)
    (he : a.Explored done trail) (hn : a.follow trail done = .ok none) :
    ∃ all, a.Finished all ∧ done ⊆ all ∧ Visit.states trail ⊆ all := by
  fun_induction follow a trail done with
  | case1 done => exact ⟨done, hf, fun _ h => h, List.nil_subset _⟩
  | case2 u trail done ih =>
    have last : ∀ e ∈ a.targets u, a.IsAmong e done := fun e hm =>
      (he.1 e hm).resolve_right List.not_mem_nil
    obtain ⟨all, hall, hd, ht⟩ := ih ⟨last, hf⟩ he.2 hn
    obtain ⟨hu, hd⟩ := List.cons_subset.1 hd
    exact ⟨all, hall, hd, List.cons_subset.2 ⟨hu, ht⟩⟩
  | case3 => cases hn
  | case4 => cases hn
  | case5 u e rest trail done v hv hm hd ih =>
    exact ih hf (he.tried ⟨v, hd, owned_eq_ok_iff_position?.1 hv⟩) hn
  | case6 u e rest trail done v hv hm hd ih =>
    obtain ⟨all, hall, hd, ht⟩ := ih hf (he.enter (owned_eq_ok_iff_position?.1 hv)) hn
    exact ⟨all, hall, hd, (List.cons_subset.1 ht).2⟩

theorem findCycle_eq_none_iff : a.findCycle = .ok none ↔
    a.Acyclic ∧ ∀ i, a.Reaches 0 i → a.OwnsTargets i := by
  constructor
  · intro hn
    have start : a.Finished [] := trivial
    obtain ⟨all, hall, -, ht⟩ := exists_finished start (.start a) hn
    have reached : ∀ i, a.Reaches 0 i → i ∈ all := fun i hi =>
      hall.of_reaches (ht List.mem_cons_self) hi
    exact ⟨fun i hi => hall.not_onCycle (reached i hi), fun i hi => hall.ownsTargets (reached i hi)⟩
  · rintro ⟨hc, ho⟩
    exact follow_eq_none hc ho (leads_start a)

theorem findCycle_eq_error {f : Fault} (h : a.findCycle = .error f) :
    ∃ i, a.Reaches 0 i ∧ ∃ e ∈ a.targets i, a.owned "find_cycle" e = .error f :=
  follow_eq_error (leads_start a) h

-- ---------------------------------------------------------------------------
-- Well-formed automata
-- ---------------------------------------------------------------------------

variable [LogWeight W]

theorem findCycle_eq_none (ha : a.WellFormed) (hc : a.Acyclic) : a.findCycle = .ok none :=
  findCycle_eq_none_iff.2 ⟨hc, fun i _ => ha.ownsTargets i⟩

theorem findCycle_ok (ha : a.WellFormed) :
    ∃ found, a.findCycle = .ok found ∧ (found = none → a.Acyclic) := by
  cases h : a.findCycle with
  | ok found =>
    refine ⟨found, rfl, ?_⟩
    rintro rfl
    exact (findCycle_eq_none_iff.1 h).1
  | error f =>
    obtain ⟨i, -, e, he, hf⟩ := findCycle_eq_error h
    obtain ⟨v, hv⟩ := (ha.ownsTargets i).exists_owned he "find_cycle"
    cases hf.symm.trans hv

theorem checkAcyclic_ok (ha : a.WellFormed) (hc : a.Acyclic) : a.checkAcyclic = .ok () := by
  rw [checkAcyclic, findCycle_eq_none ha hc]
  rfl

theorem checkAcyclic_eq_error (ha : a.WellFormed) (hc : ¬a.Acyclic) :
    ∃ ids, a.checkAcyclic = .error (.cycle ids) := by
  obtain ⟨found, hr, none⟩ := findCycle_ok ha
  cases found with
  | none => exact absurd (none rfl) hc
  | some states =>
    refine ⟨states.map fun i => (a.profile (.inner i)).id, ?_⟩
    rw [checkAcyclic, hr]
    rfl

end LogAutomata.Automaton
