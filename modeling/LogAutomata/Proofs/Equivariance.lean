import LogAutomata.Proofs.Rearrangement

/-!
# Merging rearranged automata

Which states a merge folds together follows from the links alone: a state is told apart by
its symbol and by where its predecessors are folded, so two maps that do this have the same
fibres, by induction from Init on. Two merges of rearranged automata therefore make
automata that differ in the positions of states only, and so do rounds of merges, however
the nodes were numbered.
-/

namespace LogAutomata.Automaton

variable {W : Type}

-- ---------------------------------------------------------------------------
-- Links and reachability
-- ---------------------------------------------------------------------------

namespace Renaming.MapsLinks
variable {a b : Automaton W} {r : Renaming a b} (links : r.MapsLinks) (ha : 2 ≤ a.size)
include links

theorem reaches_image {i j : Nat} (hi : i < a.size) (h : a.Reaches i j) :
    b.Reaches (r.image i) (r.image j) := by
  obtain ⟨js, hp⟩ := reaches_iff_path.1 h
  exact links.reaches hi hp

include ha

theorem reaches_back {k m : Nat} (hk : k < b.size) (h : b.Reaches k m) :
    a.Reaches (r.back k) (r.back m) := (links.symm ha).reaches_image hk h

theorem init_reaches_iff {i : Nat} (hi : i < a.size) :
    b.Reaches 0 (r.image i) ↔ a.Reaches 0 i := by
  have h0 : 0 < a.size := Nat.lt_of_lt_of_le Nat.two_pos ha
  constructor
  · intro h
    have := links.reaches_back ha (r.init ▸ r.lt_size 0 h0) h
    rwa [← r.init, r.back_image 0 h0, r.back_image i hi] at this
  · intro h
    have := links.reaches_image h0 h
    rwa [r.init] at this

theorem acyclic (hc : a.Acyclic) : b.Acyclic := by
  intro k hk hcycle
  obtain ⟨m, hm, hmk⟩ := onCycle_iff.1 hcycle
  obtain ⟨hlt, hlt'⟩ := lt_size_of_mem_successors hm
  have back := links.back_mem_successors hm
  rw [← r.image_back k hlt, links.init_reaches_iff ha (r.back_lt_size k hlt)] at hk
  exact hc _ hk (onCycle_iff.2 ⟨_, back, links.reaches_back ha hlt' hmk⟩)

theorem exists_predecessor_iff {i : Nat} (hi : i < a.size) {P : Nat → Prop} :
    (∃ p, b.Reaches 0 p ∧ r.image i ∈ b.successors p ∧ P p) ↔
      ∃ p, a.Reaches 0 p ∧ i ∈ a.successors p ∧ P (r.image p) := by
  constructor
  · rintro ⟨p, hp, hs, h⟩
    have hlt := (lt_size_of_mem_successors hs).1
    have back := links.back_mem_successors hs
    rw [r.back_image i hi] at back
    rw [← r.image_back p hlt] at hp h
    exact ⟨r.back p, (links.init_reaches_iff ha (r.back_lt_size p hlt)).1 hp, back, h⟩
  · rintro ⟨p, hp, hs, h⟩
    have hlt := (lt_size_of_mem_successors hs).1
    exact ⟨r.image p, (links.init_reaches_iff ha hlt).2 hp, (links p i hlt hi).1 hs, h⟩

end Renaming.MapsLinks

-- ---------------------------------------------------------------------------
-- What a merge tells apart
-- ---------------------------------------------------------------------------

/-- The map gives one image to states with one symbol that are entered from the same images.
Init and Final stay alone. -/
structure TellsApart (a : Automaton W) (q : Nat → Nat) : Prop where
  init_iff : ∀ i, a.Reaches 0 i → (q i = q 0 ↔ i = 0)
  eq_iff : ∀ i j, i ≠ 0 → j ≠ 0 → a.Reaches 0 i → a.Reaches 0 j →
    (q i = q j ↔ a.symbolAt i = a.symbolAt j ∧ (i = 1 ↔ j = 1) ∧
      ∀ k, (∃ p, a.Reaches 0 p ∧ i ∈ a.successors p ∧ q p = k) ↔
        ∃ p, a.Reaches 0 p ∧ j ∈ a.successors p ∧ q p = k)

theorem Merges.tellsApart [LogWeight W] {a b : Automaton W} {q : Nat → Nat} (h : a.Merges b q) :
    a.TellsApart q where
  init_iff i hi := by
    rw [h.init]
    exact h.eq_zero_iff hi
  eq_iff := h.eq_iff

namespace TellsApart
variable {a b : Automaton W} {u v : Nat → Nat}

theorem eq_of_eq (hu : a.TellsApart u) (hv : a.TellsApart v) (hc : a.Acyclic) {i j : Nat}
    (hi : a.Reaches 0 i) (hj : a.Reaches 0 j) (he : u i = u j) : v i = v j := by
  refine hc.forward (P := fun i => ∀ j, a.Reaches 0 j → u i = u j → v i = v j)
    (fun i hi ih j hj he => ?_) hi j hj he
  by_cases hi0 : i = 0
  · subst hi0
    rw [(hu.init_iff j hj).1 he.symm]
  · have hj0 : j ≠ 0 := by
      rintro rfl
      exact hi0 ((hu.init_iff i hi).1 he)
    obtain ⟨symbol, final, parents⟩ := (hu.eq_iff i j hi0 hj0 hi hj).1 he
    refine (hv.eq_iff i j hi0 hj0 hi hj).2 ⟨symbol, final, fun k => ?_⟩
    constructor
    · rintro ⟨p, hp, hs, rfl⟩
      obtain ⟨p', hp', hs', hpp⟩ := (parents (u p)).1 ⟨p, hp, hs, rfl⟩
      exact ⟨p', hp', hs', (ih p hp hs p' hp' hpp.symm).symm⟩
    · rintro ⟨p', hp', hs', rfl⟩
      obtain ⟨p, hp, hs, hpp⟩ := (parents (u p')).2 ⟨p', hp', hs', rfl⟩
      exact ⟨p, hp, hs, ih p hp hs p' hp' hpp⟩

theorem comp_image {r : Renaming a b} (h : b.TellsApart v) (links : r.MapsLinks)
    (ha : 2 ≤ a.size) : a.TellsApart fun i => v (r.image i) where
  init_iff i hi := by
    have h0 : 0 < a.size := Nat.lt_of_lt_of_le Nat.two_pos ha
    have hlt := hi.lt_size h0
    rw [r.init, h.init_iff _ ((links.init_reaches_iff ha hlt).2 hi)]
    conv_lhs => rw [← r.init]
    exact r.image_inj hlt h0
  eq_iff i j hi0 hj0 hi hj := by
    have h0 : 0 < a.size := Nat.lt_of_lt_of_le Nat.two_pos ha
    have hilt := hi.lt_size h0
    have hjlt := hj.lt_size h0
    have ne : ∀ {k}, k < a.size → k ≠ 0 → r.image k ≠ 0 := fun hk hne he =>
      hne ((r.image_inj hk h0).1 (he.trans r.init.symm))
    have one : ∀ {k}, k < a.size → (r.image k = 1 ↔ k = 1) := fun hk => by
      conv_lhs => rw [← r.final]
      exact r.image_inj hk ha
    rw [h.eq_iff _ _ (ne hilt hi0) (ne hjlt hj0) ((links.init_reaches_iff ha hilt).2 hi)
      ((links.init_reaches_iff ha hjlt).2 hj), r.symbolAt i hilt, r.symbolAt j hjlt, one hilt,
      one hjlt]
    refine and_congr_right fun _ => and_congr_right fun _ => forall_congr' fun k => ?_
    rw [links.exists_predecessor_iff ha hilt, links.exists_predecessor_iff ha hjlt]

end TellsApart

-- ---------------------------------------------------------------------------
-- Two merges
-- ---------------------------------------------------------------------------

/-- Final is at 1 in both merges, and any other position is the image of a state. -/
def Images (a : Automaton W) (q q' : Nat → Nat) (k m : Nat) : Prop :=
  k = 1 ∧ m = 1 ∨ ∃ i, a.Reaches 0 i ∧ q i = k ∧ q' i = m

namespace Merges
variable [LogWeight W] {a a' b b' : Automaton W} {q q' : Nat → Nat} (h : a.Merges b q)
  (h' : a'.Merges b' q') {r : Renaming a a'} (links : r.MapsLinks) (ha : 2 ≤ a.size)
include h h' links ha

theorem image_eq_iff (hc : a.Acyclic) {i j : Nat} (hi : a.Reaches 0 i) (hj : a.Reaches 0 j) :
    q i = q j ↔ q' (r.image i) = q' (r.image j) := by
  have hv := h'.tellsApart.comp_image links ha
  exact ⟨h.tellsApart.eq_of_eq hv hc hi hj, hv.eq_of_eq h.tellsApart hc hi hj⟩

theorem image_eq_one_iff {i : Nat} (hi : a.Reaches 0 i) : q i = 1 ↔ q' (r.image i) = 1 := by
  have hlt : i < a.size := hi.lt_size (Nat.lt_of_lt_of_le Nat.two_pos ha)
  rw [h.eq_one_iff hi, h'.eq_one_iff ((links.init_reaches_iff ha hlt).2 hi)]
  conv_rhs => rw [← r.final]
  exact (r.image_inj hlt ha).symm

theorem pairs_images (hc : a.Acyclic) (wb : b.WellFormed) (wb' : b'.WellFormed) :
    b.Pairs b' (a.Images q fun i => q' (r.image i)) := by
  have h0 : 0 < a.size := Nat.lt_of_lt_of_le Nat.two_pos ha
  have reaches : ∀ {i}, a.Reaches 0 i → a'.Reaches 0 (r.image i) := fun hi =>
    (links.init_reaches_iff ha (hi.lt_size h0)).2 hi
  refine ⟨fun k hk => ?total, fun m hm => ?onto, ?one_to_one, ?init, .inl ⟨rfl, rfl⟩, ?symbols⟩
  case total =>
    by_cases h1 : k = 1
    · exact ⟨1, wb'.two_le_size, .inl ⟨h1, rfl⟩⟩
    · obtain ⟨i, hi, rfl⟩ := h.exists_image hk h1
      exact ⟨_, (h'.lt_size_iff _).2 (reaches hi), .inr ⟨i, hi, rfl, rfl⟩⟩
  case onto =>
    by_cases h1 : m = 1
    · exact ⟨1, wb.two_le_size, .inl ⟨rfl, h1⟩⟩
    · obtain ⟨i', hi', rfl⟩ := h'.exists_image hm h1
      have hlt := hi'.lt_size (r.init ▸ r.lt_size 0 h0)
      have hi : a.Reaches 0 (r.back i') := by
        rwa [← links.init_reaches_iff ha (r.back_lt_size i' hlt), r.image_back i' hlt]
      exact ⟨_, (h.lt_size_iff _).2 hi, .inr ⟨_, hi, rfl, congrArg q' (r.image_back i' hlt)⟩⟩
  case one_to_one =>
    rintro k m k' m' (⟨rfl, rfl⟩ | ⟨i, hi, rfl, rfl⟩) (⟨rfl, rfl⟩ | ⟨j, hj, rfl, rfl⟩)
    · exact ⟨fun _ => rfl, fun _ => rfl⟩
    · rw [eq_comm, h.image_eq_one_iff h' links ha hj, eq_comm]
    · exact h.image_eq_one_iff h' links ha hi
    · exact h.image_eq_iff h' links ha hc hi hj
  case init => exact .inr ⟨0, .refl a 0, h.init, (congrArg q' r.init).trans h'.init⟩
  case symbols =>
    rintro k m (⟨rfl, rfl⟩ | ⟨i, hi, rfl, rfl⟩)
    · rw [wb.symbolAt_one, wb'.symbolAt_one]
    · rw [h'.symbolAt _ (reaches hi), h.symbolAt i hi, r.symbolAt i (hi.lt_size h0)]

/-- The merged automata differ in positions only. -/
theorem exists_renaming_images (hc : a.Acyclic) (wb : b.WellFormed) (wb' : b'.WellFormed) :
    ∃ s : Renaming b b', ∀ i, a.Reaches 0 i → s.image (q i) = q' (r.image i) := by
  obtain ⟨s, hs⟩ := (h.pairs_images h' links ha hc wb wb').exists_renaming wb.two_le_size
  exact ⟨s, fun i hi => hs _ _ ((h.lt_size_iff i).2 hi) (.inr ⟨i, hi, rfl, rfl⟩)⟩

variable {s : Renaming b b'} (hs : ∀ i, a.Reaches 0 i → s.image (q i) = q' (r.image i))
include hs

theorem mapsLinks_images : s.MapsLinks := by
  have h0 : 0 < a.size := Nat.lt_of_lt_of_le Nat.two_pos ha
  intro k m hk hm
  rw [h.mem_successors_iff, h'.mem_successors_iff]
  constructor
  · rintro ⟨i, j, hi, hj, rfl, rfl⟩
    obtain ⟨hilt, hjlt⟩ := lt_size_of_mem_successors hj
    exact ⟨r.image i, r.image j, (links.init_reaches_iff ha hilt).2 hi, (links i j hilt hjlt).1 hj,
      (hs i hi).symm, (hs j (hi.step hj)).symm⟩
  · rintro ⟨i', j', hi', hj', hqi, hqj⟩
    obtain ⟨hilt, hjlt⟩ := lt_size_of_mem_successors hj'
    have hj := links.back_mem_successors hj'
    have hi : a.Reaches 0 (r.back i') := by
      rwa [← links.init_reaches_iff ha (r.back_lt_size i' hilt), r.image_back i' hilt]
    have back : ∀ {n n'}, n' < a'.size → n < b.size → a.Reaches 0 (r.back n') →
        q' n' = s.image n → q (r.back n') = n := by
      intro n n' hlt hn hr he
      refine (s.image_inj ((h.lt_size_iff _).2 hr) hn).1 ?_
      rw [hs _ hr, r.image_back n' hlt, he]
    exact ⟨r.back i', r.back j', hi, hj, back hilt hk hi hqi, back hjlt hm (hi.step hj) hqj⟩

theorem eq_image_iff {i k : Nat} (hi : i < a.size) (hk : k < b.size) :
    q' (r.image i) = s.image k ↔ q i = k := by
  by_cases hr : a.Reaches 0 i
  · rw [← hs i hr, s.image_inj ((h.lt_size_iff i).2 hr) hk]
  · refine iff_of_false (fun he => hr ?_) fun he => hr ((h.lt_size_iff i).1 (he ▸ hk))
    rw [← links.init_reaches_iff ha hi, ← h'.lt_size_iff, he]
    exact s.lt_size k hk

omit links in
theorem weights_perm (keeps : r.KeepsArcs) {k m : Nat} (hk : k < b.size) (hm : m < b.size) :
    ((a.arcs.filter fun x => q x.src = k ∧ q x.dest = m).map Arc.weight).Perm
      ((a'.arcs.filter fun x => q' x.src = s.image k ∧ q' x.dest = s.image m).map Arc.weight) := by
  have links := keeps.mapsArcs.mapsLinks
  have moved := (keeps.arcs_perm.filter fun x =>
    q' x.src = s.image k ∧ q' x.dest = s.image m).map Arc.weight
  rw [List.filter_map, List.map_map] at moved
  refine .trans (.of_eq (congrArg (List.map Arc.weight) (List.filter_congr fun x hx => ?_))) moved
  have hx := mem_arcs_iff.1 hx
  refine decide_eq_decide.2 (and_congr ?_ ?_)
  · exact (h.eq_image_iff h' links ha hs (src_lt_size hx) hk).symm
  · exact (h.eq_image_iff h' links ha hs (dest_lt_size hx) hm).symm

omit links in
theorem mapsArcs_images [@Std.Commutative W logAdd] [@Std.Associative W logAdd]
    (keeps : r.KeepsArcs) : s.MapsArcs := by
  have links := h.mapsLinks_images h' keeps.mapsArcs.mapsLinks ha hs
  intro k m w hk hm
  have same : ∀ {u v}, (m, u) ∈ b.arcsFrom k → (s.image m, v) ∈ b'.arcsFrom (s.image k) → u = v := by
    intro u v hu hv
    obtain ⟨us, rfl, hus⟩ := h.weight _ _ _ hu
    obtain ⟨vs, rfl, hvs⟩ := h'.weight _ _ _ hv
    exact logSum_perm ((hus.trans (h.weights_perm h' ha hs keeps hk hm)).trans hvs.symm)
  constructor
  · intro hw
    obtain ⟨v, hv⟩ := Automaton.mem_successors_iff.1
      ((links k m hk hm).1 (Automaton.mem_successors_iff.2 ⟨w, hw⟩))
    rwa [same hw hv]
  · intro hw
    obtain ⟨v, hv⟩ := Automaton.mem_successors_iff.1
      ((links k m hk hm).2 (Automaton.mem_successors_iff.2 ⟨w, hw⟩))
    rwa [← same hv hw]

end Merges

theorem leftMerge_isomorphic [LogWeight W] [DefinedSums W] [@Std.Commutative W logAdd]
    [@Std.Associative W logAdd] {a a' : Automaton W} (ha : a.WellFormed) (ha' : a'.WellFormed)
    (hc : a.Acyclic) (h : a.Isomorphic a') : Agree Isomorphic a.leftMerge a'.leftMerge := by
  obtain ⟨r, keeps⟩ := h
  have links := keeps.mapsArcs.mapsLinks
  have two := ha.two_le_size
  obtain ⟨b, q, hb, wb, h⟩ := leftMerge_ok ha hc
  obtain ⟨b', q', hb', wb', h'⟩ := leftMerge_ok ha' (links.acyclic two hc)
  obtain ⟨s, hs⟩ := h.exists_renaming_images h' links two hc wb wb'
  exact ⟨b, b', hb, hb', s, (h.mapsArcs_images h' two hs keeps).keepsArcs h.nodup h'.nodup⟩

end LogAutomata.Automaton
