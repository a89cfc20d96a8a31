import LogAutomata.Proofs.Isomorphism
import LogAutomata.Proofs.Weighted

/-!
# Automata that merging leaves alone

If interior states with one symbol are told apart by their predecessors, merging
from the left merges nothing: by induction from Init on, states with one image have the
same predecessors. If nothing is dropped either, the result differs from the
original in positions only.
-/

namespace LogAutomata.Automaton

variable {W : Type}

/-- Merging from the left has nothing to merge and nothing to drop. -/
structure Reduced (a : Automaton W) : Prop where
  reached : ∀ i, i < a.size → i ≠ 1 → a.Reaches 0 i
  final : a.successors 1 = []
  single : a.Single
  distinct : ∀ i j, 2 ≤ i → 2 ≤ j → i < a.size → j < a.size → a.symbolAt i = a.symbolAt j →
    (∀ n, i ∈ a.successors n ↔ j ∈ a.successors n) → i = j

namespace Renaming

def MapsLinks {a b : Automaton W} (r : Renaming a b) : Prop := ∀ i j, i < a.size → j < a.size →
  (j ∈ a.successors i ↔ r.image j ∈ b.successors (r.image i))

theorem MapsArcs.mapsLinks {a b : Automaton W} {r : Renaming a b} (hr : r.MapsArcs) :
    r.MapsLinks := fun _ _ hi hj => hr.mem_successors_iff hi hj

namespace MapsLinks

variable {a b : Automaton W} {r : Renaming a b} (links : r.MapsLinks)
include links

theorem reaches {i k : Nat} {js : List Nat} (hi : i < a.size) (h : a.Path i js k) :
    b.Reaches (r.image i) (r.image k) := by
  induction h with
  | nil i => exact .refl b _
  | cons hj _ ih =>
    have hjlt := (lt_size_of_mem_successors hj).2
    exact (reaches_of_mem_successors ((links _ _ hi hjlt).1 hj)).trans (ih hjlt)

theorem back_mem_successors {m n : Nat} (hn : n ∈ b.successors m) :
    r.back n ∈ a.successors (r.back m) := by
  obtain ⟨hm, hn'⟩ := lt_size_of_mem_successors hn
  refine (links _ _ (r.back_lt_size m hm) (r.back_lt_size n hn')).2 ?_
  rwa [r.image_back m hm, r.image_back n hn']

theorem back_predecessors {i j : Nat} (hi : i < b.size) (hj : j < b.size)
    (hn : ∀ n, i ∈ b.successors n ↔ j ∈ b.successors n) (n : Nat) :
    r.back i ∈ a.successors n ↔ r.back j ∈ a.successors n := by
  rcases Nat.lt_or_ge n a.size with hlt | hge
  · rw [links n _ hlt (r.back_lt_size i hi), links n _ hlt (r.back_lt_size j hj),
      r.image_back i hi, r.image_back j hj, hn]
  · refine iff_of_false (fun hm => ?_) fun hm => ?_
    · exact absurd (lt_size_of_mem_successors hm).1 (Nat.not_lt.2 hge)
    · exact absurd (lt_size_of_mem_successors hm).1 (Nat.not_lt.2 hge)

theorem symm (ha : 2 ≤ a.size) : (r.symm ha).MapsLinks := by
  intro i j hi hj
  have := links (r.back i) (r.back j) (r.back_lt_size i hi) (r.back_lt_size j hj)
  rw [r.image_back i hi, r.image_back j hj] at this
  exact this.symm

theorem trans {c : Automaton W} {s : Renaming b c} (links' : s.MapsLinks) :
    (r.trans s).MapsLinks := fun i j hi hj =>
  (links i j hi hj).trans (links' _ _ (r.lt_size i hi) (r.lt_size j hj))

theorem keepsLinks (sa : a.Single) (sb : b.Single) : r.KeepsLinks := by
  intro i hi
  have row : (a.arcsFrom i).map (fun e => r.image e.1) = (a.successors i).map r.image := by
    rw [successors_eq, List.map_map]
    rfl
  rw [row, ← successors_eq]
  refine (List.perm_ext_iff_of_nodup ((sa i).map_on fun j hj k hk => ?_) (sb _)).2 fun k => ?_
  · exact (r.image_inj (lt_size_of_mem_successors hj).2 (lt_size_of_mem_successors hk).2).1
  · rw [List.mem_map]
    constructor
    · rintro ⟨j, hj, rfl⟩
      exact (links i j hi (lt_size_of_mem_successors hj).2).1 hj
    · intro hk
      have := links.back_mem_successors hk
      rw [r.back_image i hi] at this
      exact ⟨r.back k, this, r.image_back k (lt_size_of_mem_successors hk).2⟩

theorem transpose [LogWeight W] {a' b' : Automaton W} (ha : a.Mirrors a') (hb : b.Mirrors b')
    (wa : a'.WellFormed) (wb : b'.WellFormed) : (r.transpose ha hb wa wb).MapsLinks := by
  intro i j hi hj
  have h2 := wa.two_le_size
  have := links (mirror j) (mirror i) (ha.size_eq ▸ (mirror_lt h2).2 hj)
    (ha.size_eq ▸ (mirror_lt h2).2 hi)
  rw [← ha.mem_successors_iff, ← hb.mem_successors_iff, mirror_mirror, mirror_mirror] at this
  exact this

end MapsLinks

end Renaming

theorem Reduced.of_renaming {a b : Automaton W} (h : a.Reduced) (ha : 2 ≤ a.size)
    {r : Renaming a b} (links : r.MapsLinks) (hb : b.Single) : b.Reduced where
  reached i hi h1 := by
    have hne : r.back i ≠ 1 := fun he => h1 (by rw [← r.image_back i hi, he, r.final])
    obtain ⟨js, hp⟩ := reaches_iff_path.1 (h.reached _ (r.back_lt_size i hi) hne)
    have := links.reaches (Nat.lt_of_lt_of_le Nat.two_pos ha) hp
    rwa [r.init, r.image_back i hi] at this
  final := by
    refine List.eq_nil_iff_forall_not_mem.2 fun j hj => ?_
    have back_one : r.back 1 = 1 := (r.symm ha).final
    have := links.back_mem_successors hj
    rw [back_one, h.final] at this
    cases this
  single := hb
  distinct i j h2i h2j hi hj hs hn := by
    have two : ∀ {k}, 2 ≤ k → k < b.size → 2 ≤ r.back k := fun h2 hk =>
      (r.symm ha).two_le_image hk h2
    have symbols : a.symbolAt (r.back i) = a.symbolAt (r.back j) := by
      rw [← r.symbolAt _ (r.back_lt_size i hi), ← r.symbolAt _ (r.back_lt_size j hj),
        r.image_back i hi, r.image_back j hj, hs]
    have he := h.distinct _ _ (two h2i hi) (two h2j hj) (r.back_lt_size i hi)
      (r.back_lt_size j hj) symbols (links.back_predecessors hi hj hn)
    rw [← r.image_back i hi, he, r.image_back j hj]

variable [LogWeight W] {a b : Automaton W} {q : Nat → Nat}

namespace Merges

/-- States with one image are one state, from Init on. -/
theorem injective_of_reduced (h : a.Merges b q) (wa : a.WellFormed) (hc : a.Acyclic)
    (hr : a.Reduced) {i j : Nat} (hi : a.Reaches 0 i) (hj : a.Reaches 0 j) (he : q i = q j) :
    i = j := by
  have h0 : 0 < a.size := Nat.lt_of_lt_of_le Nat.two_pos wa.two_le_size
  have source : ∀ {n k}, k ∈ a.successors n → a.Reaches 0 n := by
    intro n k hk
    refine hr.reached n (lt_size_of_mem_successors hk).1 fun h1 => ?_
    rw [h1, hr.final] at hk
    cases hk
  refine hc.forward (P := fun i => ∀ j, a.Reaches 0 j → q i = q j → i = j)
    (fun i hi ih j hj he => ?_) hi j hj he
  have hi0 := h.eq_zero_iff hi
  have hj0 := h.eq_zero_iff hj
  have hi2 := h.two_le_iff hi
  have hj2 := h.two_le_iff hj
  by_cases h2 : 2 ≤ i
  · obtain ⟨hs, -, hk⟩ := (h.eq_iff i j (by omega) (by omega) hi hj).1 he
    refine hr.distinct i j h2 (by omega) (hi.lt_size h0) (hj.lt_size h0) hs fun n => ?_
    constructor
    · intro hin
      obtain ⟨p, hp, hjp, hqp⟩ := (hk (q n)).1 ⟨n, source hin, hin, rfl⟩
      rwa [ih n (source hin) hin p hp hqp.symm]
    · intro hjn
      obtain ⟨p, hp, hip, hqp⟩ := (hk (q n)).2 ⟨n, source hjn, hjn, rfl⟩
      rwa [← ih p hp hip n (source hjn) hqp]
  · omega

theorem filter_image_perm (h : a.Merges b q) (single : a.Single)
    (inj : ∀ i j, a.Reaches 0 i → a.Reaches 0 j → q i = q j → i = j) {i j : Nat} {v : W}
    (hi : a.Reaches 0 i) (hj : a.Reaches 0 j) (hv : (j, v) ∈ a.arcsFrom i) :
    (a.arcs.filter fun r => q r.src = q i ∧ q r.dest = q j).Perm [⟨i, j, v⟩] := by
  refine (List.perm_ext_iff_of_nodup (single.nodup_arcs.filter _) (List.nodup_singleton _)).2
    fun r => ?_
  rw [List.mem_filter, List.mem_singleton, decide_eq_true_iff]
  constructor
  · rintro ⟨hr, hs, hd⟩
    have hsrc : a.Reaches 0 r.src := (h.lt_size_iff _).1 (hs ▸ (h.lt_size_iff i).2 hi)
    have hdest : a.Reaches 0 r.dest := (h.lt_size_iff _).1 (hd ▸ (h.lt_size_iff j).2 hj)
    have hr := mem_arcs_iff.1 hr
    obtain ⟨src, dest, u⟩ := r
    obtain rfl := inj src i hsrc hi hs
    obtain rfl := inj dest j hdest hj hd
    exact congrArg (Arc.mk src dest) (single.weight_unique hr hv)
  · rintro rfl
    exact ⟨mem_arcs_iff.2 hv, rfl, rfl⟩

theorem mem_successors_image (h : a.Merges b q)
    (inj : ∀ i j, a.Reaches 0 i → a.Reaches 0 j → q i = q j → i = j) {i j : Nat}
    (hi : a.Reaches 0 i) (hj : a.Reaches 0 j) : q j ∈ b.successors (q i) ↔ j ∈ a.successors i := by
  refine ⟨fun hm => ?_, h.step hi⟩
  obtain ⟨i', j', hi', hj', hqi, hqj⟩ := (h.mem_successors_iff _ _).1 hm
  obtain rfl := inj i' i hi' hi hqi
  obtain rfl := inj j' j (hi'.step hj') hj hqj
  exact hj'

theorem mem_arcsFrom_image_iff (h : a.Merges b q) (single : a.Single)
    (unit : a.Weighted fun w => logSum [w] = w)
    (inj : ∀ i j, a.Reaches 0 i → a.Reaches 0 j → q i = q j → i = j) {i j : Nat} {w : W}
    (hi : a.Reaches 0 i) (hj : a.Reaches 0 j) :
    (q j, w) ∈ b.arcsFrom (q i) ↔ (j, w) ∈ a.arcsFrom i := by
  have weight : ∀ {u v}, (q j, u) ∈ b.arcsFrom (q i) → (j, v) ∈ a.arcsFrom i → u = v := by
    intro u v hu hv
    obtain ⟨ws, rfl, hws⟩ := h.weight _ _ _ hu
    have := hws.trans ((h.filter_image_perm single inj hi hj hv).map _)
    rw [List.map_singleton, List.perm_singleton] at this
    rw [this]
    exact unit i _ hv
  constructor
  · intro hw
    obtain ⟨v, hv⟩ := Automaton.mem_successors_iff.1
      ((h.mem_successors_image inj hi hj).1 (Automaton.mem_successors_iff.2 ⟨w, hw⟩))
    rwa [weight hw hv]
  · intro hw
    obtain ⟨v, hv⟩ := Automaton.mem_successors_iff.1
      (h.step hi (Automaton.mem_successors_iff.2 ⟨w, hw⟩))
    rwa [← weight hv hw]

/-- No state is dropped and no two are merged. Final may be out of reach. -/
structure Faithful (a : Automaton W) (q : Nat → Nat) : Prop where
  reached : ∀ i, i < a.size → i ≠ 1 → a.Reaches 0 i
  inj : ∀ i j, a.Reaches 0 i → a.Reaches 0 j → q i = q j → i = j

theorem faithful_of_reduced (h : a.Merges b q) (wa : a.WellFormed) (hc : a.Acyclic)
    (hr : a.Reduced) : Faithful a q :=
  ⟨hr.reached, fun _ _ hi hj => h.injective_of_reduced wa hc hr hi hj⟩

def toRenaming (h : a.Merges b q) (wa : a.WellFormed) (wb : b.WellFormed) (hq : Faithful a q)
    (p : Nat → Nat) (hp : ∀ k, 2 ≤ k → k < b.size → a.Reaches 0 (p k) ∧ 2 ≤ p k ∧ q (p k) = k) :
    Renaming a b where
  image i := if i = 1 then 1 else q i
  back k := if k < 2 then k else p k
  lt_size i hi := by
    split
    · exact wb.two_le_size
    · next h1 => exact (h.lt_size_iff i).2 (hq.reached i hi h1)
  back_lt_size k hk := by
    split
    · next h2 => exact Nat.lt_of_lt_of_le h2 wa.two_le_size
    · next h2 =>
      have h0 : 0 < a.size := Nat.lt_of_lt_of_le Nat.two_pos wa.two_le_size
      exact (hp k (Nat.le_of_not_lt h2) hk).1.lt_size h0
  back_image i hi := by
    by_cases h1 : i = 1
    · rw [if_pos h1, if_pos Nat.one_lt_two, h1]
    · have hr := hq.reached i hi h1
      have hz := h.eq_zero_iff hr
      have ht := h.two_le_iff hr
      rw [if_neg h1]
      split
      · omega
      · next h2 =>
        obtain ⟨hpr, -, he⟩ := hp (q i) (Nat.le_of_not_lt h2) ((h.lt_size_iff i).2 hr)
        exact hq.inj _ _ hpr hr he
  image_back k hk := by
    by_cases h2 : k < 2
    · rw [if_pos h2]
      split
      · next h1 => exact h1.symm
      · next h1 =>
        obtain rfl : k = 0 := by omega
        exact h.init
    · obtain ⟨-, hpk, he⟩ := hp k (Nat.le_of_not_lt h2) hk
      rw [if_neg h2, if_neg (by omega), he]
  init := h.init
  final := if_pos rfl
  symbolAt i hi := by
    split
    · next h1 => rw [h1, wa.symbolAt_one, wb.symbolAt_one]
    · next h1 => exact h.symbolAt i (hq.reached i hi h1)

theorem toRenaming_image (h : a.Merges b q) (wa : a.WellFormed) (wb : b.WellFormed)
    (hq : Faithful a q) {p : Nat → Nat}
    (hp : ∀ k, 2 ≤ k → k < b.size → a.Reaches 0 (p k) ∧ 2 ≤ p k ∧ q (p k) = k) {i : Nat}
    (hi : a.Reaches 0 i) : (h.toRenaming wa wb hq p hp).image i = q i := by
  change (if i = 1 then 1 else q i) = q i
  split
  · next h1 =>
    rw [h1] at hi ⊢
    exact (h.final hi).symm
  · rfl

theorem successors_one (h : a.Merges b q) (final : a.successors 1 = []) : b.successors 1 = [] := by
  refine List.eq_nil_iff_forall_not_mem.2 fun k hk => ?_
  obtain ⟨i, j, hi, hj, hq, -⟩ := (h.mem_successors_iff 1 k).1 hk
  rw [(h.eq_one_iff hi).1 hq, final] at hj
  cases hj

theorem one_not_mem (h : a.Merges b q) (h1 : ¬a.Reaches 0 1) (k : Nat) : 1 ∉ b.successors k := by
  intro hk
  obtain ⟨i, j, hi, hj, -, hq⟩ := (h.mem_successors_iff k 1).1 hk
  exact h1 ((h.eq_one_iff (hi.step hj)).1 hq ▸ hi.step hj)

theorem exists_renaming (h : a.Merges b q) (wa : a.WellFormed) (wb : b.WellFormed)
    (single : a.Single) (final : a.successors 1 = []) (hq : Faithful a q) :
    ∃ r : Renaming a b, r.MapsLinks ∧ (a.Weighted (fun w => logSum [w] = w) → r.MapsArcs) := by
  obtain ⟨p, hp⟩ := h.exists_section
  have image : ∀ {i}, a.Reaches 0 i → (h.toRenaming wa wb hq p hp).image i = q i :=
    h.toRenaming_image wa wb hq hp
  -- Final has no links on either side, and every other state is reached
  have reached_or_none : ∀ i j, i < a.size → j < a.size → (a.Reaches 0 i ∧ a.Reaches 0 j) ∨
      j ∉ a.successors i ∧ (h.toRenaming wa wb hq p hp).image j ∉
        b.successors ((h.toRenaming wa wb hq p hp).image i) := by
    intro i j hi hj
    by_cases h1 : i = 1
    · right
      subst h1
      rw [Renaming.final, final, h.successors_one final]
      exact ⟨List.not_mem_nil, List.not_mem_nil⟩
    have hir := hq.reached i hi h1
    by_cases hjr : a.Reaches 0 j
    · exact .inl ⟨hir, hjr⟩
    · right
      obtain rfl : j = 1 := by
        by_contra hne
        exact hjr (hq.reached j hj hne)
      rw [Renaming.final]
      exact ⟨fun hm => hjr (hir.step hm), h.one_not_mem hjr _⟩
  refine ⟨h.toRenaming wa wb hq p hp, fun i j hi hj => ?_, fun unit i j w hi hj => ?_⟩
  · rcases reached_or_none i j hi hj with ⟨hir, hjr⟩ | ⟨none, none'⟩
    · rw [image hir, image hjr, h.mem_successors_image hq.inj hir hjr]
    · exact iff_of_false none none'
  · rcases reached_or_none i j hi hj with ⟨hir, hjr⟩ | ⟨none, none'⟩
    · rw [image hir, image hjr, h.mem_arcsFrom_image_iff single unit hq.inj hir hjr]
    · exact iff_of_false (fun hw => none (Automaton.mem_successors_iff.2 ⟨w, hw⟩))
        fun hw => none' (Automaton.mem_successors_iff.2 ⟨w, hw⟩)

end Merges

-- ---------------------------------------------------------------------------
-- Rounds
-- ---------------------------------------------------------------------------

namespace Round

variable {l t m : Automaton W} {p : Nat → Nat}

theorem final_turn (h : Round a l t m b p q) (hc : a.Acyclic) : t.successors 1 = [] := by
  refine List.eq_nil_iff_forall_not_mem.2 fun j hj => h.left.zero_not_mem hc (mirror j) ?_
  exact (h.turn.opposite 1 j).1 hj

theorem final_right (h : Round a l t m b p q) (hc : a.Acyclic) : m.successors 1 = [] :=
  h.right.successors_one (h.final_turn hc)

/-- The second merge leaves an automaton that it would leave alone. -/
theorem reduced_right (h : Round a l t m b p q) (hc : a.Acyclic) : m.Reduced where
  reached _ hi h1 := h.right.reaches_of_lt hi h1
  final := h.final_right hc
  single := h.right.nodup
  distinct _ _ hi2 hj2 hi hj := h.right.reduced h.acyclic_turn hi2 hj2 hi hj

/-- If the round has taken no state away, its first merge has done so too. -/
theorem reduced_left (h : Round a l t m b p q) (wa : a.WellFormed) (hc : a.Acyclic)
    (hs : a.size ≤ b.size) : l.Reduced where
  reached _ hi h1 := h.left.reaches_of_lt hi h1
  final := by
    have hsize : t.size ≤ m.size := by
      rw [h.turn.size_eq, ← h.back.size_eq]
      exact Nat.le_trans (h.left.size_le wa) hs
    obtain ⟨reached, -⟩ := h.right.of_size_le h.wellFormed_turn hsize
    refine List.eq_nil_iff_forall_not_mem.2 fun j hj => ?_
    have ht : 0 ∈ t.successors (mirror j) := by
      rw [h.turn.opposite, mirror_mirror]
      exact hj
    have hj1 : mirror j ≠ 1 := fun he => by
      have : j = 0 := mirror_inj.1 he
      exact h.left.zero_not_mem hc 1 (this ▸ hj)
    have hr := reached _ (lt_size_of_mem_successors ht).1 hj1
    exact h.acyclic_turn.zero_not_mem hr ht
  single := h.left.nodup
  distinct _ _ hi2 hj2 hi hj := h.left.reduced hc hi2 hj2 hi hj

theorem reduced (h : Round a l t m b p q) (wa : a.WellFormed) (hc : a.Acyclic)
    (hs : a.size ≤ b.size) : b.Reduced := by
  have hsize : t.size ≤ m.size := by
    rw [h.turn.size_eq, ← h.back.size_eq]
    exact Nat.le_trans (h.left.size_le wa) hs
  obtain ⟨reached, inj⟩ := h.right.of_size_le h.wellFormed_turn hsize
  obtain ⟨r, links, -⟩ := h.right.exists_renaming h.wellFormed_turn h.wellFormed_right
    (h.turn.single h.left.nodup) (h.final_turn hc) ⟨reached, inj⟩
  exact (h.reduced_left wa hc hs).of_renaming h.wellFormed_left.two_le_size
    (links.transpose h.turn.mirrors.symm h.back.mirrors h.wellFormed_left h.wellFormed)
    (h.back.single h.right.nodup)

theorem exists_renaming (h : Round a l t m b p q) (wa : a.WellFormed) (hc : a.Acyclic)
    (ra : a.Reduced) {a' : Automaton W} (ha' : a.Mirrors a') (wa' : a'.WellFormed)
    (ra' : a'.Reduced) : ∃ r : Renaming a b, r.MapsLinks ∧
      (a.Weighted (fun w => logSum [w] = w) → t.Weighted (fun w => logSum [w] = w) →
        r.MapsArcs) := by
  obtain ⟨r, links, arcs⟩ := h.left.exists_renaming wa h.wellFormed_left ra.single ra.final
    (h.left.faithful_of_reduced wa hc ra)
  have turned := links.transpose ha' h.turn.mirrors wa' h.wellFormed_turn
  have rt : t.Reduced := ra'.of_renaming wa'.two_le_size turned (h.turn.single h.left.nodup)
  obtain ⟨s, links', arcs'⟩ := h.right.exists_renaming h.wellFormed_turn h.wellFormed_right
    rt.single rt.final (h.right.faithful_of_reduced h.wellFormed_turn h.acyclic_turn rt)
  have back := h.turn.mirrors.symm
  refine ⟨r.trans (s.transpose back h.back.mirrors h.wellFormed_left h.wellFormed),
    links.trans (links'.transpose back h.back.mirrors h.wellFormed_left h.wellFormed),
    fun unit unit' => (arcs unit).trans
      ((arcs' unit').transpose back h.back.mirrors h.wellFormed_left h.wellFormed)⟩

end Round

end LogAutomata.Automaton
