import LogAutomata.Proofs.LeftMerge
import Mathlib.Order.Interval.Finset.Nat

/-!
# Paths of a merged automaton

A path from Init in the original has an image. In the other direction a path of
the merged automaton is followed backwards: merged states are entered from the
same images, so each link can be taken at whichever state the rest of the path
has been lifted to.
-/

namespace LogAutomata.Automaton.Merges

variable {W : Type} [LogWeight W] {a b : Automaton W} {q : Nat → Nat} (h : a.Merges b q)
include h

-- ---------------------------------------------------------------------------
-- Sentinels
-- ---------------------------------------------------------------------------

theorem eq_zero_iff {i : Nat} (hi : a.Reaches 0 i) : q i = 0 ↔ i = 0 := by
  rcases i with _ | _ | i
  · simp [h.init]
  · simp [h.final hi]
  · have := h.two_le (i + 2) hi (Nat.le_add_left 2 i)
    change q (i + 2) = 0 ↔ i + 2 = 0
    omega

theorem eq_one_iff {i : Nat} (hi : a.Reaches 0 i) : q i = 1 ↔ i = 1 := by
  rcases i with _ | _ | i
  · simp [h.init]
  · simp [h.final hi]
  · have := h.two_le (i + 2) hi (Nat.le_add_left 2 i)
    change q (i + 2) = 1 ↔ i + 2 = 1
    omega

theorem two_le_iff {i : Nat} (hi : a.Reaches 0 i) : 2 ≤ q i ↔ 2 ≤ i := by
  have h0 := h.eq_zero_iff hi
  have h1 := h.eq_one_iff hi
  omega

theorem spell_map {js : List Nat} (hjs : ∀ j ∈ js, a.Reaches 0 j) :
    b.spell (js.map q) = a.spell js := by
  induction js with
  | nil => rfl
  | cons j js ih =>
    have hj := hjs j List.mem_cons_self
    have ih := ih fun k hk => hjs k (List.mem_cons_of_mem _ hk)
    have two := h.two_le_iff hj
    rw [List.map_cons]
    rcases Nat.lt_or_ge j 2 with hlt | hge
    · rw [spell_cons_sentinel hlt, spell_cons_sentinel (by omega), ih]
    · rw [spell_cons_interior hge, spell_cons_interior (two.2 hge), ih, h.symbolAt j hj]

-- ---------------------------------------------------------------------------
-- Paths
-- ---------------------------------------------------------------------------

theorem step {i j : Nat} (hi : a.Reaches 0 i) (hj : j ∈ a.successors i) :
    q j ∈ b.successors (q i) := (h.mem_successors_iff _ _).2 ⟨i, j, hi, hj, rfl, rfl⟩

theorem path {i k : Nat} {js : List Nat} (hi : a.Reaches 0 i) (hp : a.Path i js k) :
    b.Path (q i) (js.map q) (q k) := by
  induction hp with
  | nil i => exact .nil _
  | cons hj _ ih => exact .cons (h.step hi hj) (ih (hi.step hj))

theorem reaches {i : Nat} (hi : a.Reaches 0 i) : b.Reaches 0 (q i) := by
  obtain ⟨js, hp⟩ := reaches_iff_path.1 hi
  have := h.path (.refl a 0) hp
  rw [h.init] at this
  exact this.reaches

theorem exists_image {k : Nat} (hk : k < b.size) (h1 : k ≠ 1) : ∃ i, a.Reaches 0 i ∧ q i = k := by
  rcases k with _ | _ | k
  · exact ⟨0, .refl a 0, h.init⟩
  · exact absurd rfl h1
  · exact h.onto (k + 2) (Nat.le_add_left 2 k) hk

theorem reaches_of_lt {k : Nat} (hk : k < b.size) (h1 : k ≠ 1) : b.Reaches 0 k := by
  obtain ⟨i, hi, rfl⟩ := h.exists_image hk h1
  exact h.reaches hi

theorem exists_of_reaches {k : Nat} (hk : b.Reaches 0 k) : ∃ i, a.Reaches 0 i ∧ q i = k := by
  rcases hk.eq_or_step with rfl | ⟨m, -, hk⟩
  · exact ⟨0, .refl a 0, h.init⟩
  · obtain ⟨i, j, hi, hj, -, rfl⟩ := (h.mem_successors_iff m k).1 hk
    exact ⟨j, hi.step hj, rfl⟩

theorem not_onCycle (k : Nat) : ¬b.OnCycle k := by
  obtain ⟨rank, hrank⟩ := h.ranked
  exact not_onCycle_of_rank hrank k

theorem zero_not_mem (ha : a.Acyclic) (k : Nat) : 0 ∉ b.successors k := by
  intro h0
  obtain ⟨i, j, hi, hj, -, he⟩ := (h.mem_successors_iff k 0).1 h0
  obtain rfl := (h.eq_zero_iff (hi.step hj)).1 he
  exact ha.zero_not_mem hi hj

theorem mem_successors_image_iff (ha : a.Acyclic) {j k : Nat} (hj : a.Reaches 0 j) :
    q j ∈ b.successors k ↔ ∃ i, a.Reaches 0 i ∧ j ∈ a.successors i ∧ q i = k := by
  rw [h.mem_successors_iff]
  constructor
  · rintro ⟨i, j', hi, hj', hk, he⟩
    have hrj' := hi.step hj'
    have h0' : j' ≠ 0 := fun h0 => ha.zero_not_mem hi (h0 ▸ hj')
    have h0 : j ≠ 0 := by
      rintro rfl
      rw [h.init] at he
      exact h0' ((h.eq_zero_iff hrj').1 he)
    exact (((h.eq_iff j' j h0' h0 hrj' hj).1 he).2.2 k).1 ⟨i, hi, hj', hk⟩
  · rintro ⟨i, hi, hj, rfl⟩
    exact ⟨i, j, hi, hj, rfl, rfl⟩

theorem lift (ha : a.Acyclic) {ks : List Nat} {j : Nat} (hj : a.Reaches 0 j)
    (hp : b.Path 0 ks (q j)) : ∃ js, a.Path 0 js j ∧ js.map q = ks := by
  induction ks using List.reverseRecOn generalizing j with
  | nil =>
    obtain rfl := (h.eq_zero_iff hj).1 (path_nil_iff.1 hp).symm
    exact ⟨[], .nil 0, rfl⟩
  | append_singleton ks m ih =>
    obtain ⟨rfl, k, hp, hm⟩ := path_concat_iff.1 hp
    obtain ⟨i, hi, hij, rfl⟩ := (h.mem_successors_image_iff ha hj).1 hm
    obtain ⟨js, hjs, rfl⟩ := ih hi hp
    refine ⟨js ++ [j], hjs.snoc hij, ?_⟩
    rw [List.map_append, List.map_singleton]

theorem spell_iff (ha : a.Acyclic) {j : Nat} (hj : a.Reaches 0 j) (s : List Symbol) :
    (∃ ks, b.Path 0 ks (q j) ∧ b.spell ks = s) ↔ ∃ js, a.Path 0 js j ∧ a.spell js = s := by
  have visited : ∀ {js : List Nat}, a.Path 0 js j → ∀ i ∈ js, a.Reaches 0 i := by
    intro js hp i hi
    obtain ⟨m, hm, hr⟩ := hp.reaches_mem hi
    exact (reaches_of_mem_successors hm).trans hr
  constructor
  · rintro ⟨ks, hp, rfl⟩
    obtain ⟨js, hjs, rfl⟩ := h.lift ha hj hp
    exact ⟨js, hjs, (h.spell_map (visited hjs)).symm⟩
  · rintro ⟨js, hp, rfl⟩
    have := h.path (.refl a 0) hp
    rw [h.init] at this
    exact ⟨_, this, h.spell_map (visited hp)⟩

theorem reaches_final_iff : b.Reaches 0 1 ↔ a.Reaches 0 1 := by
  constructor
  · intro hb
    obtain ⟨i, hi, he⟩ := h.exists_of_reaches hb
    exact (h.eq_one_iff hi).1 he ▸ hi
  · intro ha
    have := h.reaches ha
    rwa [h.final ha] at this

theorem spells_iff (ha : a.Acyclic) (s : List Symbol) : b.Spells s ↔ a.Spells s := by
  rw [Automaton.spells_iff, Automaton.spells_iff]
  by_cases h1 : a.Reaches 0 1
  · have := h.spell_iff ha h1 s
    rwa [h.final h1] at this
  · constructor
    · rintro ⟨js, hp, -⟩
      exact absurd (h.reaches_final_iff.1 hp.reaches) h1
    · rintro ⟨js, hp, -⟩
      exact absurd hp.reaches h1

-- ---------------------------------------------------------------------------
-- States
-- ---------------------------------------------------------------------------

theorem exists_section : ∃ p : Nat → Nat, ∀ k, 2 ≤ k → k < b.size →
    a.Reaches 0 (p k) ∧ 2 ≤ p k ∧ q (p k) = k := by
  have : ∀ k, ∃ i, 2 ≤ k → k < b.size → a.Reaches 0 i ∧ 2 ≤ i ∧ q i = k := by
    intro k
    by_cases hk : 2 ≤ k ∧ k < b.size
    · obtain ⟨i, hi, rfl⟩ := h.onto k hk.1 hk.2
      exact ⟨i, fun _ _ => ⟨hi, (h.two_le_iff hi).1 hk.1, rfl⟩⟩
    · exact ⟨0, fun h2 hlt => absurd ⟨h2, hlt⟩ hk⟩
  choose p hp using this
  exact ⟨p, hp⟩

omit [LogWeight W] h in
theorem card_section {p : Nat → Nat} (hp : ∀ k, 2 ≤ k → k < b.size →
    a.Reaches 0 (p k) ∧ 2 ≤ p k ∧ q (p k) = k) :
    ((Finset.Ico 2 b.size).image p).card = b.size - 2 := by
  rw [Finset.card_image_of_injOn, Nat.card_Ico]
  intro k hk m hm he
  obtain ⟨hk2, hk⟩ := Finset.mem_Ico.1 hk
  obtain ⟨hm2, hm⟩ := Finset.mem_Ico.1 hm
  rw [← (hp k hk2 hk).2.2, ← (hp m hm2 hm).2.2, he]

omit h in
theorem section_subset (ha : a.WellFormed) {p : Nat → Nat} (hp : ∀ k, 2 ≤ k → k < b.size →
    a.Reaches 0 (p k) ∧ 2 ≤ p k ∧ q (p k) = k) :
    (Finset.Ico 2 b.size).image p ⊆ Finset.Ico 2 a.size := by
  have h0 : 0 < a.size := Nat.lt_of_lt_of_le Nat.two_pos ha.two_le_size
  intro i hi
  obtain ⟨k, hk, rfl⟩ := Finset.mem_image.1 hi
  obtain ⟨h2, hlt⟩ := Finset.mem_Ico.1 hk
  obtain ⟨hr, hp2, -⟩ := hp k h2 hlt
  exact Finset.mem_Ico.2 ⟨hp2, hr.lt_size h0⟩

theorem size_le (ha : a.WellFormed) : b.size ≤ a.size := by
  obtain ⟨p, hp⟩ := h.exists_section
  have := Finset.card_le_card (section_subset ha hp)
  rw [card_section hp, Nat.card_Ico] at this
  have := ha.two_le_size
  omega

/-- A merge that takes no state away has merged none and dropped none. -/
theorem of_size_le (ha : a.WellFormed) (hs : a.size ≤ b.size) :
    (∀ i, i < a.size → i ≠ 1 → a.Reaches 0 i) ∧
      ∀ i j, a.Reaches 0 i → a.Reaches 0 j → q i = q j → i = j := by
  obtain ⟨p, hp⟩ := h.exists_section
  have onto : (Finset.Ico 2 b.size).image p = Finset.Ico 2 a.size := by
    refine Finset.eq_of_subset_of_card_le (section_subset ha hp) ?_
    rw [card_section hp, Nat.card_Ico]
    exact Nat.sub_le_sub_right hs 2
  have kept : ∀ i, 2 ≤ i → i < a.size → a.Reaches 0 i ∧ p (q i) = i := by
    intro i h2 hi
    have hm : i ∈ (Finset.Ico 2 b.size).image p := by
      rw [onto]
      exact Finset.mem_Ico.2 ⟨h2, hi⟩
    obtain ⟨k, hk, rfl⟩ := Finset.mem_image.1 hm
    obtain ⟨hk2, hk⟩ := Finset.mem_Ico.1 hk
    obtain ⟨hr, -, he⟩ := hp k hk2 hk
    exact ⟨hr, by rw [he]⟩
  have h0 : 0 < a.size := Nat.lt_of_lt_of_le Nat.two_pos ha.two_le_size
  refine ⟨fun i hi h1 => ?_, fun i j hi hj he => ?_⟩
  · rcases i with _ | _ | i
    · exact .refl a 0
    · exact absurd rfl h1
    · exact (kept (i + 2) (Nat.le_add_left 2 i) hi).1
  · have hi2 := h.two_le_iff hi
    have hj2 := h.two_le_iff hj
    have hi0 := h.eq_zero_iff hi
    have hj0 := h.eq_zero_iff hj
    by_cases h2 : 2 ≤ i
    · rw [← (kept i h2 (hi.lt_size h0)).2, he, (kept j (by omega) (hj.lt_size h0)).2]
    · omega

/-- Two states that have the same symbol and are entered from the same states are one. -/
theorem reduced (ha : a.Acyclic) {k m : Nat} (hk2 : 2 ≤ k) (hm2 : 2 ≤ m) (hk : k < b.size)
    (hm : m < b.size) (hs : b.symbolAt k = b.symbolAt m)
    (hp : ∀ n, k ∈ b.successors n ↔ m ∈ b.successors n) : k = m := by
  obtain ⟨i, hi, rfl⟩ := h.onto k hk2 hk
  obtain ⟨j, hj, rfl⟩ := h.onto m hm2 hm
  have hi2 := (h.two_le_iff hi).1 hk2
  have hj2 := (h.two_le_iff hj).1 hm2
  rw [h.symbolAt i hi, h.symbolAt j hj] at hs
  refine (h.eq_iff i j (by omega) (by omega) hi hj).2 ⟨hs, by omega, fun n => ?_⟩
  rw [← h.mem_successors_image_iff ha hi, ← h.mem_successors_image_iff ha hj]
  exact hp n

end LogAutomata.Automaton.Merges
