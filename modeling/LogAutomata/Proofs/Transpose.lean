import LogAutomata.Proofs.Embed
import LogAutomata.Proofs.Paths

/-!
# Transposition turns paths around

The transposed automaton has the same states in the same places, except that
the sentinels have swapped their parts. Its paths are the paths of the
original, backwards.
-/

namespace LogAutomata

namespace Automaton

/-- The place that has the part of this one after transposition. -/
def mirror : Nat → Nat
  | 0 => 1
  | 1 => 0
  | i + 2 => i + 2

@[simp] theorem mirror_zero : mirror 0 = 1 := rfl
@[simp] theorem mirror_one : mirror 1 = 0 := rfl

theorem mirror_of_le {i : Nat} (h : 2 ≤ i) : mirror i = i := by
  obtain ⟨i, rfl⟩ := Nat.exists_eq_add_of_le' h
  rfl

@[simp]
theorem mirror_mirror (i : Nat) : mirror (mirror i) = i := by
  rcases i with _ | _ | i <;> rfl

theorem mirror_inj {i j : Nat} : mirror i = mirror j ↔ i = j :=
  ⟨fun h => by rw [← mirror_mirror i, h, mirror_mirror], congrArg mirror⟩

theorem relocate_one_zero (i : Nat) : relocate 1 0 2 i = mirror i := by
  rcases i with _ | _ | i
  · rfl
  · rfl
  · exact Nat.add_comm 2 i

theorem mirror_lt {i n : Nat} (hn : 2 ≤ n) : mirror i < n ↔ i < n := by
  rcases i with _ | _ | i
  · exact ⟨fun _ => Nat.lt_of_lt_of_le Nat.two_pos hn, fun _ => hn⟩
  · exact ⟨fun _ => hn, fun _ => Nat.lt_of_lt_of_le Nat.two_pos hn⟩
  · rfl

end Automaton

def Arc.turned {W : Type} (r : Arc W) : Arc W :=
  ⟨Automaton.mirror r.dest, Automaton.mirror r.src, r.weight⟩

namespace Automaton

variable {W : Type}

structure Transposes (a b : Automaton W) : Prop where
  size_eq : b.size = a.size
  symbolAt : ∀ i, 2 ≤ i → b.symbolAt i = a.symbolAt i
  arcsFrom : ∀ i, b.arcsFrom (mirror i) =
    (a.arcs.filter (·.dest == i)).map fun r => (mirror r.src, r.weight)

theorem transpose_ok [LogWeight W] {a : Automaton W} (h : a.WellFormed) :
    ∃ b, a.transpose = .ok b ∧ b.WellFormed ∧ a.Transposes b := by
  have links : a.links.map Link.reverse =
      (a.arcs.map fun r => (⟨r.dest, r.src, r.weight⟩ : Arc W)).map Arc.toLink := by
    rw [h.links_eq, List.map_map, List.map_map]
    rfl
  obtain ⟨b, hb, he⟩ := carry_extends (a := a) .empty
    { init := .inner 1, final := .inner 0, keepIds := true } (fun _ => rfl) rfl rfl
    Nat.one_lt_two Nat.two_pos (a.arcs.map fun r => ⟨r.dest, r.src, r.weight⟩)
    (fun s hs => by
      obtain ⟨r, hr, rfl⟩ := List.mem_map.1 hs
      obtain ⟨h1, h2, h3⟩ := h.fits hr
      exact ⟨h2, h1, h3⟩) "transpose"
  refine ⟨b, ?_, he.wellFormed, ?_, fun i hi => ?_, fun i => ?_⟩
  · rw [transpose, links]
    exact hb
  · have := h.two_le_size
    rw [he.size_eq, size_empty]
    omega
  · obtain ⟨j, rfl⟩ := Nat.exists_eq_add_of_le hi
    have := he.symbolAt_add j
    rwa [size_empty, Nat.add_comm j 2] at this
  · rw [he.arcsFrom, arcsFrom, linksFrom_empty, List.map_map, List.filter_map, List.map_map,
      List.filterMap_nil, List.nil_append]
    have hf : a.arcs.filter ((fun s => s.src == mirror i) ∘
        Arc.move (relocate 1 0 (empty : Automaton W).size) ∘ fun r => ⟨r.dest, r.src, r.weight⟩) =
        a.arcs.filter (·.dest == i) := by
      refine List.filter_congr fun r _ => ?_
      simp only [Function.comp, Arc.move, size_empty, relocate_one_zero]
      rw [Bool.eq_iff_iff, beq_iff_eq, beq_iff_eq, mirror_inj]
    rw [hf]
    refine List.map_congr_left fun r _ => ?_
    simp only [Function.comp, Arc.move, size_empty, relocate_one_zero]

-- ---------------------------------------------------------------------------
-- Paths backwards
-- ---------------------------------------------------------------------------

def Opposite (a b : Automaton W) : Prop :=
  ∀ i j, j ∈ b.successors i ↔ mirror i ∈ a.successors (mirror j)

namespace Opposite

variable {a b : Automaton W}

theorem symm (h : a.Opposite b) : b.Opposite a := by
  intro i j
  rw [h, mirror_mirror, mirror_mirror]

theorem path (h : a.Opposite b) {i k : Nat} {js : List Nat} (hp : a.Path i js k) :
    ∃ ks, b.Path (mirror k) ks (mirror i) ∧
      mirror k :: ks = ((i :: js).map mirror).reverse := by
  induction hp with
  | nil i => exact ⟨[], .nil _, rfl⟩
  | @cons i j k js hj _ ih =>
    obtain ⟨ks, hks, he⟩ := ih
    refine ⟨ks ++ [mirror i], hks.snoc ((h _ _).2 ?_), ?_⟩
    · rwa [mirror_mirror, mirror_mirror]
    · rw [← List.cons_append, he]
      simp only [List.map_cons, List.reverse_cons]

theorem reaches (h : a.Opposite b) {i k : Nat} (hr : a.Reaches i k) :
    b.Reaches (mirror k) (mirror i) := by
  obtain ⟨js, hp⟩ := reaches_iff_path.1 hr
  obtain ⟨ks, hks, -⟩ := h.path hp
  exact hks.reaches

theorem onCycle (h : a.Opposite b) {i : Nat} (hc : a.OnCycle i) : b.OnCycle (mirror i) := by
  obtain ⟨j, hj, hr⟩ := onCycle_iff.1 hc
  obtain ⟨js, hp⟩ := reaches_iff_path.1 hr
  obtain ⟨ks, hks, he⟩ := h.path (.cons hj hp)
  cases ks with
  | nil => simpa using congrArg List.length he
  | cons k ks =>
    obtain ⟨hk, hks⟩ := path_cons_iff.1 hks
    exact onCycle_iff.2 ⟨k, hk, hks.reaches⟩

theorem not_onCycle (h : a.Opposite b) (ha : ∀ i, ¬a.OnCycle i) (i : Nat) : ¬b.OnCycle i :=
  fun hc => ha _ (h.symm.onCycle hc)

end Opposite

namespace Transposes

variable {a b : Automaton W}

theorem arcs_perm (h : a.Transposes b) : b.arcs.Perm (a.arcs.map Arc.turned) := by
  refine Automaton.arcs_perm fun i => ?_
  have hi : i = mirror (mirror i) := (mirror_mirror i).symm
  have turned : (fun r : Arc W => r.src == i) ∘ Arc.turned = fun r => r.dest == mirror i := by
    funext r
    rw [Bool.eq_iff_iff, Function.comp, beq_iff_eq, beq_iff_eq]
    change mirror r.dest = i ↔ _
    conv_lhs => rw [hi, mirror_inj]
  rw [List.filter_map, List.map_map, turned]
  conv_lhs => rw [hi, h.arcsFrom]
  rfl

theorem mem_arcsFrom_iff (h : a.Transposes b) {i j : Nat} {w : W} :
    (mirror j, w) ∈ b.arcsFrom (mirror i) ↔ (i, w) ∈ a.arcsFrom j := by
  rw [h.arcsFrom, List.mem_map]
  constructor
  · rintro ⟨r, hr, he⟩
    obtain ⟨hr, hd⟩ := List.mem_filter.1 hr
    obtain ⟨hj, rfl⟩ := Prod.mk.inj he
    rw [← mirror_inj.1 hj, ← beq_iff_eq.1 hd]
    exact mem_arcs_iff.1 hr
  · intro hm
    exact ⟨⟨j, i, w⟩, List.mem_filter.2 ⟨mem_arcs_iff.2 hm, beq_self_eq_true i⟩, rfl⟩

theorem opposite (h : a.Transposes b) : a.Opposite b := by
  intro i j
  rw [mem_successors_iff, mem_successors_iff]
  refine exists_congr fun w => ?_
  rw [← h.mem_arcsFrom_iff, mirror_mirror, mirror_mirror]

theorem spell_reverse (h : a.Transposes b) (js : List Nat) :
    b.spell (js.map mirror).reverse = (a.spell js).reverse := by
  induction js with
  | nil => rfl
  | cons i js ih =>
    rw [List.map_cons, List.reverse_cons, spell_append, ih]
    rcases Nat.lt_or_ge i 2 with hi | hi
    · have hm : mirror i < 2 := (mirror_lt (Nat.le_refl 2)).2 hi
      rw [spell_cons_sentinel hm, spell_cons_sentinel hi]
      exact List.append_nil _
    · rw [mirror_of_le hi, spell_cons_interior hi, spell_cons_interior hi, h.symbolAt i hi,
        List.reverse_cons]
      rfl

theorem spells_of (h : a.Transposes b) {s : List Symbol} (hs : a.Spells s) :
    b.Spells s.reverse := by
  obtain ⟨js, hp, rfl⟩ := spells_iff.1 hs
  obtain ⟨ks, hks, he⟩ := h.opposite.path hp
  refine spells_iff.2 ⟨ks, hks, ?_⟩
  rw [← spell_cons_sentinel (i := mirror 1) Nat.two_pos, he, h.spell_reverse,
    spell_cons_sentinel Nat.two_pos]

theorem of_spells (h : a.Transposes b) {s : List Symbol} (hs : b.Spells s) :
    a.Spells s.reverse := by
  obtain ⟨js, hp, rfl⟩ := spells_iff.1 hs
  obtain ⟨ks, hks, he⟩ := h.opposite.symm.path hp
  refine spells_iff.2 ⟨ks, hks, ?_⟩
  have he' : (mirror 1 :: ks).map mirror = (0 :: js).reverse := by
    rw [he, List.map_reverse, List.map_map]
    simp [Function.comp_def]
  have := h.spell_reverse (mirror 1 :: ks)
  rw [he', List.reverse_reverse, spell_cons_sentinel Nat.two_pos] at this
  rw [this, List.reverse_reverse, mirror_one, spell_cons_sentinel Nat.two_pos]

theorem spells_iff_reverse (h : a.Transposes b) (s : List Symbol) :
    b.Spells s ↔ a.Spells s.reverse := by
  refine ⟨h.of_spells, fun hs => ?_⟩
  rw [← List.reverse_reverse s]
  exact h.spells_of hs

end Transposes

end Automaton

end LogAutomata
