import LogAutomata.Proofs.Arcs
import Mathlib.Data.Fintype.EquivFin
import Mathlib.Data.List.Nodup
import Mathlib.Order.WellFounded

/-!
# Paths

The states that a walk enters form a path. Parallel links make different walks
and the same path, so everything that concerns spelling and reachability can be
said of paths. In an automaton without a reachable cycle, no path repeats a
state, and there is induction along paths in both directions.
-/

namespace LogAutomata.Automaton

variable {W : Type} {a : Automaton W}

inductive Path (a : Automaton W) : Nat → List Nat → Nat → Prop
  | nil (i : Nat) : Path a i [] i
  | cons {i j k : Nat} {js : List Nat} :
      j ∈ a.successors i → Path a j js k → Path a i (j :: js) k

-- ---------------------------------------------------------------------------
-- Paths in pieces
-- ---------------------------------------------------------------------------

theorem path_nil_iff {i k : Nat} : a.Path i [] k ↔ i = k := by
  constructor
  · rintro ⟨⟩
    rfl
  · rintro rfl
    exact .nil i

theorem path_cons_iff {i j k : Nat} {js : List Nat} :
    a.Path i (j :: js) k ↔ j ∈ a.successors i ∧ a.Path j js k := by
  constructor
  · rintro ⟨⟩
    exact ⟨‹_›, ‹_›⟩
  · rintro ⟨h, h'⟩
    exact .cons h h'

theorem Path.append {i j k : Nat} {js ks : List Nat} (h : a.Path i js j) (h' : a.Path j ks k) :
    a.Path i (js ++ ks) k := by
  induction h with
  | nil => exact h'
  | cons hj _ ih => exact .cons hj (ih h')

theorem Path.snoc {i j k : Nat} {js : List Nat} (h : a.Path i js j) (hk : k ∈ a.successors j) :
    a.Path i (js ++ [k]) k := h.append (.cons hk (.nil k))

theorem path_concat_iff {i k m : Nat} {js : List Nat} :
    a.Path i (js ++ [m]) k ↔ m = k ∧ ∃ j, a.Path i js j ∧ m ∈ a.successors j := by
  constructor
  · intro h
    induction js generalizing i with
    | nil =>
      obtain ⟨hm, h⟩ := path_cons_iff.1 h
      exact ⟨path_nil_iff.1 h, i, .nil i, hm⟩
    | cons j js ih =>
      obtain ⟨hj, h⟩ := path_cons_iff.1 h
      obtain ⟨rfl, n, hn, hm⟩ := ih h
      exact ⟨rfl, n, .cons hj hn, hm⟩
  · rintro ⟨rfl, j, h, hm⟩
    exact h.snoc hm

-- ---------------------------------------------------------------------------
-- Paths and walks
-- ---------------------------------------------------------------------------

theorem exists_arrival {i j : Nat} (h : j ∈ a.successors i) : ∃ n, a.arrival ⟨i, n⟩ = some j := by
  obtain ⟨l, hl, hj⟩ := List.mem_filterMap.1 h
  obtain ⟨n, hn⟩ := List.getElem?_of_mem hl
  exact ⟨n, by rw [arrival, linkAt, hn]; exact hj⟩

theorem mem_successors_of_arrival {i j n : Nat} (h : a.arrival ⟨i, n⟩ = some j) :
    j ∈ a.successors i := by
  obtain ⟨l, hl, hj⟩ := Option.bind_eq_some_iff.1 h
  exact List.mem_filterMap.2 ⟨l, List.mem_of_getElem? hl, hj⟩

theorem IsWalk.path {i k : Nat} {ps : List Place} (h : a.IsWalk i ps k) :
    a.Path i (a.entered ps) k := by
  induction h with
  | nil i => exact .nil i
  | cons hp _ ih =>
    rw [entered, List.filterMap_cons_some hp]
    exact .cons (mem_successors_of_arrival hp) ih

theorem Path.exists_walk {i k : Nat} {js : List Nat} (h : a.Path i js k) :
    ∃ ps, a.IsWalk i ps k ∧ a.entered ps = js := by
  induction h with
  | nil i => exact ⟨[], .nil i, rfl⟩
  | @cons i j k js hj _ ih =>
    obtain ⟨n, hn⟩ := exists_arrival hj
    obtain ⟨ps, hps, rfl⟩ := ih
    exact ⟨⟨i, n⟩ :: ps, .cons hn hps, List.filterMap_cons_some hn⟩

theorem length_entered {i k : Nat} {ps : List Place} (h : a.IsWalk i ps k) :
    (a.entered ps).length = ps.length := by
  induction h with
  | nil => rfl
  | cons hp _ ih =>
    rw [entered, List.filterMap_cons_some hp, List.length_cons, List.length_cons]
    exact congrArg (· + 1) ih

theorem reaches_iff_path {i k : Nat} : a.Reaches i k ↔ ∃ js, a.Path i js k := by
  constructor
  · rintro ⟨ps, h⟩
    exact ⟨_, h.path⟩
  · rintro ⟨js, h⟩
    obtain ⟨ps, h, -⟩ := h.exists_walk
    exact ⟨ps, h⟩

theorem Path.reaches {i k : Nat} {js : List Nat} (h : a.Path i js k) : a.Reaches i k :=
  reaches_iff_path.2 ⟨js, h⟩

theorem reaches_of_mem_successors {i j : Nat} (h : j ∈ a.successors i) : a.Reaches i j :=
  (Path.cons h (.nil j)).reaches

theorem Reaches.step {i j k : Nat} (h : a.Reaches i j) (hk : k ∈ a.successors j) :
    a.Reaches i k := h.trans (reaches_of_mem_successors hk)

theorem Reaches.eq_or_step {i k : Nat} (h : a.Reaches i k) :
    i = k ∨ ∃ j, a.Reaches i j ∧ k ∈ a.successors j := by
  obtain ⟨js, h⟩ := reaches_iff_path.1 h
  rcases List.eq_nil_or_concat js with rfl | ⟨js, m, rfl⟩
  · exact .inl (path_nil_iff.1 h)
  · rw [List.concat_eq_append] at h
    obtain ⟨rfl, j, hj, hm⟩ := path_concat_iff.1 h
    exact .inr ⟨j, hj.reaches, hm⟩

theorem Reaches.lt_size {i k : Nat} (h : a.Reaches i k) (hi : i < a.size) : k < a.size := by
  rcases h.eq_or_step with rfl | ⟨j, -, hk⟩
  · exact hi
  · exact (lt_size_of_mem_successors hk).2

theorem onCycle_iff {i : Nat} : a.OnCycle i ↔ ∃ j ∈ a.successors i, a.Reaches j i := by
  constructor
  · rintro ⟨p, ps, h⟩
    obtain ⟨hp, j, hj, h⟩ := isWalk_cons_iff.1 h
    rw [← hp] at h ⊢
    exact ⟨j, mem_successors_of_arrival hj, ps, h⟩
  · rintro ⟨j, hj, ps, h⟩
    obtain ⟨n, hn⟩ := exists_arrival hj
    exact ⟨⟨i, n⟩, ps, .cons hn h⟩

-- ---------------------------------------------------------------------------
-- Spelling
-- ---------------------------------------------------------------------------

def spell (a : Automaton W) (js : List Nat) : List Symbol :=
  (js.filter fun i => !isSentinel i).map a.symbolAt

theorem spell_append (js ks : List Nat) : a.spell (js ++ ks) = a.spell js ++ a.spell ks := by
  simp [spell]

theorem spell_cons_sentinel {i : Nat} (h : i < 2) (js : List Nat) :
    a.spell (i :: js) = a.spell js := by
  have hi : isSentinel i = true := decide_eq_true h
  simp [spell, hi]

theorem spell_cons_interior {i : Nat} (h : 2 ≤ i) (js : List Nat) :
    a.spell (i :: js) = a.symbolAt i :: a.spell js := by
  have hi : isSentinel i = false := decide_eq_false (Nat.not_lt.2 h)
  simp [spell, hi]

theorem spells_iff {s : List Symbol} : a.Spells s ↔ ∃ js, a.Path 0 js 1 ∧ a.spell js = s := by
  constructor
  · rintro ⟨ps, h, rfl⟩
    exact ⟨_, h.path, rfl⟩
  · rintro ⟨js, h, rfl⟩
    obtain ⟨ps, hw, rfl⟩ := h.exists_walk
    exact ⟨ps, hw, rfl⟩

-- ---------------------------------------------------------------------------
-- No reachable cycle
-- ---------------------------------------------------------------------------

theorem not_onCycle_of_rank {rank : Nat → Nat} (h : ∀ i, ∀ j ∈ a.successors i, rank i < rank j)
    (i : Nat) : ¬a.OnCycle i := by
  have along : ∀ {i j : Nat} {js : List Nat}, a.Path i js j → rank i ≤ rank j := by
    intro i j js hp
    induction hp with
    | nil i => exact Nat.le_refl _
    | cons hj _ ih => exact Nat.le_trans (Nat.le_of_lt (h _ _ hj)) ih
  intro hi
  obtain ⟨j, hj, hr⟩ := onCycle_iff.1 hi
  obtain ⟨js, hp⟩ := reaches_iff_path.1 hr
  exact Nat.lt_irrefl _ (Nat.lt_of_lt_of_le (h i j hj) (along hp))

theorem Acyclic.not_reaches (h : a.Acyclic) {i j : Nat} (hi : a.Reaches 0 i)
    (hj : j ∈ a.successors i) : ¬a.Reaches j i :=
  fun hr => h i hi (onCycle_iff.2 ⟨j, hj, hr⟩)

theorem Acyclic.zero_not_mem (h : a.Acyclic) {i : Nat} (hi : a.Reaches 0 i) :
    0 ∉ a.successors i := fun h0 => h.not_reaches hi h0 hi

theorem Path.reaches_mem {i j k : Nat} {js : List Nat} (h : a.Path i js k) (hj : j ∈ js) :
    ∃ m ∈ a.successors i, a.Reaches m j := by
  induction h with
  | nil => cases hj
  | @cons i m k js hm _ ih =>
    rcases List.mem_cons.1 hj with rfl | hj
    · exact ⟨j, hm, .refl a j⟩
    · obtain ⟨n, hn, hr⟩ := ih hj
      exact ⟨m, hm, (reaches_of_mem_successors hn).trans hr⟩

theorem Acyclic.path_nodup (h : a.Acyclic) {i k : Nat} {js : List Nat} (hi : a.Reaches 0 i)
    (hp : a.Path i js k) : (i :: js).Nodup := by
  induction hp with
  | nil => simp
  | @cons i j k js hj hp ih =>
    refine List.nodup_cons.2 ⟨fun hm => ?_, ih (hi.step hj)⟩
    obtain ⟨m, hm, hr⟩ := (Path.cons hj hp).reaches_mem hm
    exact h.not_reaches hi hm hr

theorem Path.lt_size {i j k : Nat} {js : List Nat} (h : a.Path i js k) (hj : j ∈ js) :
    j < a.size := by
  obtain ⟨m, hm, hr⟩ := h.reaches_mem hj
  exact hr.lt_size (lt_size_of_mem_successors hm).2

theorem Acyclic.path_length_lt (h : a.Acyclic) (h0 : 0 < a.size) {k : Nat} {js : List Nat}
    {i : Nat} (hi : a.Reaches 0 i) (hp : a.Path i js k) : js.length < a.size := by
  have hs : i :: js ⊆ List.range a.size := by
    intro j hj
    rcases List.mem_cons.1 hj with rfl | hj
    · exact List.mem_range.2 (hi.lt_size h0)
    · exact List.mem_range.2 (hp.lt_size hj)
  have := ((h.path_nodup hi hp).subperm hs).length_le
  rw [List.length_cons, List.length_range] at this
  exact this

def Before (a : Automaton W) (i j : Nat) : Prop := a.Reaches 0 i ∧ j ∈ a.successors i

theorem transGen_before {i j : Nat} (h : Relation.TransGen a.Before i j) :
    a.Reaches 0 i ∧ ∃ k ∈ a.successors i, a.Reaches k j := by
  induction h with
  | single h => exact ⟨h.1, _, h.2, .refl a _⟩
  | tail _ hk ih =>
    obtain ⟨hi, k, hk', hr⟩ := ih
    exact ⟨hi, k, hk', hr.step hk.2⟩

theorem Acyclic.irrefl (h : a.Acyclic) (i : Nat) : ¬Relation.TransGen a.Before i i := by
  intro ht
  obtain ⟨hi, j, hj, hr⟩ := transGen_before ht
  exact h.not_reaches hi hj hr

theorem Before.lt_size {i j : Nat} (h : a.Before i j) : i < a.size ∧ j < a.size :=
  lt_size_of_mem_successors h.2

/-- A relation between finitely many numbers that never leads back is well founded. -/
theorem wellFounded_of_bounded {n : Nat} {r : Nat → Nat → Prop}
    (hn : ∀ i j, r i j → i < n ∧ j < n) (hr : ∀ i, ¬Relation.TransGen r i i) : WellFounded r := by
  let t : Fin n → Fin n → Prop := fun i j => Relation.TransGen r i j
  have : IsTrans (Fin n) t := ⟨fun _ _ _ hij hjk => hij.trans hjk⟩
  have : Std.Irrefl t := ⟨fun i => hr i⟩
  have wf : WellFounded t := Finite.wellFounded_of_trans_of_irrefl t
  have acc : ∀ i : Fin n, Acc r i := by
    intro i
    induction i using wf.induction with
    | _ i ih => exact ⟨_, fun j hj => ih ⟨j, (hn _ _ hj).1⟩ (.single hj)⟩
  refine ⟨fun i => ⟨_, fun j hj => ?_⟩⟩
  exact acc ⟨j, (hn _ _ hj).1⟩

theorem Acyclic.before_wf (h : a.Acyclic) : WellFounded a.Before :=
  wellFounded_of_bounded (fun _ _ => Before.lt_size) h.irrefl

theorem Acyclic.after_wf (h : a.Acyclic) : WellFounded (fun i j => a.Before j i) :=
  wellFounded_of_bounded (fun _ _ hb => hb.lt_size.symm)
    fun i ht => h.irrefl i (Relation.transGen_swap.1 ht)

/-- From the predecessors of a state to the state. -/
theorem Acyclic.forward (h : a.Acyclic) {P : Nat → Prop}
    (step : ∀ i, a.Reaches 0 i → (∀ p, a.Reaches 0 p → i ∈ a.successors p → P p) → P i) {i : Nat}
    (hi : a.Reaches 0 i) : P i := by
  induction i using h.before_wf.induction with
  | _ i ih => exact step i hi fun p hp hs => ih p ⟨hp, hs⟩ hp

/-- From the successors of a state to the state. -/
theorem Acyclic.backward (h : a.Acyclic) {P : Nat → Prop}
    (step : ∀ i, a.Reaches 0 i → (∀ j ∈ a.successors i, P j) → P i) {i : Nat}
    (hi : a.Reaches 0 i) : P i := by
  induction i using h.after_wf.induction with
  | _ i ih => exact step i hi fun j hj => ih j ⟨hi, hj⟩ (hi.step hj)

-- ---------------------------------------------------------------------------
-- The same links
-- ---------------------------------------------------------------------------

/-- The states that Init reaches have the same links in `b` and the same symbols. -/
structure Retraces (a b : Automaton W) : Prop where
  symbolAt : ∀ i, b.symbolAt i = a.symbolAt i
  successors : ∀ i, a.Reaches 0 i → b.successors i = a.successors i

namespace Retraces

variable {b : Automaton W} (h : a.Retraces b)
include h

theorem path_iff {i k : Nat} {js : List Nat} (hi : a.Reaches 0 i) :
    b.Path i js k ↔ a.Path i js k := by
  induction js generalizing i with
  | nil => rw [path_nil_iff, path_nil_iff]
  | cons j js ih =>
    rw [path_cons_iff, path_cons_iff, h.successors i hi]
    exact and_congr_right fun hj => ih (hi.step hj)

theorem reaches_iff {i k : Nat} (hi : a.Reaches 0 i) : b.Reaches i k ↔ a.Reaches i k := by
  rw [reaches_iff_path, reaches_iff_path]
  exact exists_congr fun js => h.path_iff hi

theorem acyclic (ha : a.Acyclic) : b.Acyclic := by
  intro i hi hc
  have hi := (h.reaches_iff (.refl a 0)).1 hi
  obtain ⟨j, hj, hr⟩ := onCycle_iff.1 hc
  rw [h.successors i hi] at hj
  exact ha.not_reaches hi hj ((h.reaches_iff (hi.step hj)).1 hr)

theorem spells_iff (s : List Symbol) : b.Spells s ↔ a.Spells s := by
  have spell : b.spell = a.spell := by
    funext js
    exact List.map_congr_left fun i _ => h.symbolAt i
  rw [Automaton.spells_iff, Automaton.spells_iff, spell]
  exact exists_congr fun js => and_congr_left fun _ => h.path_iff (.refl a 0)

end Retraces

end LogAutomata.Automaton
