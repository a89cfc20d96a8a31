import LogAutomata.Proofs.Minimize
import LogAutomata.Proofs.Parts
import LogAutomata.Proofs.Sums

/-!
# Links that can be taken

Minimization merges states whatever the weights of their links, and a link of the
result can be taken as soon as one of the links that it stands for can be. What
counts are the weights after pushing: all links of a state are closed if its last
visit is impossible.
-/

namespace LogAutomata

-- ---------------------------------------------------------------------------
-- Finite sums
-- ---------------------------------------------------------------------------

namespace ExactWeight

theorem Proper.finite_iff {w : ExactWeight} (h : w.Proper) : w.Finite ↔ w ≠ impossible := by
  cases w with
  | impossible | finite x => simp [Finite]
  | _ => cases h

theorem finite_add_iff {v w : ExactWeight} : (v + w).Finite ↔ v.Finite ∧ w.Finite := by
  cases v <;> cases w <;> simp [add_eq, add, Finite]

theorem finite_sum_iff {ws : List ExactWeight} : ws.sum.Finite ↔ ∀ w ∈ ws, w.Finite := by
  induction ws with
  | nil => exact iff_of_true trivial (by simp)
  | cons w ws ih => rw [List.sum_cons, finite_add_iff, ih, List.forall_mem_cons]

theorem finite_logSum_iff {ws : List ExactWeight} (h : ∀ w ∈ ws, w.Proper) :
    (logSum ws).Finite ↔ ∃ w ∈ ws, w.Finite := by
  rw [finite_iff, mass_logSum h]
  constructor
  · rintro ⟨-, hpos⟩
    by_contra hnone
    have masses : ∀ m ∈ ws.map mass, m = 0 := by
      intro m hm
      obtain ⟨w, hw, rfl⟩ := List.mem_map.1 hm
      exact le_antisymm (not_lt.1 fun hm => hnone ⟨w, hw, finite_iff.2 ⟨h w hw, hm⟩⟩) w.mass_nonneg
    rw [List.sum_eq_zero masses] at hpos
    exact lt_irrefl 0 hpos
  · rintro ⟨w, hw, hf⟩
    exact ⟨proper_logSum h, lt_of_lt_of_le (finite_iff.1 hf).2 (mass_le_sum hw)⟩

theorem finite_sub_normalizer_iff {ws : List ExactWeight} (h : ∀ w ∈ ws, w.Proper)
    {w : ExactWeight} : (w - normalizer ws).Finite ↔ w.Finite := by
  obtain ⟨x, hx, -⟩ := normalizer_eq h
  rw [hx]
  exact finite_add_iff.trans (and_iff_left trivial)

end ExactWeight

namespace Automaton

open ExactWeight (Proper)

variable {a b c : Automaton ExactWeight}

theorem finite_walkWeight_iff {ps : List Place} :
    (a.walkWeight ps).Finite ↔ ∀ w ∈ a.weights ps, w.Finite := by
  rw [walkWeight_eq_sum, ExactWeight.finite_sum_iff]

-- ---------------------------------------------------------------------------
-- Open links
-- ---------------------------------------------------------------------------

def Open (a : Automaton ExactWeight) (i j : Nat) : Prop := ∃ w, (j, w) ∈ a.arcsFrom i ∧ w.Finite

theorem Open.mem_successors {i j : Nat} (h : a.Open i j) : j ∈ a.successors i := by
  obtain ⟨w, hw, -⟩ := h
  exact mem_successors_iff.2 ⟨w, hw⟩

theorem Open.exists_place (ha : a.WellFormed) {i j : Nat} (h : a.Open i j) :
    ∃ n, a.arrival ⟨i, n⟩ = some j ∧ ∀ w ∈ a.weights [⟨i, n⟩], w.Finite := by
  obtain ⟨w, hw, hf⟩ := h
  obtain ⟨n, hn⟩ := List.getElem?_of_mem hw
  have at_n : a.arcAt ⟨i, n⟩ = some (j, w) := hn
  refine ⟨n, ?_, ?_⟩
  · rw [ha.arrival_eq_map, at_n]
    rfl
  · simp [weights, ha.weight_eq_map, at_n, hf]

theorem open_of_place (ha : a.WellFormed) {p : Place} {j : Nat} (hp : a.arrival p = some j)
    (hf : ∀ w ∈ a.weights [p], w.Finite) : a.Open p.state j := by
  obtain ⟨⟨k, w⟩, hw, rfl⟩ := ha.arrival_iff_arcAt.1 hp
  refine ⟨w, List.mem_of_getElem? hw, hf w ?_⟩
  simp [weights, ha.weight_eq_map, hw]

theorem Transposes.open_iff (h : a.Transposes b) {i j : Nat} :
    b.Open i j ↔ a.Open (mirror j) (mirror i) := by
  refine exists_congr fun w => and_congr_left fun _ => ?_
  rw [← h.mem_arcsFrom_iff, mirror_mirror, mirror_mirror]

theorem Merges.open_iff {q : Nat → Nat} (h : a.Merges b q) (hw : a.Weighted Proper) {k m : Nat} :
    b.Open k m ↔ ∃ i j, a.Reaches 0 i ∧ a.Open i j ∧ q i = k ∧ q j = m := by
  have proper : ∀ ws : List ExactWeight, ws.Perm ((a.arcs.filter fun r =>
      q r.src = k ∧ q r.dest = m).map Arc.weight) → ∀ w ∈ ws, w.Proper := by
    intro ws hp w hm
    obtain ⟨r, hr, rfl⟩ := List.mem_map.1 (hp.mem_iff.1 hm)
    exact hw r.src _ (mem_arcs_iff.1 (List.mem_of_mem_filter hr))
  constructor
  · rintro ⟨w, hm, hf⟩
    obtain ⟨ws, rfl, hp⟩ := h.weight k m w hm
    obtain ⟨v, hv, hf⟩ := (ExactWeight.finite_logSum_iff (proper ws hp)).1 hf
    obtain ⟨r, hr, rfl⟩ := List.mem_map.1 (hp.mem_iff.1 hv)
    obtain ⟨hr, hq⟩ := List.mem_filter.1 hr
    obtain ⟨hk, hj⟩ := of_decide_eq_true hq
    have hi : a.Reaches 0 r.src := (h.lt_size_iff _).1 (hk ▸ src_lt_size hm)
    exact ⟨r.src, r.dest, hi, ⟨_, mem_arcs_iff.1 hr, hf⟩, hk, hj⟩
  · rintro ⟨i, j, hi, ⟨v, hv, hf⟩, rfl, rfl⟩
    obtain ⟨w, hm⟩ := Automaton.mem_successors_iff.1
      (h.step hi (Automaton.mem_successors_iff.2 ⟨v, hv⟩))
    obtain ⟨ws, rfl, hp⟩ := h.weight _ _ w hm
    refine ⟨_, hm, (ExactWeight.finite_logSum_iff (proper ws hp)).2 ⟨v, hp.mem_iff.2 ?_, hf⟩⟩
    exact List.mem_map.2 ⟨⟨i, j, v⟩, List.mem_filter.2 ⟨mem_arcs_iff.2 hv, by simp⟩, rfl⟩

theorem Rebuilds.open_normalized_iff (h : a.Rebuilds b a.normalizedFrom) (hw : a.Weighted Proper)
    {i j : Nat} : b.Open i j ↔ a.Open i j := by
  have proper : ∀ w ∈ (a.arcsFrom i).map Prod.snd, w.Proper := by
    intro w hm
    obtain ⟨e, he, rfl⟩ := List.mem_map.1 hm
    exact hw i e he
  constructor
  · rintro ⟨w, hm, hf⟩
    rw [h.arcsFrom] at hm
    obtain ⟨⟨k, v⟩, he, heq⟩ := List.mem_map.1 hm
    obtain ⟨rfl, rfl⟩ := Prod.mk.inj heq
    exact ⟨v, he, (ExactWeight.finite_sub_normalizer_iff proper).1 hf⟩
  · rintro ⟨v, hv, hf⟩
    refine ⟨_, ?_, (ExactWeight.finite_sub_normalizer_iff proper).2 hf⟩
    rw [h.arcsFrom]
    exact List.mem_map_of_mem hv

/-- A link that can still be taken when the last visit of its state is in front of it. -/
def Ready (a : Automaton ExactWeight) (i j : Nat) : Prop :=
  a.Reaches 0 i ∧ (a.offsetAt i).Finite ∧ a.Open i j

theorem Rebuilds.open_pushed_iff (h : a.Rebuilds b a.pushedFrom) {i j : Nat} :
    b.Open i j ↔ a.Ready i j := by
  constructor
  · rintro ⟨w, hm, hf⟩
    rw [h.arcsFrom] at hm
    by_cases hi : a.Reaches 0 i
    · rw [pushedFrom_of_reaches hi] at hm
      obtain ⟨⟨k, v⟩, he, heq⟩ := List.mem_map.1 hm
      obtain ⟨rfl, rfl⟩ := Prod.mk.inj heq
      obtain ⟨ho, hv⟩ := ExactWeight.finite_add_iff.1 hf
      exact ⟨hi, ho, v, he, hv⟩
    · rw [pushedFrom_of_not_reaches hi] at hm
      cases hm
  · rintro ⟨hi, ho, v, hv, hf⟩
    refine ⟨_, ?_, ExactWeight.finite_add_iff.2 ⟨ho, hf⟩⟩
    rw [h.arcsFrom, pushedFrom_of_reaches hi]
    exact List.mem_map_of_mem hv

-- ---------------------------------------------------------------------------
-- States that stand for others
-- ---------------------------------------------------------------------------

/-- `stands i k` tells that the state at `k` of `b` stands for the one at `i` of `a`,
among others perhaps. The links of `b` that can be taken are those that stand for a link
of which `ready` holds. -/
structure Covers (a b : Automaton ExactWeight) (ready stands : Nat → Nat → Prop) : Prop where
  reaches : ∀ i k, stands i k → a.Reaches 0 i
  unique : ∀ i k m, stands i k → stands i m → k = m
  init : ∀ i k, stands i k → (k = 0 ↔ i = 0)
  final : ∀ i k, stands i k → (k = 1 ↔ i = 1)
  symbolAt : ∀ i k, 2 ≤ i → stands i k → b.symbolAt k = a.symbolAt i
  exists_stands : ∀ i, a.Reaches 0 i → a.Reaches i 1 →
    ∃ k, stands i k ∧ b.Reaches 0 k ∧ b.Reaches k 1
  open_iff : ∀ k m, b.Open k m ↔ ∃ i j, stands i k ∧ stands j m ∧ ready i j

namespace Covers

variable {ready r s : Nat → Nat → Prop}

theorem comp (h : a.Covers b ready r) (h' : b.Covers c b.Open s) :
    a.Covers c ready (Relation.Comp r s) where
  reaches := by
    rintro i k ⟨n, hr, -⟩
    exact h.reaches i n hr
  unique := by
    rintro i k m ⟨n, hr, hs⟩ ⟨n', hr', hs'⟩
    obtain rfl := h.unique i n n' hr hr'
    exact h'.unique n k m hs hs'
  init := by
    rintro i k ⟨n, hr, hs⟩
    rw [h'.init n k hs, h.init i n hr]
  final := by
    rintro i k ⟨n, hr, hs⟩
    rw [h'.final n k hs, h.final i n hr]
  symbolAt := by
    rintro i k hi ⟨n, hr, hs⟩
    have h0 := h.init i n hr
    have h1 := h.final i n hr
    rw [h'.symbolAt n k (by omega) hs, h.symbolAt i n hi hr]
  exists_stands := by
    intro i hi hf
    obtain ⟨n, hr, hn, hnf⟩ := h.exists_stands i hi hf
    obtain ⟨k, hs, hk⟩ := h'.exists_stands n hn hnf
    exact ⟨k, ⟨n, hr, hs⟩, hk⟩
  open_iff := by
    intro k m
    rw [h'.open_iff]
    constructor
    · rintro ⟨n, n', hs, hs', ho⟩
      obtain ⟨i, j, hr, hr', hg⟩ := (h.open_iff n n').1 ho
      exact ⟨i, j, ⟨n, hr, hs⟩, ⟨n', hr', hs'⟩, hg⟩
    · rintro ⟨i, j, ⟨n, hr, hs⟩, ⟨n', hr', hs'⟩, hg⟩
      exact ⟨n, n', hs, hs', (h.open_iff n n').2 ⟨i, j, hr, hr', hg⟩⟩

end Covers

theorem Rebuilds.covers_pushed (h : a.Rebuilds b a.pushedFrom) :
    a.Covers b a.Ready fun i k => a.Reaches 0 i ∧ i = k where
  reaches _ _ h := h.1
  unique := by
    rintro i k m ⟨-, rfl⟩ ⟨-, rfl⟩
    rfl
  init := by
    rintro i k ⟨-, rfl⟩
    rfl
  final := by
    rintro i k ⟨-, rfl⟩
    rfl
  symbolAt := by
    rintro i k - ⟨-, rfl⟩
    exact h.symbolAt i
  exists_stands i hi hf :=
    ⟨i, ⟨hi, rfl⟩, (h.retraces_pushed.reaches_iff (.refl a 0)).2 hi,
      (h.retraces_pushed.reaches_iff hi).2 hf⟩
  open_iff k m := by
    rw [h.open_pushed_iff]
    constructor
    · intro hg
      exact ⟨k, m, ⟨hg.1, rfl⟩, ⟨hg.1.step hg.2.2.mem_successors, rfl⟩, hg⟩
    · rintro ⟨i, j, ⟨-, rfl⟩, ⟨-, rfl⟩, hg⟩
      exact hg

theorem Covers.normalize {ready r : Nat → Nat → Prop} (h : a.Covers b ready r)
    (hc : b.Rebuilds c b.normalizedFrom) (hw : b.Weighted Proper) : a.Covers c ready r where
  reaches := h.reaches
  unique := h.unique
  init := h.init
  final := h.final
  symbolAt i k hi hr := (hc.symbolAt k).trans (h.symbolAt i k hi hr)
  exists_stands i hi hf := by
    obtain ⟨k, hr, hk, hkf⟩ := h.exists_stands i hi hf
    exact ⟨k, hr, (hc.retraces_normalized.reaches_iff (.refl b 0)).2 hk,
      (hc.retraces_normalized.reaches_iff hk).2 hkf⟩
  open_iff k m := (hc.open_normalized_iff hw).trans (h.open_iff k m)

theorem Merges.reaches_one {q : Nat → Nat} (h : a.Merges b q) {i : Nat} (hi : a.Reaches 0 i)
    (hf : a.Reaches i 1) : b.Reaches (q i) 1 := by
  obtain ⟨js, hp⟩ := reaches_iff_path.1 hf
  have := (h.path hi hp).reaches
  rwa [h.final (hi.trans hf)] at this

def roundStands (a t : Automaton ExactWeight) (p q : Nat → Nat) (i k : Nat) : Prop :=
  a.Reaches 0 i ∧ t.Reaches 0 (mirror (p i)) ∧ mirror (q (mirror (p i))) = k

theorem Round.covers {l t m : Automaton ExactWeight} {p q : Nat → Nat} (h : Round a l t m b p q)
    (hw : a.Weighted Proper) : a.Covers b a.Open (roundStands a t p q) where
  reaches _ _ h := h.1
  unique := by
    rintro i k n ⟨-, -, rfl⟩ ⟨-, -, rfl⟩
    rfl
  init := by
    rintro i k ⟨hi, ht, rfl⟩
    rw [← h.left.eq_zero_iff hi, ← mirror_inj, mirror_mirror, mirror_zero, h.right.eq_one_iff ht,
      ← mirror_zero, mirror_inj]
  final := by
    rintro i k ⟨hi, ht, rfl⟩
    rw [← h.left.eq_one_iff hi, ← mirror_inj, mirror_mirror, mirror_one, h.right.eq_zero_iff ht,
      ← mirror_one, mirror_inj]
  symbolAt := by
    rintro i k h2 ⟨hi, ht, rfl⟩
    have hp := (h.left.two_le_iff hi).2 h2
    rw [mirror_of_le hp] at ht ⊢
    have hq := (h.right.two_le_iff ht).2 hp
    rw [mirror_of_le hq, h.back.symbolAt _ hq, h.right.symbolAt _ ht, h.turn.symbolAt _ hp,
      h.left.symbolAt i hi]
  exists_stands := by
    intro i hi hf
    have ht : t.Reaches 0 (mirror (p i)) := h.turn.opposite.reaches (h.left.reaches_one hi hf)
    have hm : m.Reaches (q (mirror (p i))) 1 :=
      h.right.reaches_one ht (h.turn.opposite.reaches (h.left.reaches hi))
    exact ⟨_, ⟨hi, ht, rfl⟩, h.back.opposite.reaches hm,
      h.back.opposite.reaches (h.right.reaches ht)⟩
  open_iff k n := by
    have turn : t.Weighted Proper :=
      h.turn.weighted (h.left.weighted ExactWeight.sumClosed_proper hw)
    rw [h.back.open_iff, h.right.open_iff turn]
    constructor
    · rintro ⟨i', j', hi', ho, hn, hk⟩
      obtain ⟨i, j, hi, hij, hpi, hpj⟩ := (h.left.open_iff hw).1 (h.turn.open_iff.1 ho)
      refine ⟨i, j, ⟨hi, ?_, ?_⟩, ⟨hi.step hij.mem_successors, ?_, ?_⟩, hij⟩
      · rw [hpi, mirror_mirror]
        exact hi'.step ho.mem_successors
      · rw [hpi, mirror_mirror, hk, mirror_mirror]
      · rwa [hpj, mirror_mirror]
      · rw [hpj, mirror_mirror, hn, mirror_mirror]
    · rintro ⟨i, j, ⟨hi, -, rfl⟩, ⟨-, ht, rfl⟩, hij⟩
      refine ⟨mirror (p j), mirror (p i), ht, h.turn.open_iff.2 ?_, ?_, ?_⟩
      · rw [mirror_mirror, mirror_mirror]
        exact (h.left.open_iff hw).2 ⟨i, j, hi, hij, rfl, rfl⟩
      · rw [mirror_mirror]
      · rw [mirror_mirror]

end Automaton

end LogAutomata
