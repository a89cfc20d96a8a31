import LogAutomata.Proofs.Isomorphism
import Mathlib.Algebra.BigOperators.Group.Finset.Basic
import Mathlib.Algebra.GroupWithZero.Nat

/-!
# How paths go on

The number of ways in which a path from Init can be continued to Final depends
only on where it ends. So the paths to Final that pass a link at a given distance
from Init are counted by a product: the ways to get to the link times the ways to
go on behind it.
-/

namespace LogAutomata.Automaton

variable {W : Type} {a : Automaton W}

-- ---------------------------------------------------------------------------
-- Positions on a path
-- ---------------------------------------------------------------------------

theorem path_append_iff {i k : Nat} {js ks : List Nat} :
    a.Path i (js ++ ks) k ↔ ∃ j, a.Path i js j ∧ a.Path j ks k := by
  constructor
  · intro h
    induction js generalizing i with
    | nil => exact ⟨i, .nil i, h⟩
    | cons j js ih =>
      obtain ⟨hj, h⟩ := path_cons_iff.1 h
      obtain ⟨m, hm, h⟩ := ih h
      exact ⟨m, .cons hj hm, h⟩
  · rintro ⟨j, h, h'⟩
    exact h.append h'

theorem Path.unique {i j k : Nat} {js : List Nat} (h : a.Path i js j) (h' : a.Path i js k) :
    j = k := by
  induction h with
  | nil => exact path_nil_iff.1 h'
  | cons _ _ ih => exact ih (path_cons_iff.1 h').2

theorem Path.getElem?_length {i k : Nat} {js : List Nat} (h : a.Path i js k) :
    (i :: js)[js.length]? = some k := by
  induction h with
  | nil => rfl
  | cons _ _ ih => exact ih

theorem Path.take {i j k p : Nat} {js : List Nat} (h : a.Path i js k)
    (hj : (i :: js)[p]? = some j) : a.Path i (js.take p) j ∧ p ≤ js.length := by
  induction h generalizing p with
  | nil i =>
    cases p with
    | zero =>
      obtain rfl := Option.some.inj hj
      exact ⟨.nil i, Nat.le_refl 0⟩
    | succ p => cases hj
  | @cons i m k js hm _ ih =>
    cases p with
    | zero =>
      obtain rfl := Option.some.inj hj
      exact ⟨.nil i, Nat.zero_le _⟩
    | succ p =>
      obtain ⟨hp, hle⟩ := ih hj
      exact ⟨.cons hm hp, Nat.succ_le_succ hle⟩

-- ---------------------------------------------------------------------------
-- Continuations
-- ---------------------------------------------------------------------------

def continuations (paths : Finset (List Nat)) (js : List Nat) : Nat :=
  (paths.filter (js <+: ·)).card

variable {paths : Finset (List Nat)} (hpaths : ∀ js, js ∈ paths ↔ a.Path 0 js 1)
include hpaths

theorem exists_rest {i : Nat} {js ks : List Nat} (hp : a.Path 0 js i) (hk : ks ∈ paths)
    (h : js <+: ks) : ∃ ms, ks = js ++ ms ∧ a.Path i ms 1 := by
  obtain ⟨ms, rfl⟩ := h
  obtain ⟨j, hj, hm⟩ := path_append_iff.1 ((hpaths _).1 hk)
  obtain rfl := hj.unique hp
  exact ⟨ms, rfl, hm⟩

theorem continuations_final (final : a.successors 1 = []) {js : List Nat} (hp : a.Path 0 js 1) :
    continuations paths js = 1 := by
  refine Finset.card_eq_one.2 ⟨js, Finset.ext fun ks => ?_⟩
  rw [Finset.mem_filter, Finset.mem_singleton]
  constructor
  · rintro ⟨hk, h⟩
    obtain ⟨ms, rfl, hm⟩ := exists_rest hpaths hp hk h
    cases hm with
    | nil => exact List.append_nil js
    | cons hj =>
      rw [final] at hj
      cases hj
  · rintro rfl
    exact ⟨(hpaths _).2 hp, List.prefix_refl _⟩

theorem continuations_step {i : Nat} (hn : (a.successors i).Nodup) {js : List Nat}
    (hp : a.Path 0 js i) (h1 : i ≠ 1) : continuations paths js =
      ((a.successors i).map fun j => continuations paths (js ++ [j])).sum := by
  have next : ∀ ks ∈ paths.filter (js <+: ·), ∃ j ms, ks = js ++ j :: ms ∧ j ∈ a.successors i := by
    intro ks hk
    obtain ⟨hk, h⟩ := Finset.mem_filter.1 hk
    obtain ⟨ms, rfl, hm⟩ := exists_rest hpaths hp hk h
    cases hm with
    | nil => exact absurd rfl h1
    | cons hj => exact ⟨_, _, rfl, hj⟩
  have maps : ∀ ks ∈ paths.filter (js <+: ·),
      ks.getD js.length 0 ∈ (a.successors i).toFinset := by
    intro ks hk
    obtain ⟨j, ms, rfl, hj⟩ := next ks hk
    simpa using hj
  rw [continuations, Finset.card_eq_sum_card_fiberwise maps, ← List.sum_toFinset _ hn]
  refine Finset.sum_congr rfl fun j _ => ?_
  rw [continuations, Finset.filter_filter]
  refine congrArg Finset.card (Finset.filter_congr fun ks hk => ?_)
  constructor
  · rintro ⟨h, hj⟩
    obtain ⟨m, ms, rfl, -⟩ := next ks (Finset.mem_filter.2 ⟨hk, h⟩)
    obtain rfl : m = j := by simpa using hj
    exact ⟨ms, by simp⟩
  · rintro ⟨ms, rfl⟩
    exact ⟨⟨j :: ms, by simp⟩, by simp⟩

theorem continuations_eq (hc : a.Acyclic) (single : a.Single) (final : a.successors 1 = [])
    {i : Nat} {js ks : List Nat} (hj : a.Path 0 js i) (hk : a.Path 0 ks i) :
    continuations paths js = continuations paths ks := by
  refine hc.backward (P := fun i => ∀ js ks, a.Path 0 js i → a.Path 0 ks i →
    continuations paths js = continuations paths ks) (fun i _ ih js ks hj hk => ?_)
    hj.reaches js ks hj hk
  by_cases h1 : i = 1
  · subst h1
    rw [continuations_final hpaths final hj, continuations_final hpaths final hk]
  · rw [continuations_step hpaths (single i) hj h1, continuations_step hpaths (single i) hk h1]
    refine congrArg List.sum (List.map_congr_left fun m hm => ?_)
    exact ih m hm _ _ (hj.snoc hm) (hk.snoc hm)

theorem exists_continuations (hc : a.Acyclic) (single : a.Single) (final : a.successors 1 = []) :
    ∃ count : Nat → Nat, ∀ js i, a.Path 0 js i → continuations paths js = count i := by
  have each : ∀ i, ∃ n, ∀ js, a.Path 0 js i → continuations paths js = n := by
    intro i
    by_cases h : ∃ ks, a.Path 0 ks i
    · obtain ⟨ks, hk⟩ := h
      exact ⟨_, fun js hj => continuations_eq hpaths hc single final hj hk⟩
    · exact ⟨0, fun js hj => absurd ⟨js, hj⟩ h⟩
  choose count hcount using each
  exact ⟨count, fun js i hj => hcount i js hj⟩

/-- The paths that take the link from `i` to `j` after `p` steps: the ways to get there times
the ways to go on. -/
theorem card_taking {count : Nat → Nat}
    (hcount : ∀ js i, a.Path 0 js i → continuations paths js = count i) (p : Nat) {i j : Nat}
    (hj : j ∈ a.successors i) :
    (paths.filter fun js => (0 :: js)[p]? = some i ∧ js[p]? = some j).card =
      ((paths.filter fun js => (0 :: js)[p]? = some i).image (List.take p)).card * count j := by
  have maps : ∀ js ∈ paths.filter fun js => (0 :: js)[p]? = some i ∧ js[p]? = some j,
      js.take p ∈ (paths.filter fun js => (0 :: js)[p]? = some i).image (List.take p) := by
    intro js hjs
    obtain ⟨hjs, hi, -⟩ := Finset.mem_filter.1 hjs
    exact Finset.mem_image_of_mem _ (Finset.mem_filter.2 ⟨hjs, hi⟩)
  rw [Finset.card_eq_sum_card_fiberwise maps]
  refine Finset.sum_const_nat fun ks hk => ?_
  obtain ⟨ls, hls, rfl⟩ := Finset.mem_image.1 hk
  obtain ⟨hls, hi⟩ := Finset.mem_filter.1 hls
  obtain ⟨hp, hle⟩ := ((hpaths ls).1 hls).take hi
  have length : (ls.take p).length = p := List.length_take_of_le hle
  rw [← hcount _ _ (hp.snoc hj), continuations, Finset.filter_filter]
  refine congrArg Finset.card (Finset.filter_congr fun js _ => ?_)
  constructor
  · rintro ⟨⟨-, hj⟩, he⟩
    have : js.take (p + 1) = ls.take p ++ [j] := by
      rw [List.take_add_one, he, hj, Option.toList_some]
    rw [← this]
    exact List.take_prefix _ _
  · rintro ⟨ms, rfl⟩
    have start : (0 :: ls.take p)[p]? = some i := by
      have := hp.getElem?_length
      rwa [length] at this
    have taken : (ls.take p ++ [j] ++ ms).take p = ls.take p := by
      rw [List.append_assoc, List.take_append_of_le_length (Nat.le_of_eq length.symm),
        List.take_of_length_le (Nat.le_of_eq length)]
    refine ⟨⟨?_, ?_⟩, taken⟩
    · rw [List.append_assoc, ← List.cons_append, List.getElem?_append_left
        (by rw [List.length_cons, length]; exact Nat.lt_succ_self p), start]
    · rw [List.append_assoc, List.getElem?_append_right (Nat.le_of_eq length), length, Nat.sub_self]
      rfl

end LogAutomata.Automaton
