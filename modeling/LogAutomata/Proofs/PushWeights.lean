import LogAutomata.Proofs.Embed
import LogAutomata.Proofs.Ledger
import LogAutomata.Proofs.Walks

/-!
# What pushing weights does

The sweep visits all walks from Init, those with fewer links first, and ends
when there are none with so many links. What remains of a state's visits is the
last one; all links of the state get the weight of that walk in front of their
own, and states without visits lose their links.
-/

namespace LogAutomata.Automaton

variable {W : Type}

-- ---------------------------------------------------------------------------
-- The sweep
-- ---------------------------------------------------------------------------

/-- All walks from Init with fewer links than this, in the order of the sweep. -/
def visits (a : Automaton W) (n : Nat) : List (List Place × Nat) :=
  (List.range n).flatMap (a.walks 0)

theorem visits_succ (a : Automaton W) (n : Nat) : a.visits (n + 1) = a.visits n ++ a.walks 0 n := by
  rw [visits, List.range_succ, List.flatMap_append]
  simp [visits]

variable [LogWeight W] {a : Automaton W}

def noted (a : Automaton W) (v : List Place × Nat) : Nat × W := (v.2, a.walkWeight v.1)

def offsetsOf (a : Automaton W) (vs : List (List Place × Nat)) : Ledger Nat W :=
  (vs.map a.noted).foldl (fun l e => l.alter e.1 fun _ => e.2) #[]

theorem offsetsOf_append (a : Automaton W) (us vs : List (List Place × Nat)) :
    a.offsetsOf (us ++ vs) =
      (vs.map a.noted).foldl (fun l e => l.alter e.1 fun _ => e.2) (a.offsetsOf us) := by
  rw [offsetsOf, offsetsOf, List.map_append, List.foldl_append]

theorem lengthen_ok (ha : a.WellFormed) (n : Nat) :
    a.lengthen ((a.walks 0 n).map a.noted) = .ok ((a.walks 0 (n + 1)).map a.noted) := by
  have longer : (a.walks 0 (n + 1)).map a.noted = ((a.walks 0 n).map a.noted).flatMap fun e =>
      (a.arcsFrom e.1).map fun f => (f.1, e.2 + f.2) := by
    rw [walks, List.map_flatMap, List.flatMap_map]
    refine List.flatMap_congr fun v _ => ?_
    rw [extensions, List.map_map]
    conv_rhs => rw [← List.zipIdx_map_fst 0 (a.arcsFrom (a.noted v).1), List.map_map]
    refine List.map_congr_left fun x hx => ?_
    simp only [Function.comp, noted, walkWeight_concat ha hx]
  have links : ((a.walks 0 n).map a.noted).flatMap (fun e =>
      (a.linksFrom e.1).map fun l => (l.dest, e.2 + l.weight)) =
      ((a.walks 0 (n + 1)).map a.noted).map fun e => (.inner e.1, e.2) := by
    rw [longer, List.map_flatMap]
    refine List.flatMap_congr fun e _ => ?_
    rw [ha.linksFrom_eq, List.map_map, List.map_map]
    rfl
  unfold lengthen
  change List.mapM _ (((a.walks 0 n).map a.noted).flatMap fun e =>
      (a.linksFrom e.1).map fun l => (l.dest, e.2 + l.weight)) = _
  rw [links, mapM_map]
  conv_rhs => rw [← List.map_id ((a.walks 0 (n + 1)).map a.noted)]
  refine mapM_ok fun e he => ?_
  rw [longer] at he
  obtain ⟨f, -, he⟩ := List.mem_flatMap.1 he
  obtain ⟨g, hg, rfl⟩ := List.mem_map.1 he
  have ho : a.owned "push_weights" (.inner g.1) = .ok g.1 :=
    owned_eq_ok_iff.2 ⟨rfl, dest_lt_size hg⟩
  simp only [ho, ok_bind, pure_eq_ok, id]

theorem sweep_nil (n : Nat) (offsets : Ledger Nat W) : a.sweep n [] offsets = .ok offsets := by
  cases n <;> rfl

theorem sweep_ok (ha : a.WellFormed) (hc : a.Acyclic) {rounds n : Nat} (hn : n + rounds = a.size) :
    a.sweep rounds ((a.walks 0 n).map a.noted) (a.offsetsOf (a.visits n)) =
      .ok (a.offsetsOf (a.visits a.size)) := by
  induction rounds generalizing n with
  | zero =>
    obtain rfl : n = a.size := hn
    rw [hc.walks_eq_nil ha (Nat.le_refl _)]
    exact sweep_nil _ _
  | succ rounds ih =>
    have next := @ih (n + 1) (by rw [← hn, Nat.add_assoc, Nat.add_comm 1])
    rw [visits_succ, offsetsOf_append] at next
    cases hw : (a.walks 0 n).map a.noted with
    | nil =>
      -- no walk is that long, so the next round has nothing to do either
      have hnil : a.walks 0 (n + 1) = [] := by
        rw [walks, List.map_eq_nil_iff.1 hw]
        rfl
      rw [hw, hnil, List.map_nil, sweep_nil] at next
      rw [sweep_nil]
      exact next
    | cons e es =>
      rw [sweep, ← hw, lengthen_ok ha, ok_bind]
      · exact next
      · exact List.cons_ne_nil _ _

-- ---------------------------------------------------------------------------
-- The last visits
-- ---------------------------------------------------------------------------

theorem offsetsOf_concat (a : Automaton W) (vs : List (List Place × Nat)) (v : List Place × Nat) :
    a.offsetsOf (vs ++ [v]) = (a.offsetsOf vs).alter v.2 fun _ => a.walkWeight v.1 :=
  offsetsOf_append a vs [v]

theorem nodup_keys_offsetsOf (a : Automaton W) (vs : List (List Place × Nat)) :
    (a.offsetsOf vs).keys.Nodup := by
  induction vs using List.reverseRecOn with
  | nil => exact List.nodup_nil
  | append_singleton vs v ih =>
    rw [offsetsOf_concat]
    exact Ledger.nodup_keys_alter _ _ ih

theorem get?_offsetsOf (a : Automaton W) (vs : List (List Place × Nat)) (i : Nat) :
    (a.offsetsOf vs).get? i = (vs.filter (·.2 = i)).getLast?.map fun v => a.walkWeight v.1 := by
  induction vs using List.reverseRecOn with
  | nil => rfl
  | append_singleton vs v ih =>
    rw [offsetsOf_concat, List.filter_append]
    by_cases h : v.2 = i
    · subst h
      rw [Ledger.get?_alter_self]
      simp
    · rw [Ledger.get?_alter_of_ne _ _ h, ih]
      simp [h]

theorem mem_visits_iff (ha : a.WellFormed) (hc : a.Acyclic) {ps : List Place} {i : Nat} :
    (ps, i) ∈ a.visits a.size ↔ a.IsWalk 0 ps i := by
  rw [visits, List.mem_flatMap]
  constructor
  · rintro ⟨n, -, h⟩
    exact ((mem_walks_iff ha).1 h).1
  · intro h
    have hlt := hc.path_length_lt (Nat.lt_of_lt_of_le Nat.two_pos ha.two_le_size) (.refl a 0) h.path
    rw [length_entered h] at hlt
    exact ⟨ps.length, List.mem_range.2 hlt, (mem_walks_iff ha).2 ⟨h, rfl⟩⟩

/-- The weight of the last walk to `i`. -/
def offsetAt (a : Automaton W) (i : Nat) : W := ((a.offsetsOf (a.visits a.size)).get? i).getD 0

theorem offsetAt_eq (ha : a.WellFormed) (hc : a.Acyclic) {i : Nat} (hi : a.Reaches 0 i) :
    (a.offsetsOf (a.visits a.size)).get? i = some (a.offsetAt i) ∧
      ∃ ps, a.IsWalk 0 ps i ∧ a.offsetAt i = a.walkWeight ps := by
  obtain ⟨qs, hqs⟩ := hi
  have hq : (qs, i) ∈ (a.visits a.size).filter (·.2 = i) :=
    List.mem_filter.2 ⟨(mem_visits_iff ha hc).2 hqs, decide_eq_true rfl⟩
  have hv := List.getLast?_eq_some_getLast (List.ne_nil_of_mem hq)
  generalize List.getLast _ _ = v at hv
  obtain ⟨hm, he⟩ := List.mem_filter.1 (List.mem_of_getLast? hv)
  obtain ⟨ps, j⟩ := v
  obtain rfl : j = i := of_decide_eq_true he
  have hg := get?_offsetsOf a (a.visits a.size) j
  rw [hv, Option.map_some] at hg
  rw [offsetAt, hg]
  exact ⟨rfl, ps, (mem_visits_iff ha hc).1 hm, rfl⟩

theorem reaches_of_get? (ha : a.WellFormed) (hc : a.Acyclic) {i : Nat} {w : W}
    (h : (a.offsetsOf (a.visits a.size)).get? i = some w) : a.Reaches 0 i := by
  rw [get?_offsetsOf] at h
  obtain ⟨⟨ps, j⟩, hv, -⟩ := Option.map_eq_some_iff.1 h
  obtain ⟨hm, he⟩ := List.mem_filter.1 (List.mem_of_getLast? hv)
  obtain rfl : j = i := of_decide_eq_true he
  exact ⟨ps, (mem_visits_iff ha hc).1 hm⟩

-- ---------------------------------------------------------------------------
-- The result
-- ---------------------------------------------------------------------------

open Classical in
noncomputable def pushedFrom (a : Automaton W) (i : Nat) : List (Nat × W) :=
  if a.Reaches 0 i then (a.arcsFrom i).map fun e => (e.1, a.offsetAt i + e.2) else []

theorem pushedFrom_of_reaches {i : Nat} (h : a.Reaches 0 i) :
    a.pushedFrom i = (a.arcsFrom i).map fun e => (e.1, a.offsetAt i + e.2) := if_pos h

theorem pushedFrom_of_not_reaches {i : Nat} (h : ¬a.Reaches 0 i) : a.pushedFrom i = [] := if_neg h

section
variable (ha : a.WellFormed) (hc : a.Acyclic)
include ha hc

theorem exists_walk_of_mem_pushedFrom {i : Nat} {e : Nat × W} (he : e ∈ a.pushedFrom i) :
    ∃ ps, a.IsWalk 0 ps e.1 ∧ e.2 = a.walkWeight ps := by
  by_cases hi : a.Reaches 0 i
  · rw [pushedFrom_of_reaches hi] at he
    obtain ⟨f, hf, rfl⟩ := List.mem_map.1 he
    obtain ⟨-, ps, hw, hp⟩ := offsetAt_eq ha hc hi
    obtain ⟨k, hk⟩ := List.getElem?_of_mem hf
    have hz : (f, k) ∈ (a.arcsFrom i).zipIdx := List.mem_zipIdx_iff_getElem?.2 hk
    refine ⟨_, isWalk_concat_iff.2 ⟨hw, (arrival_eq_some_iff ha).2 ⟨f, hz, rfl⟩⟩, ?_⟩
    rw [hp, ← walkWeight_concat ha hz]
  · rw [pushedFrom_of_not_reaches hi] at he
    cases he

theorem mem_keys_of_mem_pushedFrom {i : Nat} {e : Nat × W} (he : e ∈ a.pushedFrom i) :
    i ∈ (a.offsetsOf (a.visits a.size)).keys ∧ i < a.size ∧ e.1 < a.size := by
  by_cases hi : a.Reaches 0 i
  · rw [pushedFrom_of_reaches hi] at he
    obtain ⟨f, hf, rfl⟩ := List.mem_map.1 he
    exact ⟨Ledger.mem_keys_iff.2 ⟨_, (offsetAt_eq ha hc hi).1⟩, src_lt_size hf,
      dest_lt_size (e := f) hf⟩
  · rw [pushedFrom_of_not_reaches hi] at he
    cases he

theorem pushWeights_eq : a.pushWeights =
    (a.carry (a.remap {} empty).1 (a.remap {} empty).1 "push_weights" (a.remap {} empty).2
      ((arcsOf (a.offsetsOf (a.visits a.size)).keys a.pushedFrom).map Arc.toLink)).map
        (a.remap {} empty).2.withArcs := by
  have swept : a.sweep a.size [(0, 0)] #[] = .ok (a.offsetsOf (a.visits a.size)) :=
    sweep_ok ha hc (n := 0) (Nat.zero_add a.size)
  have links : ((a.offsetsOf (a.visits a.size)).toList.flatMap fun e =>
      (a.linksFrom e.1).map fun l => (⟨.inner e.1, l.dest, e.2 + l.weight⟩ : Link W)) =
      (arcsOf (a.offsetsOf (a.visits a.size)).keys a.pushedFrom).map Arc.toLink := by
    rw [arcsOf, Ledger.keys, List.flatMap_map, List.map_flatMap]
    refine List.flatMap_congr fun e he => ?_
    have hg := (Ledger.mem_toList_iff (nodup_keys_offsetsOf a _)).1 he
    have hi := reaches_of_get? ha hc hg
    have ho : e.2 = a.offsetAt e.1 := Option.some.inj (hg.symm.trans (offsetAt_eq ha hc hi).1)
    rw [pushedFrom_of_reaches hi, ha.linksFrom_eq, List.map_map, List.map_map, List.map_map, ho]
    rfl
  rw [pushWeights, swept]
  change (a.carry _ _ _ _ ((a.offsetsOf (a.visits a.size)).toList.flatMap fun e =>
      (a.linksFrom e.1).map fun l => ⟨.inner e.1, l.dest, e.2 + l.weight⟩)).map _ = _
  rw [links]
  rfl

theorem pushWeights_ok
    (defined : ∀ ps i, a.IsWalk 0 ps i → isUndefined (a.walkWeight ps) = false) :
    ∃ b, a.pushWeights = .ok b ∧ a.Rebuilds b a.pushedFrom := by
  rw [pushWeights_eq ha hc]
  refine rebuild_ok ha (nodup_keys_offsetsOf a _) a.pushedFrom (fun i e he => ?_) "push_weights"
  obtain ⟨hk, hi, hj⟩ := mem_keys_of_mem_pushedFrom ha hc he
  obtain ⟨ps, hp, weight⟩ := exists_walk_of_mem_pushedFrom ha hc he
  exact ⟨hk, hi, hj, weight ▸ defined ps e.1 hp⟩

/-- Pushing is refused only for a walk whose weights have no sum. -/
theorem pushWeights_cases :
    (∃ ps i, a.IsWalk 0 ps i ∧ isUndefined (a.walkWeight ps) = true) ∧
        (∃ src dest, a.pushWeights = .error (.undefinedWeight src dest)) ∨
      ∃ b, a.pushWeights = .ok b ∧ a.Rebuilds b a.pushedFrom := by
  by_cases h : ∃ i, ∃ e ∈ a.pushedFrom i, isUndefined e.2 = true
  · obtain ⟨i, e, he, lost⟩ := h
    obtain ⟨ps, hp, weight⟩ := exists_walk_of_mem_pushedFrom ha hc he
    refine .inl ⟨⟨ps, e.1, hp, weight ▸ lost⟩, ?_⟩
    rw [pushWeights_eq ha hc]
    exact rebuild_undefined a (fun i _ e he => (mem_keys_of_mem_pushedFrom ha hc he).2)
      ⟨i, (mem_keys_of_mem_pushedFrom ha hc he).1, e, he, lost⟩ "push_weights"
  · right
    push Not at h
    rw [pushWeights_eq ha hc]
    refine rebuild_ok ha (nodup_keys_offsetsOf a _) a.pushedFrom (fun i e he => ?_) "push_weights"
    obtain ⟨hk, hi, hj⟩ := mem_keys_of_mem_pushedFrom ha hc he
    exact ⟨hk, hi, hj, eq_false_of_ne_true (h i e he)⟩

end

theorem Rebuilds.retraces_pushed {b : Automaton W} (h : a.Rebuilds b a.pushedFrom) :
    a.Retraces b where
  symbolAt := h.symbolAt
  successors i hi := by
    rw [successors_eq, successors_eq, h.arcsFrom, pushedFrom_of_reaches hi, List.map_map]
    rfl

end LogAutomata.Automaton
