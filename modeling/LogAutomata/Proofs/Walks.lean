import LogAutomata.Proofs.Paths

/-!
# All walks of a length

The walks from a state, ordered by their places from the first on. Without a
reachable cycle there are none with as many links as there are states.
-/

namespace LogAutomata.Automaton

variable {W : Type}

def extensions (a : Automaton W) (v : List Place × Nat) : List (List Place × Nat) :=
  (a.arcsFrom v.2).zipIdx.map fun x => (v.1 ++ [⟨v.2, x.2⟩], x.1.1)

/-- The walks of this many links from `i`, each with the state where it ends. -/
def walks (a : Automaton W) (i : Nat) : Nat → List (List Place × Nat)
  | 0 => [([], i)]
  | n + 1 => (a.walks i n).flatMap a.extensions

theorem isWalk_concat_iff {a : Automaton W} {i k : Nat} {ps : List Place} {p : Place} :
    a.IsWalk i (ps ++ [p]) k ↔ a.IsWalk i ps p.state ∧ a.arrival p = some k := by
  induction ps generalizing i with
  | nil =>
    rw [List.nil_append, isWalk_cons_iff, isWalk_nil_iff]
    constructor
    · rintro ⟨rfl, j, hj, h⟩
      rw [isWalk_nil_iff.1 h] at hj
      exact ⟨rfl, hj⟩
    · rintro ⟨rfl, h⟩
      exact ⟨rfl, k, h, .nil k⟩
  | cons q qs ih =>
    rw [List.cons_append, isWalk_cons_iff, isWalk_cons_iff]
    constructor
    · rintro ⟨hq, j, hj, h⟩
      obtain ⟨h, hp⟩ := ih.1 h
      exact ⟨⟨hq, j, hj, h⟩, hp⟩
    · rintro ⟨⟨hq, j, hj, h⟩, hp⟩
      exact ⟨hq, j, hj, ih.2 ⟨h, hp⟩⟩

theorem nodup_walks (a : Automaton W) (i n : Nat) : ((a.walks i n).map Prod.fst).Nodup := by
  induction n with
  | zero => exact List.nodup_singleton _
  | succ n ih =>
    rw [walks, List.map_flatMap, List.nodup_flatMap]
    constructor
    · rintro ⟨ps, j⟩ -
      rw [extensions, List.map_map]
      have hk : (a.arcsFrom j).zipIdx.map
          (Prod.fst ∘ fun x : (Nat × W) × Nat => (ps ++ [(⟨j, x.2⟩ : Place)], x.1.1)) =
          (List.range' 0 (a.arcsFrom j).length).map fun k => ps ++ [⟨j, k⟩] := by
        rw [← List.zipIdx_map_snd, List.map_map]
        rfl
      rw [hk]
      refine (List.nodup_range' ..).map fun k k' h => ?_
      have := List.append_cancel_left h
      simpa using this
    · refine (List.pairwise_map.1 ih).imp ?_
      rintro ⟨ps, j⟩ ⟨qs, m⟩ hne
      refine fun x hx hx' => hne ?_
      obtain ⟨y, hy, rfl⟩ := List.mem_map.1 hx
      obtain ⟨⟨e, k⟩, -, rfl⟩ := List.mem_map.1 hy
      obtain ⟨z, hz, h⟩ := List.mem_map.1 hx'
      obtain ⟨⟨e', k'⟩, -, rfl⟩ := List.mem_map.1 hz
      exact (List.append_inj_left' h rfl).symm

section
variable [LogWeight W] {a : Automaton W} (ha : a.WellFormed)
include ha

theorem arrival_eq_some_iff {j k m : Nat} :
    a.arrival ⟨j, k⟩ = some m ↔ ∃ e, (e, k) ∈ (a.arcsFrom j).zipIdx ∧ e.1 = m := by
  rw [ha.arrival_eq, Option.map_eq_some_iff]
  refine exists_congr fun e => and_congr_left fun _ => ?_
  rw [List.mem_zipIdx_iff_getElem?]

theorem IsWalk.exists_arcAt {i j : Nat} {xs : List Place}
    (h : a.IsWalk i xs j) : ∀ x ∈ xs, ∃ e, a.arcAt x = some e := by
  induction h with
  | nil => simp
  | @cons i j k n rest hx _ ih =>
    refine List.forall_mem_cons.2 ⟨?_, ih⟩
    obtain ⟨e, he, -⟩ := ha.arrival_iff_arcAt.1 hx
    exact ⟨e, he⟩

theorem mem_walks_iff {i n : Nat} {ps : List Place} {j : Nat} :
    (ps, j) ∈ a.walks i n ↔ a.IsWalk i ps j ∧ ps.length = n := by
  induction n generalizing ps j with
  | zero =>
    rw [walks, List.mem_singleton, Prod.mk.injEq, List.length_eq_zero_iff]
    constructor
    · rintro ⟨rfl, rfl⟩
      exact ⟨.nil j, rfl⟩
    · rintro ⟨h, rfl⟩
      exact ⟨rfl, (isWalk_nil_iff.1 h).symm⟩
  | succ n ih =>
    rw [walks, List.mem_flatMap]
    constructor
    · rintro ⟨⟨qs, m⟩, hq, h⟩
      obtain ⟨⟨e, k⟩, he, h⟩ := List.mem_map.1 h
      obtain ⟨rfl, rfl⟩ := Prod.mk.inj h
      obtain ⟨hw, rfl⟩ := ih.1 hq
      refine ⟨isWalk_concat_iff.2 ⟨hw, (arrival_eq_some_iff ha).2 ⟨e, he, rfl⟩⟩, ?_⟩
      rw [List.length_append, List.length_singleton]
    · rintro ⟨h, hn⟩
      rcases List.eq_nil_or_concat ps with rfl | ⟨qs, p, rfl⟩
      · cases hn
      · rw [List.concat_eq_append] at h hn ⊢
        obtain ⟨hw, hp⟩ := isWalk_concat_iff.1 h
        obtain ⟨e, he, rfl⟩ := (arrival_eq_some_iff ha).1 hp
        refine ⟨(qs, p.state), ih.2 ⟨hw, ?_⟩, List.mem_map.2 ⟨(e, p.number), he, rfl⟩⟩
        rwa [List.length_append, List.length_singleton, Nat.succ.injEq] at hn

theorem Acyclic.walks_eq_nil (hc : a.Acyclic) {n : Nat} (hn : a.size ≤ n) : a.walks 0 n = [] := by
  rw [List.eq_nil_iff_forall_not_mem]
  rintro ⟨ps, j⟩ h
  obtain ⟨hw, rfl⟩ := (mem_walks_iff ha).1 h
  have := hc.path_length_lt (Nat.lt_of_lt_of_le Nat.two_pos ha.two_le_size) (.refl a 0) hw.path
  rw [length_entered hw] at this
  exact Nat.not_le.2 this hn

end

theorem walkWeight_concat_linkAt [Zero W] [Add W] {a : Automaton W} {p : Place} {l : Link W}
    (h : a.linkAt p = some l) (ps : List Place) :
    a.walkWeight (ps ++ [p]) = a.walkWeight ps + l.weight := by
  simp only [walkWeight, weights, List.filterMap_append, List.filterMap_cons, h, Option.map_some,
    List.filterMap_nil, List.foldl_append, List.foldl_cons, List.foldl_nil]

theorem walkWeight_concat [LogWeight W] {a : Automaton W} (ha : a.WellFormed) {ps : List Place}
    {j k : Nat} {e : Nat × W} (he : (e, k) ∈ (a.arcsFrom j).zipIdx) :
    a.walkWeight (ps ++ [⟨j, k⟩]) = a.walkWeight ps + e.2 := by
  have hl : a.linkAt ⟨j, k⟩ = some ⟨.inner j, .inner e.1, e.2⟩ := by
    rw [ha.linkAt_eq, List.mem_zipIdx_iff_getElem?.1 he]
    rfl
  exact walkWeight_concat_linkAt hl ps

end LogAutomata.Automaton
