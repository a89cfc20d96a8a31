import LogAutomata.Automaton.Built
import LogAutomata.Automaton.Isomorphism
import LogAutomata.Automaton.Lemmas
import LogAutomata.Automaton.Walk
import Mathlib.Data.List.Basic
import Mathlib.Data.List.Perm.Lattice

/-!
# Arcs

In a well-formed automaton a link is no more than the position at which it
starts, the position at which it arrives and its weight. `arcsFrom` shows the
links of one state in this way and `arcs` all of them; every operation is
described through them.
-/

namespace LogAutomata.Automaton

variable {W : Type}

def arcsOf (is : List Nat) (row : Nat → List (Nat × W)) : List (Arc W) :=
  is.flatMap fun i => (row i).map fun e => ⟨i, e.1, e.2⟩

def arcs (a : Automaton W) : List (Arc W) := arcsOf (List.range a.size) a.arcsFrom

theorem flatMap_states {α : Type} (a : Automaton W) (f : State W → List α) :
    a.states.toList.flatMap f =
      (List.range a.size).flatMap fun i => (a.states[i]?.map f).getD [] := by
  obtain ⟨⟨ss⟩, n⟩ := a
  simp only [size, List.size_toArray, List.getElem?_toArray]
  induction ss with
  | nil => rfl
  | cons s ss ih =>
    simp only [List.length_cons, List.range_succ_eq_map, List.flatMap_cons, List.flatMap_map, ih]
    simp

theorem links_eq_flatMap (a : Automaton W) :
    a.links = (List.range a.size).flatMap a.linksFrom := by
  rw [links, flatMap_states]
  refine List.flatMap_congr fun i _ => ?_
  unfold linksFrom
  cases a.states[i]? <;> rfl

theorem length_linksFrom_le (a : Automaton W) (i : Nat) : (a.linksFrom i).length ≤ a.arcCount := by
  by_cases hi : i < a.size
  · rw [arcCount, links_eq_flatMap, List.flatMap_def]
    have here := List.mem_map_of_mem (f := a.linksFrom) (List.mem_range.2 hi)
    exact (List.sublist_flatten_of_mem here).length_le
  · rw [linksFrom_eq_nil (Nat.not_lt.1 hi)]
    exact Nat.zero_le _

theorem mem_links_iff {a : Automaton W} {l : Link W} : l ∈ a.links ↔ ∃ i, l ∈ a.linksFrom i := by
  rw [links_eq_flatMap, List.mem_flatMap]
  refine exists_congr fun i => and_iff_right_of_imp fun hl => List.mem_range.2 ?_
  by_contra hi
  rw [linksFrom_eq_nil (Nat.le_of_not_lt hi)] at hl
  cases hl

-- ---------------------------------------------------------------------------
-- One state
-- ---------------------------------------------------------------------------

theorem successors_eq (a : Automaton W) (i : Nat) :
    a.successors i = (a.arcsFrom i).map Prod.fst := by
  rw [successors, arcsFrom, List.map_filterMap]
  refine List.filterMap_congr fun l _ => ?_
  cases a.position? l.dest <;> rfl

theorem lt_size_of_position? {a : Automaton W} {e : Endpoint} {i : Nat}
    (h : a.position? e = some i) : i < a.size := (position?_eq_some_iff.1 h).2

theorem dest_lt_size {a : Automaton W} {i : Nat} {e : Nat × W} (h : e ∈ a.arcsFrom i) :
    e.1 < a.size := by
  obtain ⟨l, -, h⟩ := List.mem_filterMap.1 h
  obtain ⟨j, hj, rfl⟩ := Option.map_eq_some_iff.1 h
  exact lt_size_of_position? hj

theorem arcsFrom_eq_nil {a : Automaton W} {i : Nat} (h : a.size ≤ i) : a.arcsFrom i = [] := by
  rw [arcsFrom, linksFrom_eq_nil h]
  rfl

theorem src_lt_size {a : Automaton W} {i : Nat} {e : Nat × W} (h : e ∈ a.arcsFrom i) :
    i < a.size := by
  refine Nat.lt_of_not_le fun hi => ?_
  rw [arcsFrom_eq_nil hi] at h
  cases h

def arcAt (a : Automaton W) (x : Place) : Option (Nat × W) := (a.arcsFrom x.state)[x.number]?

theorem arcAt_empty (x : Place) : (empty : Automaton W).arcAt x = none := by
  simp [arcAt, arcsFrom]

theorem state_lt_size {a : Automaton W} {x : Place} {e : Nat × W} (h : a.arcAt x = some e) :
    x.state < a.size := src_lt_size (List.mem_of_getElem? h)

theorem arcAt_dest_lt_size {a : Automaton W} {x : Place} {e : Nat × W}
    (h : a.arcAt x = some e) : e.1 < a.size := dest_lt_size (List.mem_of_getElem? h)

theorem mem_successors_iff {a : Automaton W} {i j : Nat} :
    j ∈ a.successors i ↔ ∃ w, (j, w) ∈ a.arcsFrom i := by
  rw [successors_eq, List.mem_map]
  constructor
  · rintro ⟨⟨k, w⟩, h, rfl⟩
    exact ⟨w, h⟩
  · rintro ⟨w, h⟩
    exact ⟨(j, w), h, rfl⟩

theorem lt_size_of_mem_successors {a : Automaton W} {i j : Nat} (h : j ∈ a.successors i) :
    i < a.size ∧ j < a.size := by
  obtain ⟨w, h⟩ := mem_successors_iff.1 h
  exact ⟨src_lt_size h, dest_lt_size h⟩

-- ---------------------------------------------------------------------------
-- All states
-- ---------------------------------------------------------------------------

theorem mem_arcsOf_iff {is : List Nat} {row : Nat → List (Nat × W)} {r : Arc W} :
    r ∈ arcsOf is row ↔ r.src ∈ is ∧ (r.dest, r.weight) ∈ row r.src := by
  rw [arcsOf, List.mem_flatMap]
  constructor
  · rintro ⟨i, hi, h⟩
    obtain ⟨e, he, rfl⟩ := List.mem_map.1 h
    exact ⟨hi, he⟩
  · rintro ⟨hi, h⟩
    exact ⟨r.src, hi, List.mem_map.2 ⟨_, h, rfl⟩⟩

theorem filter_src_arcsOf {is : List Nat} (hn : is.Nodup) (row : Nat → List (Nat × W)) (i : Nat) :
    ((arcsOf is row).filter (·.src == i)).map (fun r => (r.dest, r.weight)) =
      if i ∈ is then row i else [] := by
  induction is with
  | nil => rfl
  | cons k is ih =>
    obtain ⟨hk, hn⟩ := List.nodup_cons.1 hn
    rw [arcsOf, List.flatMap_cons, List.filter_append, List.map_append]
    change _ ++ ((arcsOf is row).filter (·.src == i)).map _ = _
    rw [ih hn]
    by_cases hki : k = i
    · subst hki
      simp [List.filter_map, Function.comp_def, hk]
    · simp [List.filter_map, Function.comp_def, hki, Ne.symm hki]

theorem mem_arcs_iff {a : Automaton W} {r : Arc W} :
    r ∈ a.arcs ↔ (r.dest, r.weight) ∈ a.arcsFrom r.src := by
  rw [arcs, mem_arcsOf_iff]
  exact ⟨And.right, fun h => ⟨List.mem_range.2 (src_lt_size h), h⟩⟩

theorem mem_successors_iff_mem_arcs {a : Automaton W} {i j : Nat} :
    j ∈ a.successors i ↔ ∃ w, ⟨i, j, w⟩ ∈ a.arcs :=
  mem_successors_iff.trans (exists_congr fun w => (mem_arcs_iff (r := ⟨i, j, w⟩)).symm)

theorem arcsFrom_withArcs {a : Automaton W} {arcs : List (Arc W)}
    (h : ∀ r ∈ arcs, r.src < a.size ∧ r.dest < a.size) (i : Nat) :
    (a.withArcs arcs).arcsFrom i =
      a.arcsFrom i ++ (arcs.filter (·.src == i)).map fun r => (r.dest, r.weight) := by
  rw [arcsFrom, arcsFrom, linksFrom_withArcs fun r hr => (h r hr).1, List.filterMap_append,
    List.filterMap_map]
  congr 1
  · simp
  · rw [← List.filterMap_eq_map']
    refine List.filterMap_congr fun r hr => ?_
    have := (h r (List.mem_of_mem_filter hr)).2
    simp [Arc.toLink, this]

-- ---------------------------------------------------------------------------
-- Rearranged arcs
-- ---------------------------------------------------------------------------

theorem flatMap_filter_perm {α κ : Type} [BEq κ] [LawfulBEq κ] {is : List κ} (hn : is.Nodup)
    {xs : List α} {f : α → κ} (hf : ∀ x ∈ xs, f x ∈ is) :
    (is.flatMap fun i => xs.filter (f · == i)).Perm xs := by
  induction is generalizing xs with
  | nil =>
    rw [List.eq_nil_iff_forall_not_mem.2 fun x hx => List.not_mem_nil (hf x hx)]
    exact .refl _
  | cons i is ih =>
    obtain ⟨hi, hn⟩ := List.nodup_cons.1 hn
    have rest : (is.flatMap fun j => xs.filter (f · == j)) =
        is.flatMap fun j => (xs.filter fun x => !(f x == i)).filter (f · == j) := by
      refine List.flatMap_congr fun j hj => ?_
      rw [List.filter_filter]
      refine List.filter_congr fun x _ => ?_
      rcases eq_or_ne (f x) j with rfl | hne
      · have : ¬f x = i := fun he => hi (he ▸ hj)
        simp [this]
      · simp [hne]
    rw [List.flatMap_cons, rest]
    refine (List.Perm.append_left _ (ih hn fun x hx => ?_)).trans
      (List.filter_append_perm (f · == i) xs)
    obtain ⟨hx, hne⟩ := List.mem_filter.1 hx
    refine (List.mem_cons.1 (hf x hx)).resolve_left fun he => ?_
    simp [he] at hne

theorem filter_src_arcs (a : Automaton W) (i : Nat) :
    (a.arcs.filter (·.src == i)).map (fun r => (r.dest, r.weight)) = a.arcsFrom i := by
  rw [arcs, filter_src_arcsOf List.nodup_range]
  split
  · rfl
  · next hi => rw [arcsFrom_eq_nil (Nat.not_lt.1 fun h => hi (List.mem_range.2 h))]

theorem arcs_perm {a : Automaton W} {rs : List (Arc W)} (h : ∀ i, a.arcsFrom i =
    (rs.filter (·.src == i)).map fun r => (r.dest, r.weight)) : a.arcs.Perm rs := by
  have rows : a.arcs = (List.range a.size).flatMap fun i => rs.filter (·.src == i) := by
    rw [arcs, arcsOf]
    refine List.flatMap_congr fun i _ => ?_
    rw [h, List.map_map]
    conv_rhs => rw [← List.map_id (rs.filter (·.src == i))]
    refine List.map_congr_left fun r hr => ?_
    rw [← beq_iff_eq.1 (List.mem_filter.1 hr).2]
    rfl
  rw [rows]
  refine flatMap_filter_perm List.nodup_range fun r hr => List.mem_range.2 ?_
  have hm : (r.dest, r.weight) ∈ a.arcsFrom r.src := by
    rw [h]
    exact List.mem_map.2 ⟨r, List.mem_filter.2 ⟨hr, beq_self_eq_true _⟩, rfl⟩
  exact src_lt_size hm

theorem arcs_eq_nil {a : Automaton W} (h : ∀ i, a.linksFrom i = []) : a.arcs = [] := by
  refine List.eq_nil_iff_forall_not_mem.2 fun r hr => ?_
  have := mem_arcs_iff.1 hr
  rw [arcsFrom, h] at this
  cases this

theorem arcs_withArcs_perm {a : Automaton W} {rs : List (Arc W)}
    (h : ∀ r ∈ rs, r.src < a.size ∧ r.dest < a.size) :
    (a.withArcs rs).arcs.Perm (a.arcs ++ rs) :=
  arcs_perm fun i => by
    rw [arcsFrom_withArcs h, List.filter_append, List.map_append, filter_src_arcs]

variable [LogWeight W]

namespace WellFormed

variable {a : Automaton W}

theorem linksFrom_eq (h : a.WellFormed) (i : Nat) :
    a.linksFrom i = (a.arcsFrom i).map fun e => ⟨.inner i, .inner e.1, e.2⟩ := by
  rw [arcsFrom, List.map_filterMap]
  refine ((List.filterMap_congr fun l hl => ?_).trans List.filterMap_some).symm
  obtain ⟨j, hj⟩ := Option.isSome_iff_exists.1 (h.owns_dest i l hl)
  obtain ⟨hd, -⟩ := position?_eq_some_iff.1 hj
  rw [hj, ← h.src_eq i l hl]
  obtain ⟨src, dest, w⟩ := l
  cases hd
  rfl

theorem links_eq (h : a.WellFormed) : a.links = a.arcs.map Arc.toLink := by
  rw [links_eq_flatMap, arcs, arcsOf, List.map_flatMap]
  refine List.flatMap_congr fun i _ => ?_
  rw [h.linksFrom_eq, List.map_map]
  rfl

theorem weight_defined (h : a.WellFormed) {i : Nat} {e : Nat × W} (he : e ∈ a.arcsFrom i) :
    isUndefined e.2 = false := by
  refine h.defined i ⟨.inner i, .inner e.1, e.2⟩ ?_
  rw [h.linksFrom_eq]
  exact List.mem_map.2 ⟨e, he, rfl⟩

theorem linkAt_eq (h : a.WellFormed) (i n : Nat) :
    a.linkAt ⟨i, n⟩ = (a.arcsFrom i)[n]?.map fun e => ⟨.inner i, .inner e.1, e.2⟩ := by
  rw [linkAt, h.linksFrom_eq, List.getElem?_map]

theorem arrival_eq (h : a.WellFormed) (i n : Nat) :
    a.arrival ⟨i, n⟩ = (a.arcsFrom i)[n]?.map Prod.fst := by
  rw [arrival, h.linkAt_eq]
  cases he : (a.arcsFrom i)[n]? with
  | none => rfl
  | some e =>
    have := dest_lt_size (List.mem_of_getElem? he)
    simp [this]

theorem arrival_eq_map (h : a.WellFormed) (x : Place) :
    a.arrival x = (a.arcAt x).map Prod.fst := h.arrival_eq x.state x.number

theorem arrival_iff_arcAt (h : a.WellFormed) {x : Place} {j : Nat} :
    a.arrival x = some j ↔ ∃ e, a.arcAt x = some e ∧ e.1 = j := by
  rw [h.arrival_eq_map, Option.map_eq_some_iff]

theorem weight_eq_map (h : a.WellFormed) (x : Place) :
    (a.linkAt x).map Link.weight = (a.arcAt x).map Prod.snd := by
  rw [h.linkAt_eq x.state x.number, Option.map_map]
  rfl

theorem two_le_size (h : a.WellFormed) : 2 ≤ a.size := by
  obtain ⟨s, hs, -⟩ := Option.map_eq_some_iff.1 h.final
  exact (Array.getElem?_eq_some_iff.1 hs).1

theorem symbolAt_zero (h : a.WellFormed) : a.symbolAt 0 = .nil := by
  obtain ⟨s, hs, hp⟩ := Option.map_eq_some_iff.1 h.init
  rw [symbolAt, hs]
  exact congrArg Profile.symbol hp

theorem symbolAt_one (h : a.WellFormed) : a.symbolAt 1 = .nil := by
  obtain ⟨s, hs, hp⟩ := Option.map_eq_some_iff.1 h.final
  rw [symbolAt, hs]
  exact congrArg Profile.symbol hp

end WellFormed

end LogAutomata.Automaton
