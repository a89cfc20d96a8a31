import LogAutomata.Automaton.LeftMerge
import LogAutomata.Proofs.PrefixGraph
import LogAutomata.Proofs.TopologicalOrder

/-!
# Folding in topological order

When a state is folded all of its predecessors have been, so no node is missing.
Two folded states have the same node exactly if they have the same symbol, both or
neither are Final, and the nodes of their predecessors are the same. Parents
have smaller numbers than the nodes that are entered from them.
-/

namespace LogAutomata

variable {W : Type}

def Folding.num (f : Folding W) (i : Nat) : Nat := f.nodes[i]?.join.getD 0

namespace Automaton

-- ---------------------------------------------------------------------------
-- Arriving arcs
-- ---------------------------------------------------------------------------

def into (a : Automaton W) (order : List Nat) (i : Nat) : List (Arc W) :=
  (arcsOf order a.arcsFrom).filter (·.dest == i)

theorem mem_into_iff {a : Automaton W} {order : List Nat} {i : Nat} {r : Arc W} :
    r ∈ a.into order i ↔ r.src ∈ order ∧ (r.dest, r.weight) ∈ a.arcsFrom r.src ∧ r.dest = i := by
  rw [into, List.mem_filter, mem_arcsOf_iff, beq_iff_eq, and_assoc]

theorem incoming_eq [LogWeight W] {a : Automaton W} (ha : a.WellFormed) (order : List Nat) {i : Nat}
    (hi : i < a.size) : (a.incoming (order.flatMap a.linksFrom))[i]?.getD [] =
      (a.into order i).map Arc.toLink := by
  have links : order.flatMap a.linksFrom = (arcsOf order a.arcsFrom).map Arc.toLink := by
    rw [arcsOf, List.map_flatMap]
    refine List.flatMap_congr fun i _ => ?_
    rw [ha.linksFrom_eq, List.map_map]
    rfl
  rw [getElem?_incoming hi, Option.getD_some, links, List.filter_map, into]
  congr 1
  refine List.filter_congr fun r hr => ?_
  have hd := dest_lt_size (mem_arcsOf_iff.1 hr).2
  simp only at hd
  simp [Arc.toLink, hd]

def entries (a : Automaton W) (order : List Nat) (num : Nat → Nat) (i : Nat) : List (Int × W) :=
  (a.into order i).map fun r => ((num r.src : Int), r.weight)

def keyOf (a : Automaton W) (i : Nat) : NodeKey := ⟨a.symbolAt i, i == 1⟩

def parentsOf (a : Automaton W) (order : List Nat) (num : Nat → Nat) (i : Nat) : IntSet :=
  .ofList ((a.into order i).map fun r => (num r.src : Int))

theorem entries_congr {a : Automaton W} {order : List Nat} {c d : Nat → Nat} {i : Nat}
    (h : ∀ r ∈ a.into order i, c r.src = d r.src) :
    a.entries order c i = a.entries order d i :=
  List.map_congr_left fun r hr => by rw [h r hr]

theorem parentsOf_congr {a : Automaton W} {order : List Nat} {c d : Nat → Nat} {i : Nat}
    (h : ∀ r ∈ a.into order i, c r.src = d r.src) :
    a.parentsOf order c i = a.parentsOf order d i :=
  congrArg IntSet.ofList (List.map_congr_left fun r hr => by rw [h r hr])

theorem mem_parentsOf_iff {a : Automaton W} {order : List Nat} {num : Nat → Nat} {i : Nat}
    {x : Int} : x ∈ a.parentsOf order num i ↔ ∃ r ∈ a.into order i, (num r.src : Int) = x := by
  rw [parentsOf, IntSet.mem_ofList, List.mem_map]

-- ---------------------------------------------------------------------------
-- One state
-- ---------------------------------------------------------------------------

theorem nodeOf_ok {f : Folding W} {i n : Nat} (h : f.nodes[i]?.join = some n) :
    f.nodeOf (Endpoint.inner i).index = .ok n := by
  simp only [Endpoint.index, Folding.nodeOf, h, pure_eq_ok]

variable [LogWeight W]

/-- `g` is `f` with the state at `i` in the node `n`. -/
structure Puts (a : Automaton W) (order : List Nat) (i n : Nat) (f g : Folding W) : Prop where
  size_eq : g.nodes.size = f.nodes.size
  node : ∀ j, g.nodes[j]?.join = if j = i then some n else f.nodes[j]?.join
  inStep : g.graph.InStep
  grows : f.graph.Grows g.graph n (a.keyOf i) (a.parentsOf order f.num i)
  ledger : ∀ k, g.graph.ledger k = if k = n
    then PrefixGraph.record (f.graph.ledger k) (a.entries order f.num i)
    else f.graph.ledger k
  members : ∀ k x, x ∈ g.graph.members k ↔
    x ∈ f.graph.members k ∨ k = n ∧ x = i ∧ a.into order i ≠ []

theorem foldState_ok {a : Automaton W} {f : Folding W} {order : List Nat} {i : Nat}
    (inStep : f.graph.InStep) (hi : i < f.nodes.size)
    (folded : ∀ r ∈ a.into order i, f.nodes[r.src]?.join = some (f.num r.src)) :
    ∃ n g, a.foldState f i ((a.into order i).map Arc.toLink) = .ok g ∧ a.Puts order i n f g := by
  have parents : ((a.into order i).map Arc.toLink).mapM (fun l => f.nodeOf l.src.index) =
      .ok ((a.into order i).map fun r => (f.num r.src : Int)) := by
    rw [mapM_map]
    exact mapM_ok fun r hr => nodeOf_ok (folded r hr)
  have hg := PrefixGraph.node_grows inStep (a.keyOf i)
    ((a.into order i).map fun r => (f.num r.src : Int))
  have ht := inStep.node (a.keyOf i) ((a.into order i).map fun r => (f.num r.src : Int))
  have hl := f.graph.ledger_node (a.keyOf i)
    ((a.into order i).map fun r => (f.num r.src : Int))
  have hm := f.graph.members_node (a.keyOf i)
    ((a.into order i).map fun r => (f.num r.src : Int))
  cases hn : f.graph.node (a.keyOf i) ((a.into order i).map fun r => (f.num r.src : Int)) with
  | mk n grown =>
  rw [hn] at hg ht hl hm
  obtain ⟨g, h, table, ho, hl'⟩ := PrefixGraph.foldlM_add_ok (PrefixGraph.lt_size_of_outline hg.self) i
    (((a.into order i).map fun r => (f.num r.src : Int)).zip ((a.into order i).map Arc.toLink))
  refine ⟨n, ⟨g, f.nodes.setIfInBounds i (some n)⟩, ?_, ?_, fun j => ?_, ht.congr table ho,
    ⟨(ho _).trans hg.self, fun k hk => (ho k).trans (hg.of_ne k hk), hg.old_or_new⟩, fun k => ?_,
    fun k x => ?_⟩
  · rw [keyOf] at hn
    rw [foldState, parents, ok_bind, hn]
    simp only
    rw [h]
    rfl
  · exact Array.size_setIfInBounds
  · rw [Array.getElem?_setIfInBounds]
    by_cases hj : i = j
    · subst hj
      simp [hi]
    · simp [hj, Ne.symm hj]
  · rw [hl', hl]
    split
    · unfold entries
      congr 1
      rw [List.zip_map', List.map_map]
      rfl
    · rfl
  · rw [PrefixGraph.mem_members_foldlM_add (PrefixGraph.lt_size_of_outline hg.self) h, hm]
    simp [List.zip_map']

section
variable {a : Automaton W} {order : List Nat} {f g : Folding W} {i n : Nat}

theorem Puts.num_self (h : a.Puts order i n f g) : g.num i = n := by
  rw [Folding.num, h.node, if_pos rfl]
  rfl

theorem Puts.num_of_ne (h : a.Puts order i n f g) {j : Nat} (hj : j ≠ i) : g.num j = f.num j := by
  rw [Folding.num, h.node, if_neg hj]
  rfl

end

-- ---------------------------------------------------------------------------
-- All states
-- ---------------------------------------------------------------------------

/-- The states in `done` have been folded, after Init. -/
structure Folded (a : Automaton W) (order done : List Nat) (f : Folding W) : Prop where
  size_eq : f.nodes.size = a.size
  folded : ∀ i ∈ 0 :: done, f.nodes[i]?.join = some (f.num i)
  unfolded : ∀ i, i ∉ 0 :: done → f.nodes[i]?.join = none
  init : f.num 0 = 0
  inStep : f.graph.InStep
  root : f.graph.outline 0 = some (none, .empty)
  outline : ∀ i ∈ done,
    f.graph.outline (f.num i) = some (some (a.keyOf i), a.parentsOf order f.num i)
  onto : ∀ k, 0 < k → k < f.graph.size → ∃ i ∈ done, f.num i = k
  distinct : f.graph.Distinct
  behind : ∀ i ∈ done, ∀ r ∈ a.into order i, r.src ∈ 0 :: done
  descend : ∀ i ∈ done, ∀ r ∈ a.into order i, f.num r.src < f.num i
  ledger : ∀ k, f.graph.ledger k =
    tally (done.flatMap fun i => if f.num i = k then a.entries order f.num i else [])
  members : ∀ k x, x ∈ f.graph.members k ↔
    ∃ i ∈ done, (i : Int) = x ∧ f.num i = k ∧ a.into order i ≠ []

theorem folded_start {a : Automaton W} (ha : a.WellFormed) (order : List Nat) :
    a.Folded order [] ⟨.root, (Array.replicate a.size none).setIfInBounds 0 (some 0)⟩ := by
  have h0 : 0 < a.size := Nat.lt_of_lt_of_le Nat.two_pos ha.two_le_size
  have hnum : ((Array.replicate a.size (none : Option Nat)).setIfInBounds 0 (some 0))[0]?.join =
      some 0 := by
    simp [h0]
  constructor
  · simp
  · intro i hi
    obtain rfl : i = 0 := by simpa using hi
    simp only [Folding.num, hnum, Option.getD_some]
  · intro i hi
    have hi : ¬i = 0 := by simpa using hi
    rw [Array.getElem?_setIfInBounds_ne (Ne.symm hi), Array.getElem?_replicate]
    split <;> rfl
  · simp only [Folding.num, hnum, Option.getD_some]
  · exact PrefixGraph.inStep_root
  · rfl
  · exact fun i hi => absurd hi List.not_mem_nil
  · intro k hk hk'
    exact absurd hk' (Nat.not_lt.2 hk)
  · intro k m o hk hm
    have h1 : k < 1 := PrefixGraph.lt_size_of_outline hk
    have h2 : m < 1 := PrefixGraph.lt_size_of_outline hm
    omega
  · exact fun i hi => absurd hi List.not_mem_nil
  · exact fun i hi => absurd hi List.not_mem_nil
  · intro k
    rcases k with _ | k <;> rfl
  · intro k x
    rcases k with _ | k <;> simp [PrefixGraph.members, PrefixGraph.root, IntSet.empty, IntSet.mem_def]

section
variable {a : Automaton W} {order done : List Nat} {f g : Folding W} {i n : Nat}

theorem Folded.num_lt_size (h : a.Folded order done f) (hi : i ∈ 0 :: done) :
    f.num i < f.graph.size := by
  rcases List.mem_cons.1 hi with rfl | hi
  · rw [h.init]
    exact PrefixGraph.lt_size_of_outline h.root
  · exact PrefixGraph.lt_size_of_outline (h.outline i hi)

theorem Folded.descend_self (h : a.Folded order done f) (hp : a.Puts order i n f g)
    (behind : ∀ r ∈ a.into order i, r.src ∈ 0 :: done) {r : Arc W} (hr : r ∈ a.into order i) :
    f.num r.src < n := by
  rcases hp.grows.old_or_new with ho | ⟨rfl, -⟩
  · have hn : n ≠ 0 := by
      rintro rfl
      exact nomatch ho.symm.trans h.root
    obtain ⟨j, hj, rfl⟩ := h.onto n (Nat.pos_of_ne_zero hn) (PrefixGraph.lt_size_of_outline ho)
    have he := Option.some.inj ((h.outline j hj).symm.trans ho)
    have hm : (f.num r.src : Int) ∈ a.parentsOf order f.num j := by
      rw [(Prod.mk.inj he).2]
      exact mem_parentsOf_iff.2 ⟨r, hr, rfl⟩
    obtain ⟨s, hs, hse⟩ := mem_parentsOf_iff.1 hm
    rw [← Int.ofNat_inj.1 hse]
    exact h.descend j hj s hs
  · exact h.num_lt_size (behind r hr)

theorem Folded.num_kept (hp : a.Puts order i n f g) (hi : i ∉ 0 :: done) {j : Nat}
    (hj : j ∈ 0 :: done) : g.num j = f.num j :=
  hp.num_of_ne fun he => hi (he ▸ hj)

theorem mem_concat_cases {j : Nat} (h : j ∈ done ++ [i]) : j ∈ done ∨ j = i := by
  rwa [List.mem_append, List.mem_singleton] at h

theorem Folded.behind_put (h : a.Folded order done f)
    (behind : ∀ r ∈ a.into order i, r.src ∈ 0 :: done) {j : Nat} (hj : j ∈ done ++ [i]) :
    ∀ r ∈ a.into order j, r.src ∈ 0 :: done := by
  rcases mem_concat_cases hj with hj | rfl
  · exact h.behind j hj
  · exact behind

theorem Folded.ledger_put (h : a.Folded order done f) (hp : a.Puts order i n f g)
    (hi : i ∉ 0 :: done) (behind : ∀ r ∈ a.into order i, r.src ∈ 0 :: done) (k : Nat) :
    g.graph.ledger k = tally ((done ++ [i]).flatMap fun j =>
      if g.num j = k then a.entries order g.num j else []) := by
  have same : ∀ j ∈ done ++ [i], ∀ r ∈ a.into order j, f.num r.src = g.num r.src :=
    fun j hj r hr => (num_kept hp hi (h.behind_put behind hj r hr)).symm
  have last : i ∈ done ++ [i] := List.mem_append_right _ (List.mem_singleton.2 rfl)
  have old : (done.flatMap fun j => if g.num j = k then a.entries order g.num j else []) =
      done.flatMap fun j => if f.num j = k then a.entries order f.num j else [] := by
    refine List.flatMap_congr fun j hj => ?_
    rw [num_kept hp hi (List.mem_cons_of_mem _ hj),
      entries_congr (same j (List.mem_append_left _ hj))]
  rw [hp.ledger, h.ledger, List.flatMap_append, List.flatMap_singleton, old, hp.num_self,
    entries_congr (same i last)]
  by_cases hk : k = n
  · rw [if_pos hk, if_pos hk.symm, PrefixGraph.record_tally]
  · rw [if_neg hk, if_neg (Ne.symm hk), List.append_nil]

theorem Folded.members_put (h : a.Folded order done f) (hp : a.Puts order i n f g)
    (hi : i ∉ 0 :: done) (k : Nat) (x : Int) : x ∈ g.graph.members k ↔
      ∃ j ∈ done ++ [i], (j : Int) = x ∧ g.num j = k ∧ a.into order j ≠ [] := by
  rw [hp.members, h.members]
  constructor
  · rintro (⟨j, hj, rfl, rfl, hne⟩ | ⟨rfl, rfl, hne⟩)
    · exact ⟨j, List.mem_append_left _ hj, rfl, num_kept hp hi (List.mem_cons_of_mem _ hj), hne⟩
    · exact ⟨i, List.mem_append_right _ (List.mem_singleton.2 rfl), rfl, hp.num_self, hne⟩
  · rintro ⟨j, hj, rfl, rfl, hne⟩
    rcases mem_concat_cases hj with hj | rfl
    · exact .inl ⟨j, hj, rfl, (num_kept hp hi (List.mem_cons_of_mem _ hj)).symm, hne⟩
    · exact .inr ⟨hp.num_self, rfl, hne⟩

theorem Folded.put (h : a.Folded order done f) (hp : a.Puts order i n f g) (hi : i ∉ 0 :: done)
    (behind : ∀ r ∈ a.into order i, r.src ∈ 0 :: done) : a.Folded order (done ++ [i]) g := by
  have num : ∀ j ∈ 0 :: done, g.num j = f.num j := fun j hj => num_kept hp hi hj
  have mem : ∀ {j}, j ∈ 0 :: (done ++ [i]) ↔ j = i ∨ j ∈ 0 :: done := by
    intro j
    rw [← List.cons_append, List.mem_append, List.mem_singleton, or_comm]
  have same : ∀ j ∈ done ++ [i], ∀ r ∈ a.into order j, f.num r.src = g.num r.src :=
    fun j hj r hr => (num _ (h.behind_put behind hj r hr)).symm
  constructor
  case size_eq => rw [hp.size_eq, h.size_eq]
  case folded =>
    intro j hj
    by_cases hji : j = i
    · rw [hji, hp.node, if_pos rfl, hp.num_self]
    · have hj := (mem.1 hj).resolve_left hji
      rw [hp.node, if_neg hji, h.folded j hj, num j hj]
  case unfolded =>
    intro j hj
    obtain ⟨hne, hj⟩ := not_or.1 (mt mem.2 hj)
    rw [hp.node, if_neg hne, h.unfolded j hj]
  case init => rw [num 0 List.mem_cons_self, h.init]
  case inStep => exact hp.inStep
  case root => exact hp.grows.kept h.root
  case outline =>
    intro j hj
    rw [← parentsOf_congr (same j hj)]
    rcases mem_concat_cases hj with hj | rfl
    · rw [num j (List.mem_cons_of_mem _ hj)]
      exact hp.grows.kept (h.outline j hj)
    · rw [hp.num_self]
      exact hp.grows.self
  case onto =>
    intro k hk hk'
    rcases hp.grows.lt_size hk' with rfl | hk'
    · exact ⟨i, List.mem_append_right _ (List.mem_singleton.2 rfl), hp.num_self⟩
    · obtain ⟨j, hj, rfl⟩ := h.onto k hk hk'
      exact ⟨j, List.mem_append_left _ hj, num j (List.mem_cons_of_mem _ hj)⟩
  case distinct => exact hp.grows.distinct h.distinct
  case behind => exact fun j hj r hr => mem.2 (.inr (h.behind_put behind hj r hr))
  case descend =>
    intro j hj r hr
    rw [← same j hj r hr]
    rcases mem_concat_cases hj with hj | rfl
    · rw [num j (List.mem_cons_of_mem _ hj)]
      exact h.descend j hj r hr
    · rw [hp.num_self]
      exact h.descend_self hp behind hr
  case ledger => exact h.ledger_put hp hi behind
  case members => exact h.members_put hp hi

theorem Folded.step (h : a.Folded order done f) (hi : i ∉ 0 :: done) (hs : i < a.size)
    (behind : ∀ r ∈ a.into order i, r.src ∈ 0 :: done) :
    ∃ g, a.foldState f i ((a.into order i).map Arc.toLink) = .ok g ∧
      a.Folded order (done ++ [i]) g := by
  obtain ⟨n, g, hok, hp⟩ :=
    foldState_ok h.inStep (h.size_eq ▸ hs) fun r hr => h.folded r.src (behind r hr)
  exact ⟨g, hok, h.put hp hi behind⟩

end

theorem Folded.run {a : Automaton W} (ha : a.WellFormed) {order done rest : List Nat}
    {f : Folding W} (h : a.Folded order done f) (nodup : (0 :: done ++ rest).Nodup)
    (reached : ∀ i ∈ order, a.Reaches 0 i) (inside : ∀ i ∈ rest, i < a.size)
    (follows : a.Follows (0 :: done) rest) :
    ∃ g, rest.foldlM (fun f i => a.foldState f i
        ((a.incoming (order.flatMap a.linksFrom))[i]?.getD [])) f = .ok g ∧
      a.Folded order (done ++ rest) g := by
  induction rest generalizing done f with
  | nil => exact ⟨f, rfl, by rwa [List.append_nil]⟩
  | cons i rest ih =>
    have hi : i ∉ 0 :: done := fun hm =>
      (List.nodup_append.1 nodup).2.2 i hm i List.mem_cons_self rfl
    have behind : ∀ r ∈ a.into order i, r.src ∈ 0 :: done := by
      intro r hr
      obtain ⟨ho, harc, rfl⟩ := mem_into_iff.1 hr
      exact follows.1 (fun he => hi (he ▸ List.mem_cons_self)) r.src (reached _ ho)
        (mem_successors_iff.2 ⟨r.weight, harc⟩)
    obtain ⟨g, hg, hf⟩ := h.step hi (inside i List.mem_cons_self) behind
    have he : 0 :: done ++ i :: rest = 0 :: (done ++ [i]) ++ rest := by simp
    obtain ⟨g', hg', hf'⟩ := ih hf (he ▸ nodup) (fun j hj => inside j (List.mem_cons_of_mem _ hj))
      follows.2
    refine ⟨g', ?_, by rwa [List.append_assoc] at hf'⟩
    rw [List.foldlM_cons, incoming_eq ha order (inside i List.mem_cons_self), hg]
    exact hg'

theorem prefixGraph_ok {a : Automaton W} (ha : a.WellFormed) :
    ∃ order f, a.topologicalOrder = .ok order ∧ a.prefixGraph = .ok f.graph ∧ a.Sorted order ∧
      a.Folded order order.tail f := by
  obtain ⟨order, ho, hs⟩ := topologicalOrder_ok ha.owns_dest
  obtain ⟨rest, rfl⟩ : ∃ rest, order = 0 :: rest := by
    cases order with
    | nil => cases hs.starts
    | cons i rest =>
      obtain rfl : i = 0 := Option.some.inj hs.starts
      exact ⟨rest, rfl⟩
  have h0 : 0 < a.size := Nat.lt_of_lt_of_le Nat.two_pos ha.two_le_size
  obtain ⟨f, hf, h⟩ := (folded_start ha (0 :: rest)).run ha hs.nodup hs.reached
    (fun i hi => (hs.reached i (List.mem_cons_of_mem _ hi)).lt_size h0) hs.follows.2
  refine ⟨0 :: rest, f, ho, ?_, hs, h⟩
  rw [prefixGraph, ho, ok_bind]
  simp only [List.tail_cons]
  rw [hf]
  rfl

end Automaton

end LogAutomata
