import LogAutomata.Proofs.Members
import LogAutomata.Proofs.Refusals

/-!
# The nodes of a folded automaton

Folding sorts what Init reaches into nodes: each state but Init is a member of one of them. A
node is entered from nodes with smaller numbers, and its ledger has an entry for each of these.
So nothing is missing when the nodes are replayed in the order of their numbers, and what may
still be refused is a link with an undefined sum.
-/

namespace LogAutomata

variable {W : Type} [LogWeight W]

theorem mem_keys_tally_iff {κ : Type} [DecidableEq κ] {es : List (κ × W)} {k : κ} :
    k ∈ (tally es).keys ↔ ∃ w, (k, w) ∈ es := by
  rw [Ledger.mem_keys_iff]
  simp only [← Ledger.mem_toList_iff (nodup_keys_tally es)]
  constructor
  · rintro ⟨v, hv⟩
    exact exists_of_mem_tally hv
  · rintro ⟨w, hw⟩
    exact ⟨_, mem_tally_iff.2 ⟨List.ne_nil_of_mem (mem_entriesAt_iff.2 hw), rfl⟩⟩

namespace PrefixGraph

variable {g : PrefixGraph W}

structure Classifies (g : PrefixGraph W) (a : Automaton W) : Prop where
  root : g.outline 0 = some (none, .empty)
  keyed : ∀ k, 0 < k → k < g.size → ∃ key parents, g.outline k = some (some key, parents)
  entered : ∀ k key parents, g.outline k = some (some key, parents) →
    (∃ x, x ∈ parents) ∧ ∀ x ∈ parents, ∃ p < k, x = (p : Int)
  nodup_keys : ∀ k, (g.ledger k).keys.Nodup
  mem_keys_iff : ∀ k key parents, g.outline k = some (key, parents) →
    ∀ x, x ∈ (g.ledger k).keys ↔ x ∈ parents
  distinct : g.Distinct
  final : ∀ k m s s' o o', g.outline k = some (some ⟨s, true⟩, o) →
    g.outline m = some (some ⟨s', true⟩, o') → k = m
  root_members : ∀ x, x ∉ g.members 0
  exists_member : ∀ k, 0 < k → k < g.size → ∃ x, x ∈ g.members k
  disjoint : ∀ k m x, x ∈ g.members k → x ∈ g.members m → k = m
  covers : ∀ x, (∃ k < g.size, x ∈ g.members k) ↔ ∃ i : Nat, i ≠ 0 ∧ a.Reaches 0 i ∧ x = i

-- ---------------------------------------------------------------------------
-- Replaying
-- ---------------------------------------------------------------------------

omit [LogWeight W] in
theorem Classifies.exists_parent {a : Automaton W} (h : g.Classifies a) {k : Nat} {e : Int × W}
    (he : e ∈ (g.ledger k).toList) : ∃ p < k, e.1 = (p : Int) ∧ k < g.size := by
  have hk : k < g.size := by
    refine Nat.lt_of_not_le fun hk => ?_
    rw [ledger, Array.getElem?_eq_none hk] at he
    cases he
  obtain ⟨⟨key, parents⟩, ho⟩ := exists_outline hk
  have named := (h.mem_keys_iff k key parents ho e.1).1 (List.mem_map_of_mem he)
  rcases Nat.eq_zero_or_pos k with rfl | h0
  · cases h.root.symm.trans ho
    cases named
  · obtain ⟨key, parents, hk'⟩ := h.keyed k h0 hk
    cases ho.symm.trans hk'
    obtain ⟨p, hp, hpe⟩ := (h.entered k key parents ho).2 e.1 named
    exact ⟨p, hp, hpe, hk⟩

omit [LogWeight W] in
theorem size_placeNodes (root : Node W) (rest : List (Node W)) :
    (Automaton.placeNodes (root :: rest)).2.size = rest.length + 1 := by
  induction rest using List.reverseRecOn with
  | nil => rfl
  | append_singleton rest n ih =>
    rw [Automaton.placeNodes, List.tail_cons] at ih ⊢
    rw [List.foldl_append, List.length_append, List.length_singleton, ← ih, List.foldl_cons,
      List.foldl_nil, Automaton.placeNode]
    split <;> exact Array.size_push _

omit [LogWeight W] in
/-- When the nodes before a node have been placed, the places of its parents are known. -/
theorem Classifies.exists_place {a : Automaton W} (h : g.Classifies a) {k : Nat} {x : Int}
    (hx : x ∈ (g.ledger k).keys) :
    ∃ p : Nat, x = p ∧ p < (Automaton.placeNodes (g.nodes.toList.take k)).2.size := by
  obtain ⟨e, he, rfl⟩ := List.mem_map.1 hx
  obtain ⟨p, hp, named, hk⟩ := h.exists_parent he
  refine ⟨p, named, ?_⟩
  obtain ⟨k, rfl⟩ := Nat.exists_eq_succ_of_ne_zero (Nat.ne_of_gt (Nat.zero_lt_of_lt hp))
  cases hn : g.nodes.toList with
  | nil =>
    rw [size, ← Array.length_toList, hn] at hk
    cases hk
  | cons root rest =>
    rw [size, ← Array.length_toList, hn, List.length_cons] at hk
    have short : k ≤ rest.length := Nat.le_of_lt (Nat.lt_of_succ_lt_succ hk)
    rw [List.take_succ_cons, size_placeNodes, List.length_take_of_le short]
    exact hp

theorem enter_eq_error {target : Automaton W} {places : Array Nat} {n : Node W} {d : Nat}
    {e : Fault} (arrives : d < target.size)
    (known : ∀ x ∈ n.weights.toList, ∃ p src : Nat, x.1 = p ∧
      places[p]? = some src ∧ src < target.size) (h : target.enter places (n, d) = .error e) :
    (∃ s t, e = .undefinedWeight s t) ∧ ∃ x ∈ n.weights.toList, isUndefined x.2 = true := by
  obtain ⟨⟨x, w⟩, hx, he⟩ := exists_of_mapM_eq_error h
  obtain ⟨p, src, rfl, place, leaves⟩ := known _ hx
  have inside : p < places.size := (Array.getElem?_eq_some_iff.1 place).1
  simp only [resolve_natCast inside, Option.bind_some, place,
    Automaton.arc?_inside leaves arrives] at he
  split at he
  · next undefined =>
    cases he
    exact ⟨⟨_, _, rfl⟩, _, hx, undefined⟩
  · cases he

theorem Classifies.replay {a : Automaton W} (h : g.Classifies a) :
    (∃ b, g.replay = .ok b) ∨ (∃ s d, g.replay = .error (.undefinedWeight s d)) ∧
      ∃ k, ∃ e ∈ (g.ledger k).toList, isUndefined e.2 = true := by
  have placed := placed_of_keyed (lt_size_of_outline h.root) fun k o h0 ho => by
    obtain ⟨key, parents, hk⟩ := h.keyed k h0 (lt_size_of_outline ho)
    obtain rfl := Option.some.inj (ho.symm.trans hk)
    exact ⟨key, rfl⟩
  cases hpl : Automaton.placeNodes g.nodes.toList with
  | mk target places =>
  rw [hpl] at placed
  have sizes : places.size = g.size := placed.size_eq
  cases hm : (g.nodes.toList.zip places.toList).tail.mapM (target.enter places) with
  | ok arcs =>
    refine .inl ⟨target.withArcs arcs.flatten, ?_⟩
    simp only [PrefixGraph.replay, hpl, hm, ok_bind]
    rfl
  | error e =>
    obtain ⟨⟨n, d⟩, hx, he⟩ := exists_of_mapM_eq_error hm
    obtain ⟨k, -, hk⟩ := mem_tail_iff.1 hx
    obtain ⟨hn, hd⟩ := List.getElem?_zip_eq_some.1 hk
    rw [Array.getElem?_toList] at hn hd
    have entries : g.ledger k = n.weights := by
      rw [ledger, hn]
      rfl
    have known : ∀ x ∈ n.weights.toList, ∃ p src : Nat, x.1 = p ∧ places[p]? = some src ∧
        src < target.size := by
      intro x hx
      obtain ⟨p, hp, named, hks⟩ := h.exists_parent (entries ▸ hx)
      have place := Array.getElem?_eq_getElem (sizes ▸ Nat.lt_trans hp hks)
      exact ⟨p, _, named, place, placed.bound p _ place⟩
    obtain ⟨⟨s, t, rfl⟩, x, hx, undefined⟩ := enter_eq_error (placed.bound k d hd) known he
    refine .inr ⟨⟨s, t, ?_⟩, k, x, entries ▸ hx, undefined⟩
    simp only [PrefixGraph.replay, hpl, hm]
    rfl

end PrefixGraph

-- ---------------------------------------------------------------------------
-- Folding
-- ---------------------------------------------------------------------------

namespace Automaton

section
variable {a : Automaton W} (hc : a.Acyclic) {order : List Nat} (hs : a.Sorted order)
  {f : Folding W} (h : a.Folded order order.tail f)
include hc hs h

theorem Folded.mem_keys_iff {k : Nat} {x : Int} : x ∈ (f.graph.ledger k).keys ↔
    ∃ i, i ≠ 0 ∧ a.Reaches 0 i ∧ f.num i = k ∧ x ∈ a.parentsOf order f.num i := by
  rw [h.ledger, mem_keys_tally_iff]
  constructor
  · rintro ⟨w, hw⟩
    obtain ⟨i, -, hw⟩ := List.mem_flatMap.1 hw
    split at hw
    · next hk =>
      obtain ⟨r, hr, he⟩ := List.mem_map.1 hw
      obtain ⟨h0, hi⟩ := reaches_of_mem_into hc hs hr
      exact ⟨i, h0, hi, hk, mem_parentsOf_iff.2 ⟨r, hr, (Prod.mk.inj he).1⟩⟩
    · cases hw
  · rintro ⟨i, h0, hi, hk, hx⟩
    obtain ⟨r, hr, rfl⟩ := mem_parentsOf_iff.1 hx
    refine ⟨r.weight, List.mem_flatMap.2 ⟨i, (mem_tail_iff_reaches hc hs h0).2 hi, ?_⟩⟩
    rw [if_pos hk]
    exact List.mem_map.2 ⟨r, hr, rfl⟩

theorem Folded.classifies : f.graph.Classifies a := by
  have outline : ∀ {i}, i ≠ 0 → a.Reaches 0 i →
      f.graph.outline (f.num i) = some (some (a.keyOf i), a.parentsOf order f.num i) :=
    fun hi hr => h.outline_of_reaches hc hs hi hr
  have members : ∀ {k x}, x ∈ f.graph.members k ↔
      ∃ i : Nat, x = i ∧ i ≠ 0 ∧ a.Reaches 0 i ∧ f.num i = k := by
    intro k x
    constructor
    · intro hx
      obtain ⟨i, -, rfl, -⟩ := (h.members k x).1 hx
      exact ⟨i, rfl, (h.mem_members_iff hc hs).1 hx⟩
    · rintro ⟨i, rfl, hi⟩
      exact (h.mem_members_iff hc hs).2 hi
  constructor
  case root => exact h.root
  case keyed =>
    intro k h0 hk
    obtain ⟨i, hi, hr, rfl⟩ := h.exists_num hc hs h0 hk
    exact ⟨_, _, outline hi hr⟩
  case entered =>
    intro k key parents ho
    obtain ⟨i, hi, hr, rfl, rfl, rfl⟩ := h.exists_of_outline hc hs ho
    refine ⟨?_, fun x hx => ?_⟩
    · obtain ⟨r, hm⟩ := exists_mem_into hc hs hi hr
      exact ⟨_, mem_parentsOf_iff.2 ⟨r, hm, rfl⟩⟩
    · obtain ⟨r, hm, rfl⟩ := mem_parentsOf_iff.1 hx
      exact ⟨_, h.descend i ((mem_tail_iff_reaches hc hs hi).2 hr) r hm, rfl⟩
  case nodup_keys =>
    intro k
    rw [h.ledger]
    exact nodup_keys_tally _
  case mem_keys_iff =>
    intro k key parents ho x
    rw [h.mem_keys_iff hc hs]
    constructor
    · rintro ⟨i, hi, hr, rfl, hx⟩
      obtain ⟨-, rfl⟩ := Prod.mk.inj (Option.some.inj ((outline hi hr).symm.trans ho))
      exact hx
    · intro hx
      rcases Nat.eq_zero_or_pos k with rfl | h0
      · cases h.root.symm.trans ho
        cases hx
      · obtain ⟨i, hi, hr, rfl⟩ := h.exists_num hc hs h0 (PrefixGraph.lt_size_of_outline ho)
        cases (outline hi hr).symm.trans ho
        exact ⟨i, hi, hr, rfl, hx⟩
  case distinct => exact h.distinct
  case final =>
    intro k m s s' o o' hk hm
    exact h.final_unique hc hs hk hm
  case root_members =>
    intro x hx
    obtain ⟨i, -, hi, hr, h0⟩ := members.1 hx
    exact Nat.ne_of_gt (h.num_pos hc hs hi hr) h0
  case exists_member =>
    intro k h0 hk
    obtain ⟨i, hi, hr, rfl⟩ := h.exists_num hc hs h0 hk
    exact ⟨i, members.2 ⟨i, rfl, hi, hr, rfl⟩⟩
  case disjoint =>
    intro k m x hk hm
    obtain ⟨i, rfl, -, -, rfl⟩ := members.1 hk
    obtain ⟨j, hj, -, -, rfl⟩ := members.1 hm
    rw [Int.ofNat_inj.1 hj]
  case covers =>
    intro x
    constructor
    · rintro ⟨k, -, hx⟩
      obtain ⟨i, hx, hi, hr, -⟩ := members.1 hx
      exact ⟨i, hi, hr, hx⟩
    · rintro ⟨i, hi, hr, rfl⟩
      exact ⟨f.num i, h.num_lt_of_reaches hc hs hr, members.2 ⟨i, rfl, hi, hr, rfl⟩⟩

end

variable {a : Automaton W}

/-- Folding finds the node of every predecessor and some link into every state that it folds.
What it makes has its nodes in order, and replaying finds the state of every parent. -/
theorem prefixGraph_classifies (ha : a.Built) (hc : a.Acyclic) : ∃ order g,
    a.topologicalOrder = .ok order ∧ a.prefixGraph = .ok g ∧ g.Classifies a ∧
    (∀ i ∈ order.tail, ∃ l ls, (a.incoming (order.flatMap a.linksFrom))[i]? = some (l :: ls)) ∧
    (∀ k, ∀ x ∈ (g.ledger k).keys, ∃ p : Nat,
      x = p ∧ p < (placeNodes (g.nodes.toList.take k)).2.size) ∧
    ((∃ b, a.leftMerge = .ok b) ∨ (∃ s d, a.leftMerge = .error (.undefinedWeight s d)) ∧
      ∃ k, ∃ e ∈ (g.ledger k).toList, isUndefined e.2 = true) := by
  have wf := ha.wellFormed
  have h0 : 0 < a.size := Nat.lt_of_lt_of_le Nat.two_pos wf.two_le_size
  obtain ⟨order, f, ho, hf, hs, h⟩ := prefixGraph_ok wf
  have sorts := h.classifies hc hs
  have merges : a.leftMerge = f.graph.replay := by rw [leftMerge, hf, ok_bind]
  refine ⟨order, f.graph, ho, hf, sorts, fun i hi => ?_, fun k x => sorts.exists_place,
    merges ▸ sorts.replay⟩
  have hne : i ≠ 0 := by
    rintro rfl
    have keyed := h.outline 0 hi
    rw [h.init, h.root] at keyed
    cases keyed
  have hr := (mem_tail_iff_reaches hc hs hne).1 hi
  obtain ⟨r, hm⟩ := exists_mem_into hc hs hne hr
  have row := incoming_eq wf order (hr.lt_size h0)
  rw [getElem?_incoming (hr.lt_size h0), Option.getD_some] at row
  rw [getElem?_incoming (hr.lt_size h0), row]
  cases he : a.into order i with
  | nil =>
    rw [he] at hm
    cases hm
  | cons s rest => exact ⟨s.toLink, rest.map Arc.toLink, rfl⟩

theorem prefixGraph_classifies_diamond : ∃ order g,
    (diamond (.finite 0) .infinite).topologicalOrder = .ok order ∧
    (diamond (.finite 0) .infinite).prefixGraph = .ok g ∧
    g.Classifies (diamond (.finite 0) .infinite) ∧
    (∀ i ∈ order.tail, ∃ l ls, ((diamond (.finite 0) .infinite).incoming
      (order.flatMap (diamond (.finite 0) .infinite).linksFrom))[i]? = some (l :: ls)) ∧
    (∀ k, ∀ x ∈ (g.ledger k).keys, ∃ p : Nat,
      x = p ∧ p < (placeNodes (g.nodes.toList.take k)).2.size) ∧
    ((∃ b, (diamond (.finite 0) .infinite).leftMerge = .ok b) ∨
      (∃ s d, (diamond (.finite 0) .infinite).leftMerge = .error (.undefinedWeight s d)) ∧
        ∃ k, ∃ e ∈ (g.ledger k).toList, isUndefined e.2 = true) :=
  prefixGraph_classifies (diamond_built rfl rfl) (diamond_acyclic rfl rfl)

end Automaton

end LogAutomata
