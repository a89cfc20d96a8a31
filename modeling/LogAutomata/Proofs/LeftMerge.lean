import LogAutomata.Proofs.Folding
import LogAutomata.Proofs.Replay
import Mathlib.Data.List.Perm.Lattice

/-!
# What merging from the left does

The result is a quotient: every state that Init reaches has an image, and two of
them have the same image exactly if they have the same symbol and are entered
from the same images. Links are those between images, once each, with the
log-sum of the weights of all links that have become one.
-/

namespace LogAutomata.Automaton

variable {W : Type}

/-- `b` is `a` with the states merged that have the same image. States that Init
does not reach have no image in `b`. -/
structure Merges [LogWeight W] (a b : Automaton W) (q : Nat → Nat) : Prop where
  init : q 0 = 0
  final : a.Reaches 0 1 → q 1 = 1
  two_le : ∀ i, a.Reaches 0 i → 2 ≤ i → 2 ≤ q i
  lt_size_iff : ∀ i, q i < b.size ↔ a.Reaches 0 i
  onto : ∀ k, 2 ≤ k → k < b.size → ∃ i, a.Reaches 0 i ∧ q i = k
  symbolAt : ∀ i, a.Reaches 0 i → b.symbolAt (q i) = a.symbolAt i
  eq_iff : ∀ i j, i ≠ 0 → j ≠ 0 → a.Reaches 0 i → a.Reaches 0 j →
    (q i = q j ↔ a.symbolAt i = a.symbolAt j ∧ (i = 1 ↔ j = 1) ∧
      ∀ k, (∃ p, a.Reaches 0 p ∧ i ∈ a.successors p ∧ q p = k) ↔
        ∃ p, a.Reaches 0 p ∧ j ∈ a.successors p ∧ q p = k)
  nodup : ∀ k, (b.successors k).Nodup
  mem_successors_iff : ∀ k m, m ∈ b.successors k ↔
    ∃ i j, a.Reaches 0 i ∧ j ∈ a.successors i ∧ q i = k ∧ q j = m
  weight : ∀ k m w, (m, w) ∈ b.arcsFrom k → ∃ ws, w = logSum ws ∧
    ws.Perm ((a.arcs.filter fun r => q r.src = k ∧ q r.dest = m).map Arc.weight)
  ranked : ∃ rank : Nat → Nat, ∀ k, ∀ m ∈ b.successors k, rank k < rank m

-- ---------------------------------------------------------------------------
-- Rearranged arcs
-- ---------------------------------------------------------------------------

open Classical in
theorem arcsOf_filter (is : List Nat) (p : Nat → Prop) (row : Nat → List (Nat × W)) :
    arcsOf (is.filter fun i => p i) row = (arcsOf is row).filter fun r => p r.src := by
  induction is with
  | nil => rfl
  | cons i is ih =>
    simp only [arcsOf, List.flatMap_cons, List.filter_append] at ih ⊢
    rw [← ih]
    by_cases hi : p i
    · simp [hi, List.filter_map, Function.comp_def]
    · simp [hi, List.filter_map, Function.comp_def]

open Classical in
theorem Sorted.arcsOf_perm {a : Automaton W} (ha : a.Acyclic) {order : List Nat}
    (h : a.Sorted order) (h0 : 0 < a.size) :
    (arcsOf order a.arcsFrom).Perm (a.arcs.filter fun r => a.Reaches 0 r.src) := by
  have he : order.Perm ((List.range a.size).filter fun i => a.Reaches 0 i) := by
    refine (List.perm_ext_iff_of_nodup h.nodup (List.nodup_range.filter _)).2 fun v => ?_
    rw [h.mem_iff ha, List.mem_filter, List.mem_range, decide_eq_true_iff]
    exact ⟨fun hv => ⟨hv.lt_size h0, hv⟩, And.right⟩
  rw [arcs, ← arcsOf_filter]
  exact he.flatMap_right _

section
variable {a : Automaton W} (ha : a.Acyclic) {order : List Nat} (hs : a.Sorted order)
include ha hs

theorem Sorted.dest_mem_tail {r : Arc W} (hr : r ∈ arcsOf order a.arcsFrom) :
    r.dest ∈ order.tail := by
  obtain ⟨ho, hr⟩ := mem_arcsOf_iff.1 hr
  have hsrc := hs.reached _ ho
  have hstep : r.dest ∈ a.successors r.src := mem_successors_iff.2 ⟨_, hr⟩
  have hm := (hs.mem_iff ha _).2 (hsrc.step hstep)
  have hne : r.dest ≠ 0 := fun h0 => ha.zero_not_mem hsrc (h0 ▸ hstep)
  cases order with
  | nil => cases hm
  | cons i rest =>
    obtain rfl : i = 0 := Option.some.inj hs.starts
    exact (List.mem_cons.1 hm).resolve_left hne

theorem mem_tail_iff_reaches {i : Nat} (hi : i ≠ 0) : i ∈ order.tail ↔ a.Reaches 0 i := by
  rw [← hs.mem_iff ha]
  cases order with
  | nil => rfl
  | cons j rest =>
    obtain rfl : j = 0 := Option.some.inj hs.starts
    rw [List.mem_cons, List.tail_cons]
    exact ⟨.inr, fun hm => hm.resolve_left hi⟩

theorem mem_into_iff_reaches {i : Nat} {r : Arc W} : r ∈ a.into order i ↔
    a.Reaches 0 r.src ∧ (r.dest, r.weight) ∈ a.arcsFrom r.src ∧ r.dest = i := by
  rw [mem_into_iff, hs.mem_iff ha]

theorem exists_mem_into {i : Nat} (hi : i ≠ 0) (hr : a.Reaches 0 i) : ∃ r, r ∈ a.into order i := by
  obtain ⟨p, hp, hip⟩ := hr.eq_or_step.resolve_left (Ne.symm hi)
  obtain ⟨w, hw⟩ := mem_successors_iff.1 hip
  exact ⟨⟨p, i, w⟩, (mem_into_iff_reaches ha hs).2 ⟨hp, hw, rfl⟩⟩

theorem reaches_of_mem_into {i : Nat} {r : Arc W} (hr : r ∈ a.into order i) :
    i ≠ 0 ∧ a.Reaches 0 i := by
  obtain ⟨hsrc, hw, rfl⟩ := (mem_into_iff_reaches ha hs).1 hr
  have hsucc := mem_successors_iff.2 ⟨_, hw⟩
  exact ⟨fun h0 => ha.zero_not_mem hsrc (h0 ▸ hsucc), hsrc.step hsucc⟩

theorem entriesAt_perm [LogWeight W] (num : Nat → Nat) (k p : Nat) :
    (entriesAt (order.tail.flatMap fun i => if num i = k then a.entries order num i else [])
      (p : Int)).Perm
      (((arcsOf order a.arcsFrom).filter fun r => num r.src = p ∧ num r.dest = k).map
        Arc.weight) := by
  have nodup : order.tail.Nodup := hs.nodup.sublist (List.tail_sublist _)
  have recorded : (order.tail.flatMap fun i => if num i = k then a.entries order num i else []) =
      ((order.tail.flatMap (a.into order)).filter fun r => num r.dest = k).map
        fun r => ((num r.src : Int), r.weight) := by
    rw [List.filter_flatMap, List.map_flatMap]
    refine List.flatMap_congr fun i _ => ?_
    have hd : (a.into order i).filter (fun r => num r.dest = k) =
        (a.into order i).filter fun _ => num i = k :=
      List.filter_congr fun r hr => by rw [(mem_into_iff.1 hr).2.2]
    rw [hd]
    by_cases hi : num i = k
    · simp [hi, entries]
    · simp [hi]
  have under : entriesAt (((order.tail.flatMap (a.into order)).filter fun r => num r.dest = k).map
      fun r => ((num r.src : Int), r.weight)) p =
      ((order.tail.flatMap (a.into order)).filter fun r => num r.src = p ∧ num r.dest = k).map
        Arc.weight := by
    rw [entriesAt, List.filter_map, List.map_map, List.filter_filter]
    refine congrArg (List.map Arc.weight) (List.filter_congr fun r _ => ?_)
    simp only [Function.comp, Int.ofNat_inj, Bool.decide_and]
  rw [recorded, under]
  exact ((flatMap_filter_perm nodup fun r hr => hs.dest_mem_tail ha hr).filter _).map _

end

-- ---------------------------------------------------------------------------
-- The folded graph
-- ---------------------------------------------------------------------------

section
variable [LogWeight W] {a : Automaton W} (hc : a.Acyclic) {order : List Nat} (hs : a.Sorted order)
  {f : Folding W} (h : a.Folded order order.tail f)

include hc hs h

theorem Folded.outline_of_reaches {i : Nat} (hi : i ≠ 0) (hr : a.Reaches 0 i) :
    f.graph.outline (f.num i) = some (some (a.keyOf i), a.parentsOf order f.num i) :=
  h.outline i ((mem_tail_iff_reaches hc hs hi).2 hr)

theorem Folded.num_lt_of_reaches {i : Nat} (hr : a.Reaches 0 i) : f.num i < f.graph.size := by
  by_cases hi : i = 0
  · exact h.num_lt_size (hi ▸ List.mem_cons_self)
  · exact PrefixGraph.lt_size_of_outline (h.outline_of_reaches hc hs hi hr)

theorem Folded.num_pos {i : Nat} (hi : i ≠ 0) (hr : a.Reaches 0 i) : 0 < f.num i := by
  refine Nat.pos_of_ne_zero fun h0 => ?_
  have ho := h.outline_of_reaches hc hs hi hr
  rw [h0, h.root] at ho
  cases ho

theorem Folded.exists_num {k : Nat} (h0 : 0 < k) (hk : k < f.graph.size) :
    ∃ i, i ≠ 0 ∧ a.Reaches 0 i ∧ f.num i = k := by
  obtain ⟨i, hi, rfl⟩ := h.onto k h0 hk
  have hi0 : i ≠ 0 := by
    rintro rfl
    rw [h.init] at h0
    exact Nat.lt_irrefl 0 h0
  exact ⟨i, hi0, (mem_tail_iff_reaches hc hs hi0).1 hi, rfl⟩

theorem Folded.exists_of_outline {k : Nat} {key : NodeKey} {parents : IntSet}
    (ho : f.graph.outline k = some (some key, parents)) : ∃ i, i ≠ 0 ∧ a.Reaches 0 i ∧
      f.num i = k ∧ key = a.keyOf i ∧ parents = a.parentsOf order f.num i := by
  have h0 : 0 < k := by
    refine Nat.pos_of_ne_zero fun h0 => ?_
    rw [h0, h.root] at ho
    cases ho
  obtain ⟨i, hi, hr, rfl⟩ := h.exists_num hc hs h0 (PrefixGraph.lt_size_of_outline ho)
  rw [h.outline_of_reaches hc hs hi hr] at ho
  cases ho
  exact ⟨i, hi, hr, rfl, rfl, rfl⟩

theorem Folded.final_unique {k m : Nat} {s s' : Symbol} {o o' : IntSet}
    (hk : f.graph.outline k = some (some ⟨s, true⟩, o))
    (hm : f.graph.outline m = some (some ⟨s', true⟩, o')) : k = m := by
  obtain ⟨i, -, -, rfl, hi, -⟩ := h.exists_of_outline hc hs hk
  obtain ⟨j, -, -, rfl, hj, -⟩ := h.exists_of_outline hc hs hm
  have hi : true = (i == 1) := congrArg NodeKey.final hi
  have hj : true = (j == 1) := congrArg NodeKey.final hj
  rw [beq_iff_eq.1 hi.symm, beq_iff_eq.1 hj.symm]

theorem Folded.num_eq_iff {i j : Nat} (hi : i ≠ 0) (hj : j ≠ 0) (hri : a.Reaches 0 i)
    (hrj : a.Reaches 0 j) : f.num i = f.num j ↔
      a.symbolAt i = a.symbolAt j ∧ (i = 1 ↔ j = 1) ∧
        ∀ n, (∃ p, a.Reaches 0 p ∧ i ∈ a.successors p ∧ f.num p = n) ↔
          ∃ p, a.Reaches 0 p ∧ j ∈ a.successors p ∧ f.num p = n := by
  have parents : ∀ i n : Nat, (n : Int) ∈ a.parentsOf order f.num i ↔
      ∃ p, a.Reaches 0 p ∧ i ∈ a.successors p ∧ f.num p = n := by
    intro i n
    rw [mem_parentsOf_iff]
    constructor
    · rintro ⟨r, hr, he⟩
      obtain ⟨hp, hm, rfl⟩ := (mem_into_iff_reaches hc hs).1 hr
      exact ⟨r.src, hp, mem_successors_iff.2 ⟨_, hm⟩, Int.ofNat_inj.1 he⟩
    · rintro ⟨p, hp, hm, rfl⟩
      obtain ⟨w, hm⟩ := mem_successors_iff.1 hm
      exact ⟨⟨p, i, w⟩, (mem_into_iff_reaches hc hs).2 ⟨hp, hm, rfl⟩, rfl⟩
  have keys : a.keyOf i = a.keyOf j ↔ a.symbolAt i = a.symbolAt j ∧ (i = 1 ↔ j = 1) := by
    rw [keyOf, keyOf, NodeKey.mk.injEq, Bool.eq_iff_iff, beq_iff_eq, beq_iff_eq]
  have hoi := h.outline_of_reaches hc hs hi hri
  have hoj := h.outline_of_reaches hc hs hj hrj
  have outlines : f.num i = f.num j ↔
      a.keyOf i = a.keyOf j ∧ a.parentsOf order f.num i = a.parentsOf order f.num j := by
    constructor
    · intro he
      rw [he, hoj] at hoi
      obtain ⟨h1, h2⟩ := Prod.mk.inj (Option.some.inj hoi)
      exact ⟨(Option.some.inj h1).symm, h2.symm⟩
    · rintro ⟨h1, h2⟩
      exact h.distinct _ _ _ hoi (by rw [hoj, h1, h2])
  rw [outlines, keys, and_assoc]
  refine and_congr_right fun _ => and_congr_right fun _ => ?_
  constructor
  · intro he n
    rw [← parents, he, parents]
  · intro hn
    refine IntSet.ext fun x => ?_
    constructor
    · intro hx
      obtain ⟨r, -, rfl⟩ := mem_parentsOf_iff.1 hx
      exact (parents j _).2 ((hn _).1 ((parents i _).1 hx))
    · intro hx
      obtain ⟨r, -, rfl⟩ := mem_parentsOf_iff.1 hx
      exact (parents i _).2 ((hn _).2 ((parents j _).1 hx))

theorem Folded.mem_ledger_iff {k p : Nat} {w : W} :
    ((p : Int), w) ∈ (f.graph.ledger k).toList ↔
      (∃ i j, a.Reaches 0 i ∧ j ∈ a.successors i ∧ f.num i = p ∧ f.num j = k) ∧
        w = logSum (entriesAt (order.tail.flatMap fun i =>
          if f.num i = k then a.entries order f.num i else []) p) := by
  rw [h.ledger, mem_tally_iff]
  refine and_congr_left fun _ => ?_
  rw [Ne, ← List.length_eq_zero_iff, (entriesAt_perm hc hs f.num k p).length_eq,
    List.length_eq_zero_iff, List.map_eq_nil_iff, ← Ne]
  constructor
  · intro hne
    obtain ⟨r, hr⟩ := List.exists_mem_of_ne_nil _ hne
    obtain ⟨hr, he⟩ := List.mem_filter.1 hr
    obtain ⟨ho, hr⟩ := mem_arcsOf_iff.1 hr
    obtain ⟨h1, h2⟩ := of_decide_eq_true he
    exact ⟨r.src, r.dest, hs.reached _ ho, mem_successors_iff.2 ⟨_, hr⟩, h1, h2⟩
  · rintro ⟨i, j, hi, hj, rfl, rfl⟩
    obtain ⟨w, hw⟩ := mem_successors_iff.1 hj
    have hm : (⟨i, j, w⟩ : Arc W) ∈ arcsOf order a.arcsFrom :=
      mem_arcsOf_iff.2 ⟨(hs.mem_iff hc i).2 hi, hw⟩
    exact List.ne_nil_of_mem (List.mem_filter.2 ⟨hm, decide_eq_true ⟨rfl, rfl⟩⟩)

theorem Folded.sound [DefinedSums W] (ha : a.WellFormed) : f.graph.Sound where
  rooted := PrefixGraph.lt_size_of_outline h.root
  keyed k o h0 ho := by
    obtain ⟨i, hi, hr, rfl⟩ := h.exists_num hc hs h0 (PrefixGraph.lt_size_of_outline ho)
    rw [h.outline_of_reaches hc hs hi hr] at ho
    cases ho
    exact ⟨_, rfl⟩
  final _ _ _ _ _ _ := h.final_unique hc hs
  keys k := by
    rw [h.ledger]
    exact nodup_keys_tally _
  parents k e he := by
    rw [h.ledger] at he
    obtain ⟨hne, -⟩ := mem_tally_iff.1 he
    obtain ⟨w, hw⟩ := List.exists_mem_of_ne_nil _ hne
    obtain ⟨x, hx, -⟩ := List.mem_map.1 hw
    obtain ⟨hx, hxe⟩ := List.mem_filter.1 hx
    obtain ⟨i, -, hx⟩ := List.mem_flatMap.1 hx
    split at hx
    · obtain ⟨r, hr, rfl⟩ := List.mem_map.1 hx
      obtain ⟨hsrc, -, -⟩ := (mem_into_iff_reaches hc hs).1 hr
      exact ⟨f.num r.src, h.num_lt_of_reaches hc hs hsrc, (of_decide_eq_true hxe).symm⟩
    · cases hx
  defined k e he := by
    rw [h.ledger] at he
    rw [(mem_tally_iff.1 he).2]
    refine logSum_defined fun w hw => ?_
    obtain ⟨x, hx, rfl⟩ := List.mem_map.1 hw
    obtain ⟨i, -, hx⟩ := List.mem_flatMap.1 (List.mem_of_mem_filter hx)
    split at hx
    · obtain ⟨r, hr, rfl⟩ := List.mem_map.1 hx
      exact ha.weight_defined (mem_into_iff.1 hr).2.1
    · cases hx

end

-- ---------------------------------------------------------------------------
-- The merged automaton
-- ---------------------------------------------------------------------------

open Classical in
noncomputable def imageOf (a b : Automaton W) (f : Folding W) (place : Nat → Nat) (i : Nat) : Nat :=
  if a.Reaches 0 i then place (f.num i) else b.size

theorem imageOf_eq {a b : Automaton W} {f : Folding W} {place : Nat → Nat} {i : Nat}
    (h : a.Reaches 0 i) : imageOf a b f place i = place (f.num i) := if_pos h

/-- Two states are entered from the same images, whichever of two maps with the same
fibres gives the images. -/
theorem same_parents {a : Automaton W} {u v : Nat → Nat}
    (huv : ∀ p p', a.Reaches 0 p → a.Reaches 0 p' → u p = u p' → v p = v p') {i j : Nat}
    (h : ∀ n, (∃ p, a.Reaches 0 p ∧ i ∈ a.successors p ∧ u p = n) ↔
      ∃ p, a.Reaches 0 p ∧ j ∈ a.successors p ∧ u p = n) (n : Nat) :
    (∃ p, a.Reaches 0 p ∧ i ∈ a.successors p ∧ v p = n) ↔
      ∃ p, a.Reaches 0 p ∧ j ∈ a.successors p ∧ v p = n := by
  constructor
  · rintro ⟨p, hp, hi, rfl⟩
    obtain ⟨p', hp', hj, he⟩ := (h _).1 ⟨p, hp, hi, rfl⟩
    exact ⟨p', hp', hj, huv p' p hp' hp he⟩
  · rintro ⟨p, hp, hj, rfl⟩
    obtain ⟨p', hp', hi, he⟩ := (h _).2 ⟨p, hp, hj, rfl⟩
    exact ⟨p', hp', hi, huv p' p hp' hp he⟩

section
variable [LogWeight W] {a b : Automaton W} (hc : a.Acyclic) {order : List Nat}
  (hs : a.Sorted order) {f : Folding W} (h : a.Folded order order.tail f) {place : Nat → Nat}
  (hb : f.graph.Replays b place)
include hc hs h hb

omit hc hs in
theorem Folded.imageOf_zero : imageOf a b f place 0 = 0 := by
  rw [imageOf_eq (.refl a 0), h.init, hb.init]

theorem Folded.suits_imageOf {i : Nat} (hi : i ≠ 0) (hr : a.Reaches 0 i) :
    b.Suits (a.keyOf i) (imageOf a b f place i) := by
  rw [imageOf_eq hr]
  exact hb.suits _ _ _ (h.num_pos hc hs hi hr) (h.outline_of_reaches hc hs hi hr)

theorem Folded.imageOf_one (hr : a.Reaches 0 1) : imageOf a b f place 1 = 1 :=
  h.suits_imageOf hc hs hb Nat.one_ne_zero hr

theorem Folded.imageOf_interior {i : Nat} (hi : 2 ≤ i) (hr : a.Reaches 0 i) :
    2 ≤ imageOf a b f place i ∧ imageOf a b f place i < b.size ∧
      b.symbolAt (imageOf a b f place i) = a.symbolAt i := by
  have hf : ¬(a.keyOf i).final = true := by
    rw [keyOf, beq_iff_eq]
    exact Nat.ne_of_gt hi
  have := h.suits_imageOf hc hs hb (Nat.ne_of_gt (Nat.lt_of_lt_of_le Nat.two_pos hi)) hr
  rwa [Suits, if_neg hf] at this

theorem Folded.imageOf_lt_size_iff {i : Nat} : imageOf a b f place i < b.size ↔ a.Reaches 0 i := by
  constructor
  · intro hlt
    by_contra hr
    rw [imageOf, if_neg hr] at hlt
    exact Nat.lt_irrefl _ hlt
  · intro hr
    have := hb.wellFormed.two_le_size
    rcases i with _ | _ | i
    · rw [h.imageOf_zero hb]
      omega
    · rw [h.imageOf_one hc hs hb hr]
      omega
    · exact (h.imageOf_interior hc hs hb (Nat.le_add_left 2 i) hr).2.1

theorem Folded.symbolAt_imageOf (ha : a.WellFormed) {i : Nat} (hr : a.Reaches 0 i) :
    b.symbolAt (imageOf a b f place i) = a.symbolAt i := by
  rcases i with _ | _ | i
  · rw [h.imageOf_zero hb, hb.wellFormed.symbolAt_zero, ha.symbolAt_zero]
  · rw [h.imageOf_one hc hs hb hr, hb.wellFormed.symbolAt_one, ha.symbolAt_one]
  · exact (h.imageOf_interior hc hs hb (Nat.le_add_left 2 i) hr).2.2

/-- The images tell apart what the nodes tell apart. -/
theorem Folded.imageOf_eq_iff {i j : Nat} (hi : a.Reaches 0 i) (hj : a.Reaches 0 j) :
    imageOf a b f place i = imageOf a b f place j ↔ f.num i = f.num j := by
  rw [imageOf_eq hi, imageOf_eq hj]
  refine ⟨fun he => hb.inj _ _ ?_ ?_ he, congrArg place⟩
  · exact h.num_lt_of_reaches hc hs hi
  · exact h.num_lt_of_reaches hc hs hj

theorem Folded.image_of_mem_arcsFrom {k m : Nat} {w : W} (hw : (m, w) ∈ b.arcsFrom k) :
    ∃ i j, a.Reaches 0 i ∧ j ∈ a.successors i ∧ imageOf a b f place i = k ∧
      imageOf a b f place j = m ∧ w = logSum (entriesAt (order.tail.flatMap fun i =>
        if f.num i = f.num j then a.entries order f.num i else []) (f.num i)) := by
  obtain ⟨n, p, -, he, rfl, rfl⟩ := (hb.mem_arcsFrom_iff k m w).1 hw
  obtain ⟨⟨i, j, hi, hj, rfl, rfl⟩, hw⟩ := (h.mem_ledger_iff hc hs).1 he
  exact ⟨i, j, hi, hj, imageOf_eq hi, imageOf_eq (hi.step hj), hw⟩

theorem Folded.mem_successors_imageOf_iff {k m : Nat} : m ∈ b.successors k ↔
    ∃ i j, a.Reaches 0 i ∧ j ∈ a.successors i ∧ imageOf a b f place i = k ∧
      imageOf a b f place j = m := by
  rw [mem_successors_iff]
  constructor
  · rintro ⟨w, hw⟩
    obtain ⟨i, j, hi, hj, hk, hm, -⟩ := h.image_of_mem_arcsFrom hc hs hb hw
    exact ⟨i, j, hi, hj, hk, hm⟩
  · rintro ⟨i, j, hi, hj, rfl, rfl⟩
    have hj0 : j ≠ 0 := fun h0 => hc.zero_not_mem hi (h0 ▸ hj)
    have he := (h.mem_ledger_iff hc hs).2 ⟨⟨i, j, hi, hj, rfl, rfl⟩, rfl⟩
    exact ⟨_, (hb.mem_arcsFrom_iff _ _ _).2 ⟨f.num j, f.num i,
      h.num_pos hc hs hj0 (hi.step hj), he, (imageOf_eq hi).symm, (imageOf_eq (hi.step hj)).symm⟩⟩

open Classical in
theorem Folded.filter_num_perm (ha : a.WellFormed) {i j : Nat} (hi : a.Reaches 0 i)
    (hj : a.Reaches 0 j) :
    ((arcsOf order a.arcsFrom).filter fun r => f.num r.src = f.num i ∧ f.num r.dest = f.num j).Perm
      (a.arcs.filter fun r => imageOf a b f place r.src = imageOf a b f place i ∧
        imageOf a b f place r.dest = imageOf a b f place j) := by
  have h0 : 0 < a.size := Nat.lt_of_lt_of_le Nat.two_pos ha.two_le_size
  refine ((hs.arcsOf_perm hc h0).filter _).trans (.of_eq ?_)
  rw [List.filter_filter]
  refine List.filter_congr fun r hr => ?_
  rw [Bool.eq_iff_iff, Bool.and_eq_true, decide_eq_true_iff, decide_eq_true_iff,
    decide_eq_true_iff]
  by_cases hsrc : a.Reaches 0 r.src
  · have hdest := hsrc.step (mem_successors_iff.2 ⟨_, mem_arcs_iff.1 hr⟩)
    rw [h.imageOf_eq_iff hc hs hb hsrc hi, h.imageOf_eq_iff hc hs hb hdest hj]
    exact and_iff_left hsrc
  · -- only states that are reached have an image in the result
    refine iff_of_false (fun hn => hsrc hn.2) fun hn => hsrc ?_
    exact (h.imageOf_lt_size_iff hc hs hb).1 (hn.1 ▸ (h.imageOf_lt_size_iff hc hs hb).2 hi)

/-- The numbers of the nodes rise along the links of the result. -/
theorem Folded.ranked : ∃ rank : Nat → Nat, ∀ k, ∀ m ∈ b.successors k, rank k < rank m := by
  refine ⟨Function.invFunOn place {n | n < f.graph.size}, fun k m hm => ?_⟩
  have inv : ∀ i, a.Reaches 0 i → Function.invFunOn place {n | n < f.graph.size}
      (imageOf a b f place i) = f.num i := by
    intro i hi
    rw [imageOf_eq hi]
    exact Set.InjOn.leftInvOn_invFunOn (fun k hk m hm => hb.inj k m hk hm)
      (h.num_lt_of_reaches hc hs hi)
  obtain ⟨i, j, hi, hj, rfl, rfl⟩ := (h.mem_successors_imageOf_iff hc hs hb).1 hm
  rw [inv i hi, inv j (hi.step hj)]
  obtain ⟨w, hw⟩ := mem_successors_iff.1 hj
  have hj0 : j ≠ 0 := fun h0 => hc.zero_not_mem hi (h0 ▸ hj)
  exact h.descend j ((mem_tail_iff_reaches hc hs hj0).2 (hi.step hj)) ⟨i, j, w⟩
    ((mem_into_iff_reaches hc hs).2 ⟨hi, hw, rfl⟩)

theorem Folded.merges (ha : a.WellFormed) : a.Merges b (imageOf a b f place) where
  init := h.imageOf_zero hb
  final := h.imageOf_one hc hs hb
  two_le i hr hi := (h.imageOf_interior hc hs hb hi hr).1
  lt_size_iff i := h.imageOf_lt_size_iff hc hs hb
  onto k hk hk' := by
    obtain ⟨n, h0, hn, rfl⟩ := hb.onto k hk hk'
    obtain ⟨i, -, hr, rfl⟩ := h.exists_num hc hs h0 hn
    exact ⟨i, hr, imageOf_eq hr⟩
  symbolAt i hr := h.symbolAt_imageOf hc hs hb ha hr
  eq_iff i j hi hj hri hrj := by
    rw [h.imageOf_eq_iff hc hs hb hri hrj, h.num_eq_iff hc hs hi hj hri hrj]
    refine and_congr_right fun _ => and_congr_right fun _ => ⟨same_parents ?_, same_parents ?_⟩
    · exact fun p p' hp hp' => (h.imageOf_eq_iff hc hs hb hp hp').2
    · exact fun p p' hp hp' => (h.imageOf_eq_iff hc hs hb hp hp').1
  nodup := hb.nodup
  mem_successors_iff k m := h.mem_successors_imageOf_iff hc hs hb
  weight k m w hw := by
    classical
    obtain ⟨i, j, hi, hj, rfl, rfl, rfl⟩ := h.image_of_mem_arcsFrom hc hs hb hw
    refine ⟨_, rfl, (entriesAt_perm hc hs f.num (f.num j) (f.num i)).trans ?_⟩
    exact (h.filter_num_perm hc hs hb ha hi (hi.step hj)).map _
  ranked := h.ranked hc hs hb

end

theorem leftMerge_ok [LogWeight W] [DefinedSums W] {a : Automaton W} (ha : a.WellFormed)
    (hc : a.Acyclic) : ∃ b q, a.leftMerge = .ok b ∧ b.WellFormed ∧ a.Merges b q := by
  obtain ⟨order, f, -, hf, hs, h⟩ := prefixGraph_ok ha
  obtain ⟨b, place, hb, hr⟩ := PrefixGraph.replay_ok (h.sound hc hs ha)
  refine ⟨b, _, ?_, hr.wellFormed, h.merges hc hs hr ha⟩
  rw [leftMerge, hf, ok_bind, hb]

end LogAutomata.Automaton
