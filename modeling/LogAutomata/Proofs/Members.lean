import LogAutomata.Proofs.Minimize
import LogAutomata.Proofs.Quotient
import LogAutomata.Proofs.Sums

/-!
# Where states are folded

Every node of a prefix graph knows its members and has a place in the merged automaton, so
each state that Init reaches is folded into one state of the result. The result is the
quotient of what Init reaches, and the prefixes that lead to a state are those that lead to
where it is folded.
-/

namespace LogAutomata.Automaton

variable {W : Type} [LogWeight W]

-- ---------------------------------------------------------------------------
-- Members
-- ---------------------------------------------------------------------------

/-- The state at `i` is a member of a node that stands at `k` in the merged automaton. The
root has no members and stands for Init. -/
def FoldsInto (a : Automaton W) (i k : Nat) : Prop :=
  i = 0 ∧ k = 0 ∨ ∃ g n, a.prefixGraph = .ok g ∧ (i : Int) ∈ g.members n ∧
    (placeNodes g.nodes.toList).2[n]? = some k

section
variable {a b : Automaton W} (hc : a.Acyclic) {order : List Nat} (hs : a.Sorted order)
  {f : Folding W} (h : a.Folded order order.tail f)
include hc hs h

/-- The members of a node are the states with its number. Only Init has no link by which it
could become one. -/
theorem Folded.mem_members_iff {i k : Nat} :
    (i : Int) ∈ f.graph.members k ↔ i ≠ 0 ∧ a.Reaches 0 i ∧ f.num i = k := by
  rw [h.members]
  constructor
  · rintro ⟨j, hj, hji, hk, hne⟩
    obtain rfl := Int.ofNat_inj.1 hji
    obtain ⟨r, hr⟩ := List.exists_mem_of_ne_nil _ hne
    obtain ⟨h0, hi⟩ := reaches_of_mem_into hc hs hr
    exact ⟨h0, hi, hk⟩
  · rintro ⟨h0, hi, hk⟩
    obtain ⟨r, hr⟩ := exists_mem_into hc hs h0 hi
    exact ⟨i, (mem_tail_iff_reaches hc hs h0).2 hi, rfl, hk, List.ne_nil_of_mem hr⟩

theorem Folded.foldsInto_iff {place : Nat → Nat} (hf : a.prefixGraph = .ok f.graph)
    (hb : f.graph.Replays b place) {i k : Nat} :
    a.FoldsInto i k ↔ a.Reaches 0 i ∧ imageOf a b f place i = k := by
  constructor
  · rintro (⟨rfl, rfl⟩ | ⟨g, n, hg, hi, hk⟩)
    · exact ⟨.refl a 0, h.imageOf_zero hb⟩
    · obtain rfl := Except.ok.inj (hf.symm.trans hg)
      obtain ⟨-, hr, rfl⟩ := (h.mem_members_iff hc hs).1 hi
      rw [hb.places _ (h.num_lt_of_reaches hc hs hr)] at hk
      exact ⟨hr, (imageOf_eq hr).trans (Option.some.inj hk)⟩
  · rintro ⟨hi, rfl⟩
    by_cases h0 : i = 0
    · subst h0
      exact .inl ⟨rfl, h.imageOf_zero hb⟩
    · refine .inr ⟨f.graph, f.num i, hf, (h.mem_members_iff hc hs).2 ⟨h0, hi, rfl⟩, ?_⟩
      rw [hb.places _ (h.num_lt_of_reaches hc hs hi), imageOf_eq hi]

end

/-- The map by which a merge is a quotient is the one that says where states are folded. -/
theorem leftMerge_folds [DefinedSums W] {a : Automaton W} (ha : a.WellFormed) (hc : a.Acyclic) :
    ∃ b q, a.leftMerge = .ok b ∧ a.Merges b q ∧
      ∀ i k, a.FoldsInto i k ↔ a.Reaches 0 i ∧ q i = k := by
  obtain ⟨order, f, -, hf, hs, h⟩ := prefixGraph_ok ha
  obtain ⟨b, place, hb, hr⟩ := PrefixGraph.replay_ok (h.sound hc hs ha)
  refine ⟨b, _, ?_, h.merges hc hs hr ha, fun i k => h.foldsInto_iff hc hs hf hr⟩
  rw [leftMerge, hf, ok_bind, hb]

-- ---------------------------------------------------------------------------
-- Prefixes
-- ---------------------------------------------------------------------------

def SpellsTo (a : Automaton W) (i : Nat) (symbols : List Symbol) : Prop :=
  ∃ ps, a.IsWalk 0 ps i ∧ a.spelling ps = symbols

omit [LogWeight W] in
theorem spellsTo_iff {a : Automaton W} {i : Nat} {s : List Symbol} :
    a.SpellsTo i s ↔ ∃ js, a.Path 0 js i ∧ a.spell js = s := by
  constructor
  · rintro ⟨ps, hp, rfl⟩
    exact ⟨_, hp.path, rfl⟩
  · rintro ⟨js, hp, rfl⟩
    obtain ⟨ps, hw, rfl⟩ := hp.exists_walk
    exact ⟨ps, hw, rfl⟩

omit [LogWeight W] in
theorem accepts_iff_spells {a : Automaton W} {s : List Symbol} :
    a.Accepts s ↔ ∃ t, a.Spells t ∧ (t.filter fun x => !x.isNil) = s := by
  constructor
  · rintro ⟨ps, hp, rfl⟩
    exact ⟨a.spelling ps, ⟨ps, hp, rfl⟩, rfl⟩
  · rintro ⟨-, ⟨ps, hp, rfl⟩, rfl⟩
    exact ⟨ps, hp, rfl⟩

/-- Every state that Init reaches is folded into one state of `b`, and whatever leads to it
leads there and nothing else does. -/
structure KeepsPrefixes (a b : Automaton W) : Prop where
  folded : ∀ i, a.Reaches 0 i → ∃! k, a.FoldsInto i k
  spellsTo_iff : ∀ i k, a.FoldsInto i k → ∀ s, b.SpellsTo k s ↔ a.SpellsTo i s
  together : ∀ i j k, a.FoldsInto i k → a.FoldsInto j k → ∀ s, a.SpellsTo i s ↔ a.SpellsTo j s
  spells_iff : ∀ s, b.Spells s ↔ a.Spells s
  accepts_iff : ∀ s, b.Accepts s ↔ a.Accepts s

theorem Merges.keepsPrefixes {a b : Automaton W} {q : Nat → Nat} (h : a.Merges b q)
    (hc : a.Acyclic) (folds : ∀ i k, a.FoldsInto i k ↔ a.Reaches 0 i ∧ q i = k) :
    a.KeepsPrefixes b := by
  have same : ∀ i k, a.FoldsInto i k → ∀ s, b.SpellsTo k s ↔ a.SpellsTo i s := by
    intro i k hk s
    obtain ⟨hi, rfl⟩ := (folds i k).1 hk
    rw [spellsTo_iff, spellsTo_iff, h.spell_iff hc hi]
  refine ⟨fun i hi => ?_, same, fun i j k hi hj s => ?_, h.spells_iff hc, fun s => ?_⟩
  · exact ⟨q i, (folds i _).2 ⟨hi, rfl⟩, fun k hk => ((folds i k).1 hk).2.symm⟩
  · exact (same i k hi s).symm.trans (same j k hj s)
  · rw [accepts_iff_spells, accepts_iff_spells]
    exact exists_congr fun t => and_congr_left fun _ => h.spells_iff hc t

theorem leftMerge_keepsPrefixes [DefinedSums W] {a : Automaton W} (ha : a.Built)
    (hc : a.Acyclic) : ∃ b, a.leftMerge = .ok b ∧ a.KeepsPrefixes b := by
  obtain ⟨b, q, hb, h, folds⟩ := leftMerge_folds ha.wellFormed hc
  exact ⟨b, hb, h.keepsPrefixes hc folds⟩

theorem leftMerge_keepsPrefixes_diamond :
    ∃ b, (diamond (.finite 0) .impossible).leftMerge = .ok b ∧
      (diamond (.finite 0) .impossible).KeepsPrefixes b :=
  leftMerge_keepsPrefixes (diamond_built rfl rfl) (diamond_acyclic rfl rfl)

-- ---------------------------------------------------------------------------
-- The quotient
-- ---------------------------------------------------------------------------

open Classical in
noncomputable def between (a : Automaton W) (q : Nat → Nat) (k m : Nat) : List W :=
  (a.arcs.filter fun r => a.Reaches 0 r.src ∧ q r.src = k ∧ q r.dest = m).map Arc.weight

/-- `b` is the quotient by `q` of what Init reaches in `a`. Final may stand in it alone. -/
structure IsQuotient (a b : Automaton W) (q : Nat → Nat) : Prop where
  init : q 0 = 0
  final : a.Reaches 0 1 → q 1 = 1
  lt_size : ∀ i, a.Reaches 0 i → q i < b.size
  onto : ∀ k, k < b.size → (∃ i, a.Reaches 0 i ∧ q i = k) ∨
    k = 1 ∧ ¬a.Reaches 0 1 ∧ b.successors 1 = [] ∧ ∀ m, 1 ∉ b.successors m
  symbolAt : ∀ i, a.Reaches 0 i → b.symbolAt (q i) = a.symbolAt i
  /-- States are folded together exactly if they have the same symbol, are entered from the
  same images, and are both Final or both not. -/
  eq_iff : ∀ i j, i ≠ 0 → j ≠ 0 → a.Reaches 0 i → a.Reaches 0 j →
    (q i = q j ↔ a.symbolAt i = a.symbolAt j ∧ (i = 1 ↔ j = 1) ∧
      ∀ k, (∃ p, a.Reaches 0 p ∧ i ∈ a.successors p ∧ q p = k) ↔
        ∃ p, a.Reaches 0 p ∧ j ∈ a.successors p ∧ q p = k)
  /-- All links between two images become one, which has their log-sum. -/
  linked : ∀ i j, a.Reaches 0 i → j ∈ a.successors i →
    ((b.arcsFrom (q i)).filter fun e => e.1 = q j) = [(q j, logSum (a.between q (q i) (q j)))]
  unlinked : ∀ k m, m ∈ b.successors k →
    ∃ i j, a.Reaches 0 i ∧ j ∈ a.successors i ∧ q i = k ∧ q j = m

namespace Merges
variable {a b : Automaton W} {q : Nat → Nat} (h : a.Merges b q)
include h

theorem between_perm {i : Nat} (hi : a.Reaches 0 i) {m : Nat} {w : W}
    (hw : (m, w) ∈ b.arcsFrom (q i)) : ∃ ws, w = logSum ws ∧ ws.Perm (a.between q (q i) m) := by
  classical
  obtain ⟨ws, hws, hp⟩ := h.weight _ _ _ hw
  refine ⟨ws, hws, hp.trans (.map _ (.of_eq (List.filter_congr fun r _ => ?_)))⟩
  rw [decide_eq_decide]
  refine ⟨fun ⟨hk, hm⟩ => ⟨?_, hk, hm⟩, fun ⟨_, hk, hm⟩ => ⟨hk, hm⟩⟩
  exact (h.lt_size_iff _).1 (hk ▸ (h.lt_size_iff _).2 hi)

theorem final_alone (h1 : ¬a.Reaches 0 1) :
    b.successors 1 = [] ∧ ∀ m, 1 ∉ b.successors m := by
  constructor
  · refine List.eq_nil_iff_forall_not_mem.2 fun m hm => ?_
    obtain ⟨i, j, hi, -, he, -⟩ := (h.mem_successors_iff 1 m).1 hm
    exact h1 ((h.eq_one_iff hi).1 he ▸ hi)
  · intro m hm
    obtain ⟨i, j, hi, hj, -, he⟩ := (h.mem_successors_iff m 1).1 hm
    exact h1 ((h.eq_one_iff (hi.step hj)).1 he ▸ hi.step hj)

theorem isQuotient [@Std.Commutative W logAdd] [@Std.Associative W logAdd] :
    a.IsQuotient b q where
  init := h.init
  final := h.final
  lt_size i hi := (h.lt_size_iff i).2 hi
  onto k hk := by
    by_cases h1 : k = 1 ∧ ¬a.Reaches 0 1
    · exact .inr ⟨h1.1, h1.2, h.final_alone h1.2⟩
    · by_cases hk1 : k = 1
      · have hr : a.Reaches 0 1 := not_not.1 fun hr => h1 ⟨hk1, hr⟩
        exact .inl ⟨1, hr, (h.final hr).trans hk1.symm⟩
      · exact .inl (h.exists_image hk hk1)
  symbolAt := h.symbolAt
  eq_iff := h.eq_iff
  linked i j hi hj := by
    obtain ⟨w, hw⟩ := Automaton.mem_successors_iff.1 (h.step hi hj)
    obtain ⟨ws, rfl, hp⟩ := h.between_perm hi hw
    have hn := h.nodup (q i)
    rw [successors_eq] at hn
    rw [← logSum_perm hp]
    exact filter_fst_eq_singleton hn hw
  unlinked k m := (h.mem_successors_iff k m).1

end Merges

/-- Merging from the left makes the quotient, by the map that says where states are folded. -/
theorem leftMerge_isQuotient {a : Automaton ExactWeight} (ha : a.Built) (hc : a.Acyclic) :
    ∃ b q, a.leftMerge = .ok b ∧ (∀ i k, a.FoldsInto i k ↔ a.Reaches 0 i ∧ q i = k) ∧
      a.IsQuotient b q := by
  obtain ⟨b, q, hb, h, folds⟩ := leftMerge_folds ha.wellFormed hc
  exact ⟨b, q, hb, folds, h.isQuotient⟩

theorem leftMerge_isQuotient_diamond : ∃ b q,
    (diamond (.finite 0) .infinite).leftMerge = .ok b ∧
      (∀ i k, (diamond (.finite 0) .infinite).FoldsInto i k ↔
        (diamond (.finite 0) .infinite).Reaches 0 i ∧ q i = k) ∧
      (diamond (.finite 0) .infinite).IsQuotient b q :=
  leftMerge_isQuotient (diamond_built rfl rfl) (diamond_acyclic rfl rfl)

end LogAutomata.Automaton
