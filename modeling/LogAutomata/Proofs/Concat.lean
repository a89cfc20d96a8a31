import LogAutomata.Proofs.Splices
import LogAutomata.Proofs.UnionWalks
import LogAutomata.Proofs.Weighted
import Mathlib.Data.List.Forall2

/-!
# The walks of a concatenation

A row of walks, one of each input, is a walk of the concatenation. It can be taken apart
again, since each link tells its input. There are no other walks if no walk can go back: at
the state between two inputs, a walk that has come from the second one could go on in the
first one, unless no link leaves Final of the first or none enters Init of the second.
-/

namespace LogAutomata.Automaton

variable {W : Type}

-- ---------------------------------------------------------------------------
-- Rows of walks
-- ---------------------------------------------------------------------------

/-- These are walks from Init to Final of the automata, one of each in their order. -/
abbrev AreWalks (as : List (Automaton W)) (pss : List (List Place)) : Prop :=
  List.Forall₂ (fun a ps => a.IsWalk 0 ps 1) as pss

abbrev WalkRow (as : List (Automaton W)) := { pss : List (List Place) // AreWalks as pss }

def strung (part : Nat → Part W) : Nat → List (List Place) → List Place
  | _, [] => []
  | k, ps :: pss => ps.map (part k).place ++ strung part (k + 1) pss

def ModelsFrom (part : Nat → Part W) : Nat → List (Automaton W) → Prop
  | _, [] => True
  | k, a :: as => (part k).model = a ∧ ModelsFrom part (k + 1) as

theorem modelsFrom_of_get {part : Nat → Part W} {as : List (Automaton W)} {k : Nat}
    (h : ∀ i a, as[i]? = some a → (part (k + i)).model = a) : ModelsFrom part k as := by
  induction as generalizing k with
  | nil => trivial
  | cons a as ih =>
    refine ⟨h 0 a rfl, ih fun i b hb => ?_⟩
    rw [Nat.add_right_comm]
    exact h (i + 1) b hb

-- ---------------------------------------------------------------------------
-- What is heard in a copy
-- ---------------------------------------------------------------------------

variable [LogWeight W]

theorem Spans.heard {c : Automaton W} {p : Part W} {s t : Nat} (h : c.Spans p s t) {i : Nat}
    (hi : i < p.model.size) : c.heard (p.source i) = p.model.heard i := by
  have same := h.symbolAt i hi
  rcases i with _ | _ | i
  · rw [heard_of_symbol_nil (same.trans h.model.symbolAt_zero), heard_of_lt_two Nat.two_pos]
  · rw [heard_of_symbol_nil (same.trans h.model.symbolAt_one), heard_of_lt_two Nat.one_lt_two]
  · have two : 2 ≤ i + 1 + 1 := Nat.le_add_left 2 i
    rw [heard_of_two_le two, heard_of_two_le (h.two_le _ two), same]

namespace Splices

variable {c : Automaton W} {part : Nat → Part W} {joint : Nat → Nat} {n k : Nat}
  (h : c.Splices part joint n)
include h

theorem model (k : Nat) : (part k).model.WellFormed := by
  by_cases hk : k < n
  · exact (h.spans k hk).model
  · rw [h.none k (Nat.le_of_not_lt hk)]
    exact .empty

theorem lt_of_arrival {x : Place} {m : Nat} (hx : (part k).model.arrival x = some m) : k < n := by
  refine Nat.lt_of_not_le fun hk => ?_
  rw [h.none k hk] at hx
  exact not_arrival_none hx

theorem exists_arrival_place {y : Place} {j : Nat} (hy : c.arrival y = some j) :
    ∃ k x m, k < n ∧ (part k).model.arrival x = some m ∧ x.state < (part k).model.size ∧
      m < (part k).model.size ∧ (part k).place x = y ∧ (part k).source m = j := by
  obtain ⟨k, x, m, hx, hs, hm, hp, rfl⟩ := h.madeOf.exists_arrival h.wellFormed h.model hy
  have hk := h.lt_of_arrival hx
  exact ⟨k, x, m, hk, hx, hs, hm, hp, by rw [(h.spans k hk).target_eq]⟩

theorem isWalk_map (hk : k < n) {ps : List Place} (hp : (part k).model.IsWalk 0 ps 1) :
    c.IsWalk (joint k) (ps.map (part k).place) (joint (k + 1)) := by
  have hs := h.spans k hk
  have := h.madeOf.isWalk_map h.wellFormed hs.model hs.target_eq hp
  rwa [hs.init, hs.final] at this

theorem reading_map (hk : k < n) {i j : Nat} {ps : List Place}
    (hp : (part k).model.IsWalk i ps j) :
    c.reading (ps.map (part k).place) = (part k).model.reading ps := by
  have hs := h.spans k hk
  rw [reading_eq_flatMap, reading_eq_flatMap, h.madeOf.entered_map h.wellFormed hs.model hp,
    List.flatMap_map, hs.target_eq]
  exact List.flatMap_congr fun m hm => hs.heard (hp.path.lt_size hm)

-- ---------------------------------------------------------------------------
-- From rows to walks
-- ---------------------------------------------------------------------------

section
variable {bs : List (Automaton W)} {pss : List (List Place)} (hb : ModelsFrom part k bs)
  (hf : AreWalks bs pss)
include hb hf

theorem isWalk_strung (hk : k + bs.length = n) :
    c.IsWalk (joint k) (strung part k pss) (joint n) := by
  induction hf generalizing k with
  | nil =>
    obtain rfl : k = n := hk
    exact .nil _
  | cons hp _ ih =>
    obtain ⟨rfl, hb⟩ := hb
    rw [List.length_cons] at hk
    exact (h.isWalk_map (by omega) hp).append (ih hb (by omega))

theorem reading_strung (hk : k + bs.length = n) :
    c.reading (strung part k pss) = (List.zipWith reading bs pss).flatten := by
  induction hf generalizing k with
  | nil => rfl
  | cons hp _ ih =>
    obtain ⟨rfl, hb⟩ := hb
    rw [List.length_cons] at hk
    rw [strung, reading_append, h.reading_map (by omega) hp, ih hb (by omega)]
    rfl

omit h in
theorem exists_of_mem_strung (wf : ∀ k, (part k).model.WellFormed) {y : Place}
    (hy : y ∈ strung part k pss) :
    ∃ l x e, k ≤ l ∧ (part l).model.arcAt x = some e ∧ (part l).place x = y := by
  induction hf generalizing k with
  | nil => cases hy
  | cons hp _ ih =>
    obtain ⟨rfl, hb⟩ := hb
    rcases List.mem_append.1 hy with hy | hy
    · obtain ⟨x, hx, rfl⟩ := List.mem_map.1 hy
      obtain ⟨e, he⟩ := hp.exists_arcAt (wf k) x hx
      exact ⟨k, x, e, Nat.le_refl k, he, rfl⟩
    · obtain ⟨l, x, e, hl, hx, hxy⟩ := ih hb hy
      exact ⟨l, x, e, Nat.le_of_succ_le hl, hx, hxy⟩

theorem strung_inj {qss : List (List Place)}
    (hf' : AreWalks bs qss)
    (he : strung part k pss = strung part k qss) : pss = qss := by
  induction hf generalizing k qss with
  | nil =>
    cases hf'
    rfl
  | @cons a ps bs pss hp hf ih =>
    cases hf' with | cons hq hf' => ?_
    obtain ⟨rfl, hb⟩ := hb
    -- the links of later parts are none of this part
    have later : ∀ rss, AreWalks bs rss → ∀ y ∈ (strung part (k + 1) rss).head?,
        ∀ x e, (part k).model.arcAt x = some e → (part k).place x ≠ y := by
      intro rss hr y hy x e hx hxy
      obtain ⟨l, z, f, hl, hz, rfl⟩ := exists_of_mem_strung hb hr h.model (List.mem_of_mem_head? hy)
      obtain ⟨rfl, -⟩ := h.madeOf.apart k l x z e f hx hz hxy
      omega
    obtain ⟨rfl, tails⟩ := h.madeOf.map_place_append_inj (hp.exists_arcAt (h.model k))
      (hq.exists_arcAt (h.model k)) (later _ hf) (later _ hf') he
    rw [ih hb hf' tails]

end

-- ---------------------------------------------------------------------------
-- From walks to rows
-- ---------------------------------------------------------------------------

/-- What is left of a walk leads to the end of the input and through the inputs behind it. It
cannot go back: having come back to Init, it has taken a link that enters Init, and then none
leaves Final of the input before. -/
theorem exists_strung
    (side : ∀ k, k + 1 < n →
      (part k).model.successors 1 = [] ∨ ∀ i, 0 ∉ (part (k + 1)).model.successors i)
    {bs : List (Automaton W)} (hb : ModelsFrom part (k + 1) bs) (hk : k + 1 + bs.length = n)
    {i : Nat} (hi : i < (part k).model.size)
    (come : i = 0 → k = 0 ∨ ∃ j, 0 ∈ (part k).model.successors j) {ys : List Place}
    (hw : c.IsWalk ((part k).source i) ys (joint n)) :
    ∃ xs pss, (part k).model.IsWalk i xs 1 ∧ AreWalks bs pss ∧
      xs.map (part k).place ++ strung part (k + 1) pss = ys := by
  induction ys generalizing k i bs with
  | nil =>
    obtain ⟨m, rfl⟩ : ∃ m, n = m + 1 := Nat.exists_eq_succ_of_ne_zero (by omega)
    have hm := h.spans m (Nat.lt_succ_self m)
    have final : (part k).source i = (part m).source 1 := (isWalk_nil_iff.1 hw).trans hm.final.symm
    have := h.meet k m i 1 (by omega) (Nat.lt_succ_self m) hi hm.model.two_le_size final
    obtain rfl : i = 1 := by omega
    obtain rfl : bs = [] := List.eq_nil_of_length_eq_zero (by omega)
    exact ⟨[], [], .nil 1, .nil, rfl⟩
  | cons y ys ih =>
    obtain ⟨hy, t, ht, rest⟩ := isWalk_cons_iff.1 hw
    obtain ⟨l, ⟨s, p⟩, j, hl, hx, hs, hj, rfl, rfl⟩ := h.exists_arrival_place ht
    have hj' := mem_successors_of_arrival hx
    have source : (part l).source s = (part k).source i := hy
    rcases h.meet l k s i hl (by omega) hs hi source with
      ⟨rfl, rfl⟩ | ⟨rfl, rfl, rfl⟩ | ⟨rfl, rfl, rfl⟩
    · -- on in this input
      obtain ⟨xs, pss, hxs, hpss, rfl⟩ := ih hb hk hj (fun h0 => .inr ⟨s, h0 ▸ hj'⟩) rest
      exact ⟨⟨s, p⟩ :: xs, pss, isWalk_cons_iff.2 ⟨rfl, j, hx, hxs⟩, hpss, rfl⟩
    · -- back to the input before
      rcases come rfl with h0 | ⟨r, hr⟩
      · omega
      · rcases side l (by omega) with none | none
        · rw [none] at hj'
          cases hj'
        · exact absurd hr (none r)
    · -- into the input behind
      cases bs with
      | nil =>
        rw [List.length_nil] at hk
        omega
      | cons b bs =>
        obtain ⟨rfl, hb⟩ := hb
        rw [List.length_cons] at hk
        obtain ⟨xs, pss, hxs, hpss, rfl⟩ := ih hb (by omega) hj (fun h0 => .inr ⟨0, h0 ▸ hj'⟩) rest
        exact ⟨[], (⟨0, p⟩ :: xs) :: pss, .nil 1,
          .cons (isWalk_cons_iff.2 ⟨rfl, j, hx, hxs⟩) hpss, rfl⟩

end Splices

-- ---------------------------------------------------------------------------
-- The correspondence
-- ---------------------------------------------------------------------------

theorem Splices.walkWeight_strung {c : Automaton ExactWeight} {part : Nat → Part ExactWeight}
    {joint : Nat → Nat} {n k : Nat} (h : c.Splices part joint n)
    {bs : List (Automaton ExactWeight)} {pss : List (List Place)} (hb : ModelsFrom part k bs)
    (hf : AreWalks bs pss) :
    c.walkWeight (strung part k pss) = (List.zipWith walkWeight bs pss).sum := by
  induction hf generalizing k with
  | nil => rfl
  | cons hp _ ih =>
    obtain ⟨rfl, hb⟩ := hb
    rw [strung, walkWeight_append, ih hb, walkWeight_eq_sum,
      h.madeOf.weights_map h.wellFormed (h.model k) hp, ← walkWeight_eq_sum]
    rfl

/-- The walks of a concatenation are the rows of walks of its inputs, if at every joint no link
leaves Final of the one input or none enters Init of the other. -/
theorem concat_walks {as : List (Automaton ExactWeight)} (hne : as ≠ []) (ha : ∀ a ∈ as, a.Built)
    (side : as.IsChain fun a b => a.successors 1 = [] ∨ ∀ i, 0 ∉ b.successors i) :
    ∃ c, concat as = .ok c ∧ ∃ f : WalkRow as → c.AcceptingWalk, f.Bijective ∧
      ∀ w, c.reading (f w).1 = (List.zipWith reading as w.1).flatten ∧
        c.walkWeight (f w).1 = (List.zipWith walkWeight as w.1).sum := by
  obtain ⟨c, part, joint, hc, h, last, hn⟩ := concat_ok (fun a h => (ha a h).wellFormed) hne
  have models : ModelsFrom part 0 as := modelsFrom_of_get fun i a hi => by
    rw [Nat.zero_add]
    exact hn.model i a hi
  have side : ∀ k, k + 1 < as.length →
      (part k).model.successors 1 = [] ∨ ∀ i, 0 ∉ (part (k + 1)).model.successors i := by
    intro k hk
    rw [hn.model k _ (List.getElem?_eq_getElem (Nat.lt_of_succ_lt hk)),
      hn.model (k + 1) _ (List.getElem?_eq_getElem hk)]
    exact List.isChain_iff_getElem.1 side k hk
  have walk : ∀ w : WalkRow as, c.IsWalk 0 (strung part 0 w.1) 1 := fun w => by
    have := h.isWalk_strung models w.2 (Nat.zero_add _)
    rwa [h.start, last] at this
  refine ⟨c, hc, fun w => ⟨_, walk w⟩, ⟨fun v w he => ?_, fun ⟨ys, hy⟩ => ?_⟩, fun w =>
    ⟨h.reading_strung models w.2 (Nat.zero_add _), h.walkWeight_strung models w.2⟩⟩
  · exact Subtype.ext (h.strung_inj models v.2 w.2 (Subtype.mk.inj he))
  · cases as with
    | nil => exact absurd rfl hne
    | cons a as =>
      obtain ⟨rfl, rest⟩ := models
      have first := h.spans 0 (Nat.succ_pos _)
      have inside := Nat.lt_of_lt_of_le Nat.two_pos first.model.two_le_size
      rw [← h.start, ← first.init, ← last] at hy
      obtain ⟨xs, pss, hxs, hpss, rfl⟩ := h.exists_strung side rest
        (by rw [Nat.zero_add, Nat.add_comm, List.length_cons]) inside (fun _ => .inl rfl) hy
      exact ⟨⟨xs :: pss, .cons hxs hpss⟩, rfl⟩

-- ---------------------------------------------------------------------------
-- Ways back
-- ---------------------------------------------------------------------------

def returning : Automaton ExactWeight :=
  knotted [⟨0, 2, .finite 0⟩, ⟨2, 1, .finite 1⟩, ⟨1, 2, .impossible⟩]

def restarting : Automaton ExactWeight :=
  knotted [⟨0, 2, .finite 0⟩, ⟨2, 0, .finite 1⟩, ⟨2, 1, .finite 0⟩]

theorem returning_built : returning.Built :=
  knotted_built (by simp [LogWeight.isUndefined, ExactWeight.isUndefined])

theorem restarting_built : restarting.Built :=
  knotted_built (by simp [LogWeight.isUndefined, ExactWeight.isUndefined])

/-- Links leave Final of the first and enter Init of the last, but not where these are next to
each other. -/
def threefold : List (Automaton ExactWeight) := [returning, forth, restarting]

theorem threefold_isChain :
    threefold.IsChain fun a b => a.successors 1 = [] ∨ ∀ i, 0 ∉ b.successors i := by
  have none : ∀ r ∈ forth.arcs, r.dest ≠ 0 := by decide
  refine .cons_cons (.inr fun i hi => ?_) (.cons_cons (.inl rfl) (.singleton _))
  obtain ⟨w, hw⟩ := mem_successors_iff_mem_arcs.1 hi
  exact none _ hw rfl

def overThreefold : WalkRow threefold where
  val := [[⟨0, 0⟩, ⟨2, 0⟩, ⟨1, 0⟩, ⟨2, 0⟩], [⟨0, 0⟩, ⟨2, 0⟩], [⟨0, 0⟩, ⟨2, 0⟩, ⟨0, 0⟩, ⟨2, 1⟩]]
  property := by
    have once : returning.IsWalk 1 [⟨1, 0⟩, ⟨2, 0⟩] 1 :=
      .cons (j := 2) rfl (.cons (j := 1) rfl (.nil 1))
    have onward : restarting.IsWalk 0 [⟨0, 0⟩, ⟨2, 1⟩] 1 :=
      .cons (j := 2) rfl (.cons (j := 1) rfl (.nil 1))
    refine .cons ?_ (.cons ?_ (.cons ?_ .nil))
    · exact .cons (j := 2) rfl (.cons (j := 1) rfl once)
    · exact .cons (j := 2) rfl (.cons (j := 1) rfl (.nil 1))
    · exact .cons (j := 2) rfl (.cons (j := 0) rfl onward)

theorem concat_threefold : ∃ c, concat threefold = .ok c ∧
    ∃ f : WalkRow threefold → c.AcceptingWalk, f.Bijective ∧
      c.reading (f overThreefold).1 = [knot, knot, knot, knot, knot] ∧
      c.walkWeight (f overThreefold).1 = .impossible := by
  have built : ∀ a ∈ threefold, a.Built := by
    simp [threefold, returning_built, forth_built, restarting_built]
  obtain ⟨c, hc, f, hf, hw⟩ := concat_walks (List.cons_ne_nil _ _) built threefold_isChain
  exact ⟨c, hc, f, hf, (hw overThreefold).1, (hw overThreefold).2⟩

end LogAutomata.Automaton
