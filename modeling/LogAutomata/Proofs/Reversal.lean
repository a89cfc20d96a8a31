import LogAutomata.Proofs.Coalesced
import LogAutomata.Proofs.Numbering

/-!
# Transposition turns walks around

Transposition hands each link on to another state. Links between the same two states stay in
their order, and of the order of other links nothing is left: they come in the order of the
states from which they led. So a second transposition brings all links back, sorted by where
they lead, and a third one gives the same automaton as the first. A walk backwards takes the
links of the walk, each turned around.
-/

namespace LogAutomata.Automaton

variable {W : Type} {a b c d : Automaton W}

-- ---------------------------------------------------------------------------
-- Parallel links
-- ---------------------------------------------------------------------------

def weightsTo (a : Automaton W) (i j : Nat) : List W := entriesAt (a.arcsFrom i) j

/-- Between any two states the links are turned around, in their order. -/
def Flips (a b : Automaton W) : Prop :=
  ∀ i j, b.weightsTo (mirror j) (mirror i) = a.weightsTo i j

theorem Flips.symm (h : a.Flips b) : b.Flips a := by
  intro i j
  rw [← h, mirror_mirror, mirror_mirror]

theorem Flips.trans (h : a.Flips b) (h' : b.Flips c) (i j : Nat) :
    c.weightsTo i j = a.weightsTo i j := by
  rw [← h, ← h', mirror_mirror, mirror_mirror]

theorem Transposes.flips (h : a.Transposes b) : a.Flips b := by
  intro i j
  rw [weightsTo, weightsTo, h.arcsFrom, ← filter_src_arcs a i, entriesAt, entriesAt,
    List.filter_map, List.filter_map, List.map_map, List.map_map, List.filter_filter,
    List.filter_filter]
  refine congrArg (List.map Arc.weight) (List.filter_congr fun r _ => ?_)
  rw [Bool.eq_iff_iff]
  simp only [Function.comp, mirror_inj, Bool.and_eq_true, decide_eq_true_eq, beq_iff_eq, and_comm]

theorem filter_dest_arcs {α : Type} (a : Automaton W) (j : Nat) (f : Arc W → α) :
    (a.arcs.filter (·.dest == j)).map f =
      (List.range a.size).flatMap fun i => (a.weightsTo i j).map fun w => f ⟨i, j, w⟩ := by
  rw [arcs, arcsOf, List.filter_flatMap, List.map_flatMap]
  refine List.flatMap_congr fun i _ => ?_
  rw [weightsTo, entriesAt, List.filter_map, List.map_map, List.map_map]
  refine List.map_congr_left fun e he => ?_
  have : e.1 = j := by simpa using (List.mem_filter.1 he).2
  simp only [Function.comp, this]

theorem Transposes.arcsFrom_eq (h : a.Transposes b) (j : Nat) : b.arcsFrom (mirror j) =
    (List.range a.size).flatMap fun i => (a.weightsTo i j).map fun w => (mirror i, w) := by
  rw [h.arcsFrom, filter_dest_arcs]

/-- Of the order of links, transposition sees only that between the same two states. -/
theorem Transposes.arcsFrom_congr (h : a.Transposes b) (h' : c.Transposes d)
    (size_eq : c.size = a.size) (same : ∀ i j, c.weightsTo i j = a.weightsTo i j) (i : Nat) :
    d.arcsFrom i = b.arcsFrom i := by
  rw [← mirror_mirror i, h'.arcsFrom_eq, h.arcsFrom_eq, size_eq]
  simp only [same]

theorem arcsFrom_perm (a : Automaton W) (i : Nat) :
    ((List.range a.size).flatMap fun j => (a.weightsTo i j).map fun w => (j, w)).Perm
      (a.arcsFrom i) := by
  refine .trans (.of_eq (List.flatMap_congr fun j _ => ?_)) (flatMap_filter_perm List.nodup_range
    (f := Prod.fst) fun e he => List.mem_range.2 (dest_lt_size he))
  rw [weightsTo, entriesAt, List.map_map]
  refine (List.map_congr_left fun e he => ?_).trans (List.map_id _)
  have : e.1 = j := by simpa using (List.mem_filter.1 he).2
  rw [← this]
  rfl

theorem arcsFrom_perm_of_weightsTo (size_eq : c.size = a.size)
    (same : ∀ i j, c.weightsTo i j = a.weightsTo i j) (i : Nat) :
    (c.arcsFrom i).Perm (a.arcsFrom i) := by
  have sorted := c.arcsFrom_perm i
  rw [size_eq] at sorted
  simp only [same] at sorted
  exact sorted.symm.trans (a.arcsFrom_perm i)

-- ---------------------------------------------------------------------------
-- The places of links that are turned around
-- ---------------------------------------------------------------------------

theorem weightsTo_eq_map (a : Automaton W) (i j : Nat) : a.weightsTo i j =
    ((a.arcsFrom i).zipIdx.filter fun x => x.1.1 = j).map fun x => x.1.2 := by
  have row := List.zipIdx_map_fst 0 (a.arcsFrom i)
  conv_lhs => rw [weightsTo, entriesAt, ← row, List.filter_map, List.map_map]
  rfl

theorem length_placesTo (a : Automaton W) (i j : Nat) :
    (a.placesTo i j).length = (a.weightsTo i j).length := by
  rw [weightsTo_eq_map, placesTo, List.length_map, List.length_map]

theorem getElem?_placesTo {i j n : Nat} {x : Place} (h : (a.placesTo i j)[n]? = some x) :
    ∃ w, (a.weightsTo i j)[n]? = some w ∧ x.state = i ∧ a.arcAt x = some (j, w) := by
  rw [placesTo, List.getElem?_map, Option.map_eq_some_iff] at h
  obtain ⟨⟨⟨k, w⟩, m⟩, hn, rfl⟩ := h
  obtain ⟨hm, hk⟩ := List.mem_filter.1 (List.mem_of_getElem? hn)
  obtain rfl : k = j := of_decide_eq_true hk
  refine ⟨w, ?_, rfl, List.mem_zipIdx_iff_getElem?.1 hm⟩
  rw [weightsTo_eq_map, List.getElem?_map, hn]
  rfl

theorem mem_placesTo_of_arcAt {x : Place} {e : Nat × W} (h : a.arcAt x = some e) :
    x ∈ a.placesTo x.state e.1 := by
  refine List.mem_map.2 ⟨(e, x.number), List.mem_filter.2 ⟨?_, decide_eq_true rfl⟩, rfl⟩
  exact List.mem_zipIdx_iff_getElem?.2 h

/-- The place of a link in the transposed automaton: it has the same number there among the
links between the same two states. -/
def turnPlace (a b : Automaton W) (x : Place) : Place :=
  match a.arcAt x with
  | some (j, _) =>
    ((b.placesTo (mirror j) (mirror x.state))[(a.placesTo x.state j).idxOf x]?).getD x
  | none => x

theorem idxOf_of_getElem? {α : Type} [BEq α] [LawfulBEq α] {xs : List α} (h : xs.Nodup) {n : Nat}
    {x : α} (hx : xs[n]? = some x) : xs.idxOf x = n := by
  obtain ⟨hn, rfl⟩ := List.getElem?_eq_some_iff.1 hx
  exact h.idxOf_getElem n hn

theorem turnPlace_eq {x y : Place} {e : Nat × W} (hx : a.arcAt x = some e) {n : Nat}
    (hn : (a.placesTo x.state e.1)[n]? = some x)
    (hy : (b.placesTo (mirror e.1) (mirror x.state))[n]? = some y) : a.turnPlace b x = y := by
  rw [turnPlace, hx]
  simp only [idxOf_of_getElem? (a.nodup_placesTo x.state e.1) hn, hy, Option.getD_some]

namespace Flips

variable (h : a.Flips b)
include h

theorem turnPlace_spec {x : Place} {j : Nat} {w : W} (hx : a.arcAt x = some (j, w)) :
    (a.turnPlace b x).state = mirror j ∧ b.arcAt (a.turnPlace b x) = some (mirror x.state, w) ∧
      b.turnPlace a (a.turnPlace b x) = x := by
  obtain ⟨n, hn⟩ := List.getElem?_of_mem (mem_placesTo_of_arcAt hx)
  obtain ⟨v, hv, -, hxv⟩ := getElem?_placesTo hn
  obtain rfl : w = v := (Prod.mk.inj (Option.some.inj (hx.symm.trans hxv))).2
  -- there is a link with this number on the other side, and it has the same weight
  rw [← h] at hv
  obtain ⟨y, hy⟩ : ∃ y, (b.placesTo (mirror j) (mirror x.state))[n]? = some y := by
    refine ⟨_, List.getElem?_eq_getElem ?_⟩
    rw [length_placesTo]
    exact (List.getElem?_eq_some_iff.1 hv).1
  obtain ⟨u, hu, hs, hyu⟩ := getElem?_placesTo hy
  obtain rfl : w = u := Option.some.inj (hv.symm.trans hu)
  rw [turnPlace_eq hx hn hy]
  refine ⟨hs, hyu, turnPlace_eq hyu (by rwa [hs]) ?_⟩
  rwa [hs, mirror_mirror, mirror_mirror]

end Flips

-- ---------------------------------------------------------------------------
-- Walks backwards
-- ---------------------------------------------------------------------------

def backwards (a b : Automaton W) (ps : List Place) : List Place :=
  (ps.map (a.turnPlace b)).reverse

namespace Flips

variable [LogWeight W] (h : a.Flips b) (ha : a.WellFormed) (hb : b.WellFormed)
include h ha hb

theorem arrival_turnPlace {x : Place} {j : Nat} (hx : a.arrival x = some j) :
    (a.turnPlace b x).state = mirror j ∧
      b.arrival (a.turnPlace b x) = some (mirror x.state) := by
  obtain ⟨⟨k, w⟩, he, rfl⟩ := ha.arrival_iff_arcAt.1 hx
  obtain ⟨hs, hy, -⟩ := h.turnPlace_spec he
  exact ⟨hs, hb.arrival_iff_arcAt.2 ⟨_, hy, rfl⟩⟩

theorem isWalk_backwards {i k : Nat} {ps : List Place} (hp : a.IsWalk i ps k) :
    b.IsWalk (mirror k) (a.backwards b ps) (mirror i) := by
  induction hp with
  | nil i => exact .nil _
  | @cons i j k n rest hx _ ih =>
    obtain ⟨hs, hy⟩ := h.arrival_turnPlace ha hb hx
    rw [backwards, List.map_cons, List.reverse_cons]
    exact isWalk_concat_iff.2 ⟨hs ▸ ih, hy⟩

/-- The states on the way are those of the walk, the first one included, in reverse. -/
theorem entered_backwards {i k : Nat} {ps : List Place} (hp : a.IsWalk i ps k) :
    mirror k :: b.entered (a.backwards b ps) = ((i :: a.entered ps).map mirror).reverse := by
  induction hp with
  | nil i => rfl
  | @cons i j k n rest hx _ ih =>
    obtain ⟨-, hy⟩ := h.arrival_turnPlace ha hb hx
    rw [backwards, List.map_cons, List.reverse_cons, entered_append, ← List.cons_append]
    change (mirror k :: b.entered (a.backwards b rest)) ++ _ = _
    rw [ih, entered_cons hy, entered_cons hx, List.map_cons (a := i), List.reverse_cons]
    rfl

theorem weights_backwards {i k : Nat} {ps : List Place} (hp : a.IsWalk i ps k) :
    b.weights (a.backwards b ps) = (a.weights ps).reverse := by
  rw [backwards, weights, weights, List.filterMap_reverse, List.filterMap_map]
  refine congrArg List.reverse (List.filterMap_congr fun x hx => ?_)
  obtain ⟨⟨j, w⟩, he⟩ := hp.exists_arcAt ha x hx
  obtain ⟨-, hy, -⟩ := h.turnPlace_spec he
  rw [Function.comp, hb.weight_eq_map, ha.weight_eq_map, he, hy]
  rfl

omit hb in
theorem backwards_backwards {i k : Nat} {ps : List Place} (hp : a.IsWalk i ps k) :
    b.backwards a (a.backwards b ps) = ps := by
  have places : ps.map (b.turnPlace a ∘ a.turnPlace b) = ps := by
    refine (List.map_congr_left fun x hx => ?_).trans (List.map_id ps)
    obtain ⟨⟨j, w⟩, he⟩ := hp.exists_arcAt ha x hx
    exact (h.turnPlace_spec he).2.2
  rw [backwards, backwards, List.map_reverse, List.reverse_reverse, List.map_map, places]

end Flips

-- ---------------------------------------------------------------------------
-- Transposing again
-- ---------------------------------------------------------------------------

variable [LogWeight W]

/-- Transposing twice brings back the states in their order, ids and all, and the links of each
as a multiset. From the first time on nothing changes but back and forth. The walks from Init to
Final are those of the original from the last link to the first. -/
theorem transpose_reverses {a : Automaton W} (h : a.Built) :
    ∃ b c, a.transpose = .ok b ∧ b.transpose = .ok c ∧ c.transpose = .ok b ∧
      b.profiles = a.profiles ∧ c.profiles = a.profiles ∧
      (∀ i, (c.linksFrom i).Perm (a.linksFrom i)) ∧
      ∃ f : a.AcceptingWalk → b.AcceptingWalk, f.Bijective ∧
        ∀ w, (f w).1 = a.backwards b w.1 ∧
          0 :: b.entered (f w).1 = ((0 :: a.entered w.1).map mirror).reverse ∧
          b.weights (f w).1 = (a.weights w.1).reverse := by
  have wa := h.wellFormed
  obtain ⟨b, hb, wb, once⟩ := transpose_ok wa
  obtain ⟨c, hc, wc, twice⟩ := transpose_ok wb
  obtain ⟨d, hd, wd, thrice⟩ := transpose_ok wc
  have pb := profiles_of_transpose wa hb
  have pc := (profiles_of_transpose wb hc).trans pb
  have pd := (profiles_of_transpose wc hd).trans pc
  have size : c.size = a.size := twice.size_eq.trans once.size_eq
  have same := once.flips.trans twice.flips
  have stable : d = b := (grows_of_transpose hd).ext (grows_of_transpose hb) (pd.trans pb.symm)
    (once.arcsFrom_congr thrice size same)
  have back := once.flips.symm
  refine ⟨b, c, hb, hc, stable ▸ hd, pb, pc, fun i => ?_,
    fun w => ⟨a.backwards b w.1, once.flips.isWalk_backwards wa wb w.2⟩,
    ⟨fun v w he => ?_, fun y => ?_⟩, fun w => ⟨rfl, once.flips.entered_backwards wa wb w.2,
      once.flips.weights_backwards wa wb w.2⟩⟩
  · rw [wc.linksFrom_eq, wa.linksFrom_eq]
    exact (arcsFrom_perm_of_weightsTo size same i).map _
  · have he := congrArg (b.backwards a) (Subtype.mk.inj he)
    rw [once.flips.backwards_backwards wa v.2, once.flips.backwards_backwards wa w.2] at he
    exact Subtype.ext he
  · refine ⟨⟨b.backwards a y.1, back.isWalk_backwards wb wa y.2⟩, Subtype.ext ?_⟩
    exact back.backwards_backwards wb y.2

-- ---------------------------------------------------------------------------
-- Links into Init and out of Final
-- ---------------------------------------------------------------------------

/-- Parallel links with another one between them, and ways back to Init and out of Final. -/
def loose : Automaton ExactWeight :=
  ((empty.addState (some 7) ⟨none, some (.text "a")⟩).addState (some 3) .nil).withArcs
    [⟨0, 3, .finite 0⟩, ⟨0, 2, .finite 1⟩, ⟨0, 3, .finite (-1)⟩, ⟨3, 0, .finite (1 + 1)⟩,
      ⟨2, 1, .infinite⟩, ⟨1, 2, .impossible⟩]

theorem loose_built : loose.Built := by
  refine Built.withArcs (.addState _ _ (.addState _ _ .empty)) fun r hr => ?_
  simp only [List.mem_cons, List.not_mem_nil, or_false] at hr
  rcases hr with rfl | rfl | rfl | rfl | rfl | rfl <;> exact ⟨by decide, by decide, rfl⟩

def overLoose : loose.AcceptingWalk where
  val := [⟨0, 2⟩, ⟨3, 0⟩, ⟨0, 1⟩, ⟨2, 0⟩, ⟨1, 0⟩, ⟨2, 0⟩]
  property := .cons (j := 3) rfl (.cons (j := 0) rfl (.cons (j := 2) rfl (.cons (j := 1) rfl
    (.cons (j := 2) rfl (.cons (j := 1) rfl (.nil 1))))))

theorem transpose_reverses_loose :
    ∃ b c, loose.transpose = .ok b ∧ b.transpose = .ok c ∧ c.transpose = .ok b ∧
      (∀ i, (c.linksFrom i).Perm (loose.linksFrom i)) ∧
      ∃ f : loose.AcceptingWalk → b.AcceptingWalk, f.Bijective ∧
        0 :: b.entered (f overLoose).1 = [0, 2, 0, 2, 1, 3, 1] ∧
        b.weights (f overLoose).1 =
          [.infinite, .impossible, .infinite, .finite 1, .finite (1 + 1), .finite (-1)] := by
  obtain ⟨b, c, hb, hc, hd, -, -, links, f, hf, walks⟩ := transpose_reverses loose_built
  obtain ⟨-, states, weights⟩ := walks overLoose
  exact ⟨b, c, hb, hc, hd, links, f, hf, states, weights⟩

end LogAutomata.Automaton
