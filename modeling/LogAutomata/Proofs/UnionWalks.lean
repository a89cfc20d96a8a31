import LogAutomata.ExactWeight
import LogAutomata.Proofs.Sums
import LogAutomata.Proofs.Union

/-!
# The walks of a union

The walks of every input are walks of the union. There are others if a walk can come
back to a sentinel in the middle and go on in another input, and these are all: a walk of
the union roams through the inputs and changes them at sentinels only. The union accepts
no more than its inputs do if all walks between their sentinels lead from Init to Final.
-/

namespace LogAutomata.Automaton

variable {W : Type}

-- ---------------------------------------------------------------------------
-- Walks through several inputs
-- ---------------------------------------------------------------------------

/-- Links in a row to Final, each one of these automata. The next one may be of another
automaton where a link has come to a sentinel. -/
inductive Roams (as : List (Automaton W)) : Nat → List (Fin as.length × Place) → Prop
  | final : Roams as 1 []
  | step {k : Fin as.length} {i j n : Nat} {rest : List (Fin as.length × Place)} :
      (as.get k).arrival ⟨i, n⟩ = some j → (∀ y ∈ rest.head?, j < 2 ∨ y.1 = k) →
      Roams as j rest → Roams as i ((k, ⟨i, n⟩) :: rest)

-- ---------------------------------------------------------------------------
-- Walks that keep to one input
-- ---------------------------------------------------------------------------

/-- All walks of a link or more between sentinels lead from Init to Final. -/
def Sealed (a : Automaton W) : Prop :=
  ∀ i j p ps, i < 2 → j < 2 → a.IsWalk i (p :: ps) j → i = 0 ∧ j = 1

/-- Where no link leads to Init or starts from Final, no walk passes a sentinel. -/
theorem Sealed.of_arcs {a : Automaton W} (h : ∀ r ∈ a.arcs, r.src ≠ 1 ∧ r.dest ≠ 0) :
    a.Sealed := by
  have link : ∀ i, ∀ j ∈ a.successors i, i ≠ 1 ∧ j ≠ 0 := by
    intro i j hj
    obtain ⟨w, hw⟩ := mem_successors_iff_mem_arcs.1 hj
    exact h ⟨i, j, w⟩ hw
  intro i j p ps hi hj hw
  obtain ⟨hp, m, hm, -⟩ := isWalk_cons_iff.1 hw
  have hout := (link _ m (mem_successors_of_arrival hm)).1
  obtain ⟨k, hk⟩ : ∃ k, j ∈ a.successors k := by
    rcases List.eq_nil_or_concat (p :: ps) with hnil | ⟨qs, q, hq⟩
    · cases hnil
    · rw [hq, List.concat_eq_append] at hw
      exact ⟨_, mem_successors_of_arrival (isWalk_concat_iff.1 hw).2⟩
  have hin := (link k j hk).2
  omega

namespace Roams

variable {as : List (Automaton W)} {i : Nat} {ys : List (Fin as.length × Place)}
  {k : Fin as.length}

theorem of_isWalk {xs : List Place} (hw : (as.get k).IsWalk i xs 1) :
    Roams as i (xs.map fun x => (k, x)) := by
  induction xs generalizing i with
  | nil =>
    obtain rfl := isWalk_nil_iff.1 hw
    exact .final
  | cons x xs ih =>
    obtain ⟨rfl, j, hx, hw⟩ := isWalk_cons_iff.1 hw
    refine .step hx (fun y hy => ?_) (ih hw)
    obtain ⟨x', -, rfl⟩ := List.mem_map.1 (List.mem_of_mem_head? hy)
    exact .inr rfl

/-- From inside an input a sentinel is only reached in this input. -/
theorem reaches_sentinel (hy : Roams as i ys) (hk : ∀ y ∈ ys.head?, i < 2 ∨ y.1 = k) :
    ∃ s, s < 2 ∧ (as.get k).Reaches i s := by
  induction hy with
  | final => exact ⟨1, Nat.one_lt_two, .refl _ 1⟩
  | @step l i j n rest hx hnext _ ih =>
    rcases hk _ rfl with hi | rfl
    · exact ⟨i, hi, .refl _ i⟩
    · obtain ⟨s, hs, hr⟩ := ih hnext
      exact ⟨s, hs, (reaches_of_mem_successors (mem_successors_of_arrival hx)).trans hr⟩

variable (hs : as.length = 1 ∨ ∀ a ∈ as, a.Sealed)
include hs

theorem stays {p : Place} {ps : List Place} (hp : (as.get k).IsWalk 0 (p :: ps) i)
    (hy : Roams as i ys) (hk : ∀ y ∈ ys.head?, i < 2 ∨ y.1 = k) :
    ∃ xs, (as.get k).IsWalk i xs 1 ∧ (xs.map fun x => (k, x)) = ys := by
  induction hy generalizing p ps with
  | final => exact ⟨[], .nil 1, rfl⟩
  | @step l i j n rest hx hnext hrest ih =>
    have same : l = k := by
      rcases hs with h1 | hs
      · exact Fin.ext (by omega)
      · rcases hk _ rfl with hi | hl
        · -- the walk is at Final, and from there no input leads back to a sentinel
          obtain ⟨-, rfl⟩ := hs _ (List.get_mem as k) 0 i p ps Nat.two_pos hi hp
          obtain ⟨s, hs2, qs, hq⟩ := hrest.reaches_sentinel hnext
          have := (hs _ (List.get_mem as l) 1 s ⟨1, n⟩ qs Nat.one_lt_two hs2 (.cons hx hq)).1
          omega
        · exact hl
    obtain rfl := same
    obtain ⟨xs, hw, rfl⟩ := ih (isWalk_concat_iff.2 ⟨hp, hx⟩) hnext
    exact ⟨⟨i, n⟩ :: xs, .cons hx hw, rfl⟩

theorem exists_isWalk (hy : Roams as 0 ys) :
    ∃ k xs, (as.get k).IsWalk 0 xs 1 ∧ (xs.map fun x => (k, x)) = ys := by
  cases hy with
  | @step k _ j n rest hx hnext hrest =>
    obtain ⟨xs, hw, rfl⟩ := hrest.stays hs (.cons hx (.nil j)) hnext
    exact ⟨k, ⟨0, n⟩ :: xs, .cons hx hw, rfl⟩

end Roams

abbrev RoamingWalk (as : List (Automaton W)) := { ys // Roams as 0 ys }

namespace RoamingWalk

variable {as : List (Automaton W)}

def ofWalk (w : Σ k, (as.get k).AcceptingWalk) : RoamingWalk as :=
  ⟨w.2.1.map fun x => (w.1, x), .of_isWalk w.2.2⟩

theorem ofWalk_injective : (ofWalk : _ → RoamingWalk as).Injective := by
  rintro ⟨k, xs, hx⟩ ⟨l, zs, hz⟩ he
  have pairs : (xs.map fun x => (k, x)) = zs.map fun z => (l, z) := Subtype.mk.inj he
  -- there is a first link, and it tells the input
  have same : k = l := by
    cases hx with
    | cons => cases hz with
      | cons => exact (Prod.mk.inj (List.cons.inj pairs).1).1
  obtain rfl := same
  obtain rfl : xs = zs := List.map_injective_iff.2 (Prod.mk_right_injective k) pairs
  rfl

theorem ofWalk_surjective (hs : as.length = 1 ∨ ∀ a ∈ as, a.Sealed) :
    (ofWalk : _ → RoamingWalk as).Surjective := by
  rintro ⟨ys, hy⟩
  obtain ⟨k, xs, hw, rfl⟩ := hy.exists_isWalk hs
  exact ⟨⟨k, xs, hw⟩, rfl⟩

def spelling (w : RoamingWalk as) : List Symbol :=
  w.1.flatMap fun y => (as.get y.1).spelling [y.2]

def weights (w : RoamingWalk as) : List W :=
  w.1.flatMap fun y => (as.get y.1).weights [y.2]

theorem spelling_ofWalk (w : Σ k, (as.get k).AcceptingWalk) :
    (ofWalk w).spelling = (as.get w.1).spelling w.2.1 := by
  rw [spelling_eq_flatMap, spelling, ofWalk, List.flatMap_map]

theorem weights_ofWalk (w : Σ k, (as.get k).AcceptingWalk) :
    (ofWalk w).weights = (as.get w.1).weights w.2.1 := by
  rw [weights_eq_flatMap, weights, ofWalk, List.flatMap_map]

end RoamingWalk

theorem exists_spelling_iff {as : List (Automaton W)} {u : Automaton W}
    {f : (Σ k, (as.get k).AcceptingWalk) → u.AcceptingWalk} (onto : f.Surjective)
    (hw : ∀ w, u.spelling (f w).1 = (as.get w.1).spelling w.2.1) (P : List Symbol → Prop) :
    (∃ ps, u.IsWalk 0 ps 1 ∧ P (u.spelling ps)) ↔
      ∃ a ∈ as, ∃ ps, a.IsWalk 0 ps 1 ∧ P (a.spelling ps) := by
  constructor
  · rintro ⟨ps, hp, hP⟩
    obtain ⟨w, he⟩ := onto ⟨ps, hp⟩
    have : u.spelling ps = (as.get w.1).spelling w.2.1 := by rw [← hw, he]
    exact ⟨_, List.get_mem as w.1, w.2.1, w.2.2, this ▸ hP⟩
  · rintro ⟨a, ha, ps, hp, hP⟩
    obtain ⟨k, rfl⟩ := List.get_of_mem ha
    exact ⟨_, (f ⟨k, ps, hp⟩).2, (hw ⟨k, ps, hp⟩).symm ▸ hP⟩

-- ---------------------------------------------------------------------------
-- Where the links of the inputs are
-- ---------------------------------------------------------------------------

variable [LogWeight W]

def glue {n : Nat} (part : Nat → Part W) (y : Fin n × Place) : Place := (part y.1).place y.2

section
variable {as : List (Automaton W)} {part : Nat → Part W} {u : Automaton W} {i j : Nat}
  {ys zs : List (Fin as.length × Place)} (hn : Numbers as part)
include hn

omit [LogWeight W] in
theorem Numbers.model_get (k : Fin as.length) : (part k).model = as.get k :=
  hn.model k _ (List.getElem?_eq_getElem k.2)

theorem Numbers.lt_length {k : Nat} {x : Place} (hx : (part k).model.arrival x = some j) :
    k < as.length := by
  refine Nat.lt_of_not_le fun hk => ?_
  rw [hn.none k hk] at hx
  exact not_arrival_none hx

namespace Unites

variable (h : u.Unites part)
include h

theorem isWalk_glue (hy : Roams as i ys) {k : Nat}
    (hk : ∀ y ∈ ys.head?, i < 2 ∨ (y.1 : Nat) = k) :
    u.IsWalk ((part k).source i) (ys.map (glue part)) 1 := by
  induction hy generalizing k with
  | final => exact isWalk_nil_iff.2 (h.shares k).final
  | @step l i j n rest hx hnext _ ih =>
    have state : (part l).source i = (part k).source i := by
      rcases hk _ rfl with hi | hl
      · rw [(h.shares l).source_sentinel hi, (h.shares k).source_sentinel hi]
      · rw [← hl]
    rw [← hn.model_get] at hx
    have arrival : u.arrival (glue part (l, ⟨i, n⟩)) = some ((part l).source j) := by
      rw [← (h.shares l).target_eq]
      exact h.madeOf.arrival_place h.wellFormed (h.shares l).model hx
    have rest := ih (k := l) fun y hy => (hnext y hy).imp_right (congrArg Fin.val)
    exact isWalk_cons_iff.2 ⟨state, _, arrival, rest⟩

/-- A walk of the union takes links of the inputs, and of one input between sentinels. -/
theorem exists_roams {k : Nat} {ps : List Place} (hi : i < (part k).model.size)
    (hw : u.IsWalk ((part k).source i) ps 1) :
    ∃ ys : List (Fin as.length × Place), Roams as i ys ∧ ys.map (glue part) = ps ∧
      ∀ y ∈ ys.head?, i < 2 ∨ (y.1 : Nat) = k := by
  induction ps generalizing k i with
  | nil =>
    have h1 := isWalk_nil_iff.1 hw
    have hi2 : i < 2 := by
      rw [← h.source_lt_two_iff (k := k), h1]
      exact Nat.one_lt_two
    obtain rfl : i = 1 := (h.shares k).source_sentinel hi2 ▸ h1
    exact ⟨[], .final, rfl, by simp⟩
  | cons p ps ih =>
    obtain ⟨hp, m, hm, rest⟩ := isWalk_cons_iff.1 hw
    obtain ⟨l, ⟨s, n⟩, j, hx, hs, hj, rfl, rfl⟩ := h.exists_arrival_place hm
    have hp : (part l).source s = (part k).source i := hp
    have same : s = i ∧ (i < 2 ∨ l = k) := by
      by_cases hi2 : i < 2
      · have hs2 : s < 2 := by rwa [← h.source_lt_two_iff (k := l), hp, h.source_lt_two_iff]
        rw [(h.shares l).source_sentinel hs2, (h.shares k).source_sentinel hi2] at hp
        exact ⟨hp, .inl hi2⟩
      · have hs2 : ¬s < 2 := by rwa [← h.source_lt_two_iff (k := l), hp, h.source_lt_two_iff]
        obtain ⟨hl, rfl⟩ := h.apart l k s i (by omega) hs (by omega) hi hp
        exact ⟨rfl, .inr hl⟩
    obtain ⟨rfl, hk⟩ := same
    obtain ⟨ys, hys, rfl, hnext⟩ := ih hj rest
    have hl := hn.lt_length hx
    refine ⟨(⟨l, hl⟩, ⟨s, n⟩) :: ys, .step ?_ (fun y hy => (hnext y hy).imp_right Fin.ext) hys,
      rfl, ?_⟩
    · rw [← hn.model_get]
      exact hx
    · rintro y hy
      obtain rfl := Option.some.inj hy
      exact hk

theorem glue_inj (hy : Roams as i ys) (hz : Roams as j zs)
    (he : ys.map (glue part) = zs.map (glue part)) : ys = zs := by
  induction hy generalizing j zs with
  | final => exact (List.map_eq_nil_iff.1 he.symm).symm
  | @step k i j n rest hx _ _ ih =>
    cases hz with
    | final => cases he
    | @step l _ j' m _ hx' _ hz =>
      obtain ⟨hp, he⟩ := List.cons.inj he
      rw [← hn.model_get] at hx hx'
      obtain ⟨e, hxe, -⟩ := (h.shares k).model.arrival_iff_arcAt.1 hx
      obtain ⟨f, hxf, -⟩ := (h.shares l).model.arrival_iff_arcAt.1 hx'
      obtain ⟨hkl, hxx⟩ := h.madeOf.apart k l _ _ e f hxe hxf hp
      rw [Fin.ext hkl, hxx, ih hz he]

omit [LogWeight W] h in
theorem exists_isWalk_single (hy : Roams as i ys) {y : Fin as.length × Place} (hm : y ∈ ys) :
    ∃ j, (part y.1).model.IsWalk y.2.state [y.2] j := by
  induction hy with
  | final => cases hm
  | @step k i j n rest hx _ _ ih =>
    rcases List.mem_cons.1 hm with rfl | hm
    · rw [← hn.model_get] at hx
      exact ⟨j, isWalk_cons_iff.2 ⟨rfl, j, hx, .nil j⟩⟩
    · exact ih hm

theorem spelling_glue (hy : Roams as i ys) : u.spelling (ys.map (glue part)) =
    ys.flatMap fun y => (as.get y.1).spelling [y.2] := by
  rw [spelling_eq_flatMap, List.flatMap_map]
  refine List.flatMap_congr fun y hm => ?_
  obtain ⟨j, hw⟩ := exists_isWalk_single hn hy hm
  rw [← hn.model_get, ← h.spelling_map hw]
  rfl

theorem weights_glue (hy : Roams as i ys) : u.weights (ys.map (glue part)) =
    ys.flatMap fun y => (as.get y.1).weights [y.2] := by
  rw [weights_eq_flatMap, List.flatMap_map]
  refine List.flatMap_congr fun y hm => ?_
  obtain ⟨j, hw⟩ := exists_isWalk_single hn hy hm
  rw [← hn.model_get, ← h.weights_map hw]
  rfl

theorem exists_bijective : ∃ g : RoamingWalk as → u.AcceptingWalk, g.Bijective ∧
    ∀ w, u.spelling (g w).1 = w.spelling ∧ u.weights (g w).1 = w.weights := by
  have init : (part 0).source 0 = 0 := (h.shares 0).init
  have walk : ∀ w : RoamingWalk as, u.IsWalk 0 (w.1.map (glue part)) 1 := fun w => by
    have := h.isWalk_glue hn w.2 (k := 0) fun _ _ => .inl Nat.two_pos
    rwa [init] at this
  refine ⟨fun w => ⟨_, walk w⟩, ⟨fun w v he => ?_, fun ⟨ps, hp⟩ => ?_⟩, fun w =>
    ⟨h.spelling_glue hn w.2, h.weights_glue hn w.2⟩⟩
  · exact Subtype.ext (h.glue_inj hn w.2 v.2 (Subtype.mk.inj he))
  · have inside : 0 < (part 0).model.size := by
      have := (h.shares 0).model.two_le_size
      omega
    rw [← init] at hp
    obtain ⟨ys, hy, rfl, -⟩ := h.exists_roams hn inside hp
    exact ⟨⟨ys, hy⟩, rfl⟩

end Unites

end

-- ---------------------------------------------------------------------------
-- The correspondence
-- ---------------------------------------------------------------------------

/-- The walks of the union roam through the inputs. Each walk of an input is one of them, and
there are no others if the inputs are sealed or if there is only one. -/
theorem union_walks {as : List (Automaton W)} (ha : ∀ a ∈ as, a.Built) :
    ∃ u, union as = .ok u ∧
      (∃ g : RoamingWalk as → u.AcceptingWalk, g.Bijective ∧
        ∀ w, u.spelling (g w).1 = w.spelling ∧ u.weights (g w).1 = w.weights) ∧
      ∃ f : (Σ k, (as.get k).AcceptingWalk) → u.AcceptingWalk, f.Injective ∧
        (∀ w, u.spelling (f w).1 = (as.get w.1).spelling w.2.1 ∧
          u.weights (f w).1 = (as.get w.1).weights w.2.1) ∧
        ((as.length = 1 ∨ ∀ a ∈ as, a.Sealed) → f.Surjective ∧
          (∀ s, u.Spells s ↔ ∃ a ∈ as, a.Spells s) ∧
          ∀ s, u.Accepts s ↔ ∃ a ∈ as, a.Accepts s) := by
  obtain ⟨u, part, hu, h, hn⟩ := union_ok fun a h => (ha a h).wellFormed
  obtain ⟨g, hg, hw⟩ := h.exists_bijective hn
  have spells : ∀ w, u.spelling (g (.ofWalk w)).1 = (as.get w.1).spelling w.2.1 := fun w =>
    (hw _).1.trans (RoamingWalk.spelling_ofWalk w)
  have weighs : ∀ w, u.weights (g (.ofWalk w)).1 = (as.get w.1).weights w.2.1 := fun w =>
    (hw _).2.trans (RoamingWalk.weights_ofWalk w)
  refine ⟨u, hu, ⟨g, hg, hw⟩, g ∘ RoamingWalk.ofWalk,
    hg.injective.comp RoamingWalk.ofWalk_injective, fun w => ⟨spells w, weighs w⟩, fun hs => ?_⟩
  have onto : (g ∘ RoamingWalk.ofWalk).Surjective :=
    hg.surjective.comp (RoamingWalk.ofWalk_surjective hs)
  exact ⟨onto, fun s => exists_spelling_iff onto spells (· = s),
    fun s => exists_spelling_iff onto spells fun t => (t.filter fun x => !x.isNil) = s⟩

-- ---------------------------------------------------------------------------
-- A way back to Final
-- ---------------------------------------------------------------------------

def direct : Automaton ExactWeight := (empty : Automaton ExactWeight).withArcs [⟨0, 1, .finite 0⟩]

def knot : Symbol := ⟨none, some (.text "a")⟩

def knotted (arcs : List (Arc ExactWeight)) : Automaton ExactWeight :=
  ((empty : Automaton ExactWeight).addState none knot).withArcs arcs

def forth : Automaton ExactWeight := knotted [⟨0, 2, .finite 0⟩, ⟨2, 1, .finite 0⟩]

def around : Automaton ExactWeight := knotted [⟨1, 2, .finite 0⟩, ⟨2, 1, .finite 0⟩]

theorem direct_built : direct.Built :=
  Built.withArcs .empty fun r hr => by
    obtain rfl := List.mem_singleton.1 hr
    exact ⟨by decide, by decide, rfl⟩

theorem knotted_built {arcs : List (Arc ExactWeight)}
    (h : ∀ r ∈ arcs, r.src < 3 ∧ r.dest < 3 ∧ isUndefined r.weight = false) :
    (knotted arcs).Built :=
  Built.withArcs (.addState _ _ .empty) fun r hr =>
    ⟨(h r hr).1, (h r hr).2.1, (h r hr).2.2⟩

theorem forth_built : forth.Built :=
  knotted_built (by simp [isUndefined, LogWeight.isUndefined, ExactWeight.isUndefined])

theorem around_built : around.Built :=
  knotted_built (by simp [LogWeight.isUndefined, ExactWeight.isUndefined])

theorem direct_sealed : direct.Sealed := .of_arcs (by decide)

theorem forth_sealed : forth.Sealed := .of_arcs (by decide)

/-- Both inputs are sealed, and every walk of their union is one of theirs. -/
theorem union_direct_forth : ∃ u, union [direct, forth] = .ok u ∧
    ∃ f : (Σ k, ([direct, forth].get k).AcceptingWalk) → u.AcceptingWalk, f.Bijective ∧
      (∀ w, u.spelling (f w).1 = ([direct, forth].get w.1).spelling w.2.1 ∧
        u.weights (f w).1 = ([direct, forth].get w.1).weights w.2.1) ∧
      ∀ s, u.Accepts s ↔ direct.Accepts s ∨ forth.Accepts s := by
  have built : ∀ a ∈ [direct, forth], a.Built := by simp [direct_built, forth_built]
  obtain ⟨u, hu, -, f, hf, hw, hs⟩ := union_walks built
  obtain ⟨onto, -, accepts⟩ := hs (.inr (by simp [direct_sealed, forth_sealed]))
  exact ⟨u, hu, f, ⟨hf, onto⟩, hw, by simpa using accepts⟩

theorem not_accepts_direct {s : Symbol} : ¬direct.Accepts [s] := by
  rintro ⟨ps, hp, hr⟩
  have quiet : direct.spelling ps = [] := by
    have two : direct.size = 2 := rfl
    have : ∀ j ∈ direct.entered ps, j < 2 := fun j hj => two ▸ hp.path.lt_size hj
    simpa [spelling, isSentinel] using this
  simp [reading, quiet] at hr

theorem not_accepts_around {s : List Symbol} : ¬around.Accepts s := by
  rintro ⟨ps, hp, -⟩
  have silent : around.successors 0 = [] := rfl
  cases hp with
  | cons hm => simpa [silent] using mem_successors_of_arrival hm

/-- A walk that has come to Final goes on around it, and the union accepts what no input
accepts. -/
theorem union_direct_around : direct.Built ∧ around.Built ∧
    ∃ u, union [direct, around] = .ok u ∧ u.Accepts [knot] ∧
      ¬∃ a ∈ [direct, around], a.Accepts [knot] := by
  refine ⟨direct_built, around_built, _, rfl, ⟨[⟨0, 0⟩, ⟨1, 0⟩, ⟨2, 0⟩], ?_, rfl⟩, ?_⟩
  · exact .cons (j := 1) rfl (.cons (j := 2) rfl (.cons (j := 1) rfl (.nil 1)))
  · simp [not_accepts_direct, not_accepts_around]

end LogAutomata.Automaton
