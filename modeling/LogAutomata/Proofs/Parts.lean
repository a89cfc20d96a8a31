import LogAutomata.Proofs.Embed
import LogAutomata.Proofs.Walks
import Mathlib.Logic.Function.Basic

/-!
# Automata made of parts

An operation that puts copies of several automata into one keeps their links
apart: each link of the result stands for one link of one of them. A part is an
automaton together with the places where its links stand. Walks of a part whose
links arrive where their states start are walks of the whole.
-/

namespace LogAutomata

/-- An automaton and where its links stand in another one. The links of the state
at `i` start from `source i`, behind `first i` others, and those to `i` arrive at
`target i`. -/
structure Part (W : Type) where
  model : Automaton W
  source : Nat → Nat
  target : Nat → Nat
  first : Nat → Nat

namespace Part

variable {W : Type}

def place (p : Part W) (x : Place) : Place := ⟨p.source x.state, p.first x.state + x.number⟩

def arc (p : Part W) (r : Arc W) : Arc W := ⟨p.source r.src, p.target r.dest, r.weight⟩

def none : Part W := ⟨.empty, id, id, fun _ => 0⟩

def copy (a : Automaton W) (image first : Nat → Nat) : Part W := ⟨a, image, image, first⟩

end Part

namespace Automaton

variable {W : Type}

/-- `b` has the links of these parts and no others, each in a place of its own. -/
structure MadeOf {κ : Type} (b : Automaton W) (part : κ → Part W) : Prop where
  arcAt : ∀ k x e, (part k).model.arcAt x = some e →
    b.arcAt ((part k).place x) = some ((part k).target e.1, e.2)
  onto : ∀ y e, b.arcAt y = some e →
    ∃ k x f, (part k).model.arcAt x = some f ∧ (part k).place x = y
  apart : ∀ k l x y e f, (part k).model.arcAt x = some e → (part l).model.arcAt y = some f →
    (part k).place x = (part l).place y → k = l ∧ x = y

-- ---------------------------------------------------------------------------
-- One more part
-- ---------------------------------------------------------------------------

/-- `b` has the links of `t` and, behind those of each state, the links of the part. -/
structure Adds (t b : Automaton W) (p : Part W) : Prop where
  source_inj : ∀ i j, i < p.model.size → j < p.model.size → p.source i = p.source j → i = j
  first : ∀ i, i < p.model.size → p.first i = (t.arcsFrom (p.source i)).length
  arcsFrom : ∀ i, b.arcsFrom i = t.arcsFrom i ++
    ((p.model.arcs.map p.arc).filter (·.src == i)).map fun r => (r.dest, r.weight)

namespace Adds

variable {t b : Automaton W} {p : Part W} (h : t.Adds b p)
include h

theorem row {i : Nat} (hi : i < p.model.size) : b.arcsFrom (p.source i) =
    t.arcsFrom (p.source i) ++ (p.model.arcsFrom i).map fun e => (p.target e.1, e.2) := by
  have same : p.model.arcs.filter ((·.src == p.source i) ∘ p.arc) =
      p.model.arcs.filter (·.src == i) := by
    refine List.filter_congr fun r hr => ?_
    have hlt := src_lt_size (mem_arcs_iff.1 hr)
    rw [Bool.eq_iff_iff, Function.comp, beq_iff_eq, beq_iff_eq]
    exact ⟨h.source_inj _ _ hlt hi, congrArg p.source⟩
  rw [h.arcsFrom, List.filter_map, same, ← filter_src_arcs p.model i, List.map_map, List.map_map]
  rfl

theorem arcsFrom_of_ne {k : Nat} (hk : ∀ i, i < p.model.size → p.source i ≠ k) :
    b.arcsFrom k = t.arcsFrom k := by
  have none : (p.model.arcs.map p.arc).filter (·.src == k) = [] := by
    refine List.filter_eq_nil_iff.2 fun r hr => ?_
    obtain ⟨s, hs, rfl⟩ := List.mem_map.1 hr
    rw [beq_iff_eq]
    exact hk _ (src_lt_size (mem_arcs_iff.1 hs))
  rw [h.arcsFrom, none]
  exact List.append_nil _

theorem arcAt_old {y : Place} {e : Nat × W} (hy : t.arcAt y = some e) : b.arcAt y = some e := by
  rw [arcAt, h.arcsFrom]
  exact List.getElem?_append_left (List.getElem?_eq_some_iff.1 hy).1 ▸ hy

theorem arcAt_new {x : Place} {e : Nat × W} (hx : p.model.arcAt x = some e) :
    b.arcAt (p.place x) = some (p.target e.1, e.2) := by
  have hlt := state_lt_size hx
  have hx : (p.model.arcsFrom x.state)[x.number]? = some e := hx
  rw [arcAt, Part.place, h.row hlt, h.first _ hlt,
    List.getElem?_append_right (Nat.le_add_right _ _), Nat.add_sub_cancel_left,
    List.getElem?_map, hx]
  rfl

/-- The places of the new links were free. -/
theorem arcAt_place {x : Place} {e : Nat × W} (hx : p.model.arcAt x = some e) :
    t.arcAt (p.place x) = none := by
  rw [arcAt, Part.place, h.first _ (state_lt_size hx)]
  exact List.getElem?_eq_none (Nat.le_add_right _ _)

theorem old_or_new {y : Place} {e : Nat × W} (hy : b.arcAt y = some e) :
    (∃ f, t.arcAt y = some f) ∨ ∃ x f, p.model.arcAt x = some f ∧ p.place x = y := by
  obtain ⟨k, n⟩ := y
  rw [or_iff_not_imp_left]
  intro hold
  have hn : (t.arcsFrom k).length ≤ n := by
    refine List.getElem?_eq_none_iff.1 (Option.eq_none_iff_forall_ne_some.2 fun f hf => ?_)
    exact hold ⟨f, hf⟩
  by_cases hk : ∃ i, i < p.model.size ∧ p.source i = k
  · obtain ⟨i, hi, rfl⟩ := hk
    rw [arcAt, h.row hi, List.getElem?_append_right hn, List.getElem?_map] at hy
    obtain ⟨f, hf, -⟩ := Option.map_eq_some_iff.1 hy
    refine ⟨⟨i, n - (t.arcsFrom (p.source i)).length⟩, f, hf, ?_⟩
    rw [Part.place, h.first i hi, Nat.add_sub_cancel' hn]
  · rw [arcAt, h.arcsFrom_of_ne fun i hi he => hk ⟨i, hi, he⟩] at hy
    exact absurd ⟨e, hy⟩ hold

theorem place_inj {x y : Place} {e f : Nat × W} (hx : p.model.arcAt x = some e)
    (hy : p.model.arcAt y = some f) (he : p.place x = p.place y) : x = y := by
  obtain ⟨i, n⟩ := x
  obtain ⟨j, m⟩ := y
  obtain ⟨hs, hn⟩ := Place.mk.inj he
  obtain rfl : i = j := h.source_inj i j (state_lt_size hx) (state_lt_size hy) hs
  obtain rfl : n = m := Nat.add_left_cancel hn
  rfl

end Adds

section
variable {κ : Type} {part : κ → Part W} {t b : Automaton W} {p : Part W} {k : κ}

theorem MadeOf.place_ne (h : t.MadeOf part) (hp : t.Adds b p) {l : κ} {x y : Place}
    {e f : Nat × W} (hx : (part l).model.arcAt x = some e) (hy : p.model.arcAt y = some f) :
    (part l).place x ≠ p.place y := by
  intro he
  have old := h.arcAt l x e hx
  rw [he, hp.arcAt_place hy] at old
  cases old

variable [DecidableEq κ]

/-- A part takes the place of one without links. -/
theorem MadeOf.update (h : t.MadeOf part) (free : ∀ x, (part k).model.arcAt x = none)
    (hp : t.Adds b p) : b.MadeOf (Function.update part k p) := by
  have self : Function.update part k p k = p := Function.update_self ..
  have kept : ∀ l, l ≠ k → Function.update part k p l = part l := fun l hl =>
    Function.update_of_ne hl ..
  refine ⟨fun l x e hx => ?_, fun y e hy => ?_, fun l m x y e f hx hy he => ?_⟩
  · by_cases hl : l = k
    · rw [hl, self] at hx ⊢
      exact hp.arcAt_new hx
    · rw [kept l hl] at hx ⊢
      exact hp.arcAt_old (h.arcAt l x e hx)
  · rcases hp.old_or_new hy with ⟨f, hf⟩ | ⟨x, f, hx, hxy⟩
    · obtain ⟨l, x, g, hx, hxy⟩ := h.onto y f hf
      have hl : l ≠ k := by
        rintro rfl
        rw [free x] at hx
        cases hx
      exact ⟨l, x, g, by rwa [kept l hl], by rwa [kept l hl]⟩
    · exact ⟨k, x, f, by rwa [self], by rwa [self]⟩
  · by_cases hl : l = k
    · by_cases hm : m = k
      · rw [hl, self] at hx he
        rw [hm, self] at hy he
        exact ⟨hl.trans hm.symm, hp.place_inj hx hy he⟩
      · rw [hl, self] at hx he
        rw [kept m hm] at hy he
        exact absurd he.symm (h.place_ne hp hy hx)
    · by_cases hm : m = k
      · rw [hm, self] at hy he
        rw [kept l hl] at hx he
        exact absurd he (h.place_ne hp hx hy)
      · rw [kept l hl] at hx he
        rw [kept m hm] at hy he
        exact h.apart l m x y e f hx hy he

end

-- ---------------------------------------------------------------------------
-- Walks
-- ---------------------------------------------------------------------------

namespace MadeOf

variable {κ : Type} {part : κ → Part W} {k : κ} {b : Automaton W} (h : b.MadeOf part)
include h

theorem place_inj {x y : Place} {e f : Nat × W} (hx : (part k).model.arcAt x = some e)
    (hy : (part k).model.arcAt y = some f) (he : (part k).place x = (part k).place y) : x = y :=
  (h.apart k k x y e f hx hy he).2

/-- Links of one part, followed by a link that is not of this part, tell where they end. -/
theorem map_place_append_inj {xs xs' ys ys' : List Place}
    (hx : ∀ x ∈ xs, ∃ e, (part k).model.arcAt x = some e)
    (hx' : ∀ x ∈ xs', ∃ e, (part k).model.arcAt x = some e)
    (hy : ∀ y ∈ ys.head?, ∀ x e, (part k).model.arcAt x = some e → (part k).place x ≠ y)
    (hy' : ∀ y ∈ ys'.head?, ∀ x e, (part k).model.arcAt x = some e → (part k).place x ≠ y)
    (he : xs.map (part k).place ++ ys = xs'.map (part k).place ++ ys') : xs = xs' ∧ ys = ys' := by
  induction xs generalizing xs' with
  | nil =>
    cases xs' with
    | nil => exact ⟨rfl, he⟩
    | cons x' xs' =>
      obtain rfl := he
      obtain ⟨e, hx'⟩ := hx' x' List.mem_cons_self
      exact absurd rfl (hy _ rfl x' e hx')
  | cons x xs ih =>
    obtain ⟨⟨e, hxe⟩, hx⟩ := List.forall_mem_cons.1 hx
    cases xs' with
    | nil =>
      obtain rfl := he
      exact absurd rfl (hy' _ rfl x e hxe)
    | cons x' xs' =>
      obtain ⟨⟨f, hxf⟩, hx'⟩ := List.forall_mem_cons.1 hx'
      obtain ⟨hxx, he⟩ := List.cons.inj he
      obtain ⟨rfl, rfl⟩ := ih hx hx' he
      exact ⟨by rw [h.place_inj hxe hxf hxx], rfl⟩

end MadeOf

theorem MadeOf.congr {κ : Type} {part : κ → Part W} {b c : Automaton W} (h : b.MadeOf part)
    (same : ∀ y, c.arcAt y = b.arcAt y) : c.MadeOf part where
  arcAt k x e hx := (same _).trans (h.arcAt k x e hx)
  onto y e hy := h.onto y e ((same y).symm.trans hy)
  apart := h.apart

variable [LogWeight W] {a b : Automaton W}

theorem not_arrival_none {x : Place} {m : Nat} : (Part.none : Part W).model.arrival x ≠ some m := by
  simp [Part.none, WellFormed.empty.arrival_eq_map, arcAt_empty]

theorem MadeOf.exists_arrival {κ : Type} {part : κ → Part W} (h : b.MadeOf part)
    (hb : b.WellFormed) (hm : ∀ k, (part k).model.WellFormed) {y : Place} {j : Nat}
    (hy : b.arrival y = some j) : ∃ k x m, (part k).model.arrival x = some m ∧
      x.state < (part k).model.size ∧ m < (part k).model.size ∧ (part k).place x = y ∧
      (part k).target m = j := by
  obtain ⟨e, he, rfl⟩ := hb.arrival_iff_arcAt.1 hy
  obtain ⟨k, x, f, hx, rfl⟩ := h.onto y e he
  cases (h.arcAt k x f hx).symm.trans he
  exact ⟨k, x, f.1, (hm k).arrival_iff_arcAt.2 ⟨f, hx, rfl⟩, state_lt_size hx,
    arcAt_dest_lt_size hx, rfl, rfl⟩

namespace MadeOf

variable {κ : Type} {part : κ → Part W} {k : κ} (h : b.MadeOf part) (hb : b.WellFormed)
  (hm : (part k).model.WellFormed)
include h hb hm

theorem arrival_place {x : Place} {j : Nat} (hx : (part k).model.arrival x = some j) :
    b.arrival ((part k).place x) = some ((part k).target j) := by
  obtain ⟨e, he, rfl⟩ := hm.arrival_iff_arcAt.1 hx
  exact hb.arrival_iff_arcAt.2 ⟨_, h.arcAt k x e he, rfl⟩

theorem entered_map {i j : Nat} {xs : List Place} (hx : (part k).model.IsWalk i xs j) :
    b.entered (xs.map (part k).place) = ((part k).model.entered xs).map (part k).target := by
  induction hx with
  | nil => rfl
  | cons hx _ ih =>
    simp only [entered, List.map_cons, List.filterMap_cons, h.arrival_place hb hm hx, hx] at ih ⊢
    rw [ih]

theorem weights_map {i j : Nat} {xs : List Place} (hx : (part k).model.IsWalk i xs j) :
    b.weights (xs.map (part k).place) = (part k).model.weights xs := by
  have he := hx.exists_arcAt hm
  rw [weights, weights, List.filterMap_map]
  refine List.filterMap_congr fun x hx => ?_
  obtain ⟨e, he⟩ := he x hx
  rw [Function.comp, hb.weight_eq_map, hm.weight_eq_map, he, h.arcAt k x e he]
  rfl

theorem isWalk_map (hc : (part k).target = (part k).source) {i j : Nat} {xs : List Place}
    (hx : (part k).model.IsWalk i xs j) :
    b.IsWalk ((part k).source i) (xs.map (part k).place) ((part k).source j) := by
  induction hx with
  | nil => exact .nil _
  | cons hx _ ih =>
    refine isWalk_cons_iff.2 ⟨rfl, _, h.arrival_place hb hm hx, ?_⟩
    rw [hc]
    exact ih

end MadeOf

-- ---------------------------------------------------------------------------
-- Copies
-- ---------------------------------------------------------------------------

theorem relocate_inj {init final base i j : Nat} (hi : init < base) (hf : final < base)
    (hne : init ≠ final) (h : relocate init final base i = relocate init final base j) : i = j := by
  rcases i with _ | _ | i <;> rcases j with _ | _ | j <;> simp only [relocate] at h <;> omega

def copyInto (a t : Automaton W) (init final : Nat) : Part W :=
  .copy a (relocate init final t.size) fun i =>
    (t.arcsFrom (relocate init final t.size i)).length

theorem relocate_of_two_le {init final base i : Nat} (hi : 2 ≤ i) :
    relocate init final base i = base + (i - 2) := by
  obtain ⟨i, rfl⟩ := Nat.exists_eq_add_of_le' hi
  rfl

theorem Extends.adds {t : Automaton W} {init final : Nat} (hi : init < t.size)
    (hf : final < t.size) (hne : init ≠ final)
    (h : a.Extends t b (a.arcs.map (Arc.move (relocate init final t.size)))) :
    t.Adds b (a.copyInto t init final) where
  source_inj _ _ _ _ he := relocate_inj hi hf hne he
  first _ _ := rfl
  arcsFrom := h.arcsFrom

-- ---------------------------------------------------------------------------
-- Copies between two states
-- ---------------------------------------------------------------------------

/-- The part is a copy in which these two states stand for Init and Final. The other states
are no sentinels, and all have the symbols of their models. -/
structure Spans (b : Automaton W) (p : Part W) (init final : Nat) : Prop where
  model : p.model.WellFormed
  target_eq : p.target = p.source
  init : p.source 0 = init
  final : p.source 1 = final
  two_le : ∀ i, 2 ≤ i → 2 ≤ p.source i
  lt_size : ∀ i, i < p.model.size → p.source i < b.size
  symbolAt : ∀ i, i < p.model.size → b.symbolAt (p.source i) = p.model.symbolAt i

section
variable {t : Automaton W} {p : Part W} {init final : Nat}

theorem Spans.mono (h : t.Spans p init final) (size : t.size ≤ b.size)
    (symbols : ∀ i, i < t.size → b.symbolAt i = t.symbolAt i) : b.Spans p init final where
  model := h.model
  target_eq := h.target_eq
  init := h.init
  final := h.final
  two_le := h.two_le
  lt_size i hi := Nat.lt_of_lt_of_le (h.lt_size i hi) size
  symbolAt i hi := (symbols _ (h.lt_size i hi)).trans (h.symbolAt i hi)

theorem Spans.extend {rs : List (Arc W)} (h : t.Spans p init final) (hb : a.Extends t b rs) :
    b.Spans p init final :=
  h.mono (hb.size_eq ▸ Nat.le_add_right _ _) hb.symbolAt_of_lt

/-- A copy spans the states that it is given for its sentinels, if these have no symbol. -/
theorem Extends.spans_copyInto (ht : t.WellFormed) (ha : a.WellFormed) {rs : List (Arc W)}
    (hb : a.Extends t b rs) (hi : init < t.size) (hf : final < t.size)
    (silent_init : t.symbolAt init = .nil) (silent_final : t.symbolAt final = .nil) :
    b.Spans (a.copyInto t init final) init final where
  model := ha
  target_eq := rfl
  init := rfl
  final := rfl
  two_le i hi := by
    have : (a.copyInto t init final).source i = t.size + (i - 2) := relocate_of_two_le hi
    rw [this]
    exact Nat.le_add_right_of_le ht.two_le_size
  lt_size i hlt := by
    rw [hb.size_eq]
    exact relocate_lt_size a hi hf hlt
  symbolAt i _ := by
    rcases i with _ | _ | i
    · exact (hb.symbolAt_of_lt init hi).trans (silent_init.trans ha.symbolAt_zero.symm)
    · exact (hb.symbolAt_of_lt final hf).trans (silent_final.trans ha.symbolAt_one.symm)
    · exact hb.symbolAt_add i

end

end Automaton

end LogAutomata
