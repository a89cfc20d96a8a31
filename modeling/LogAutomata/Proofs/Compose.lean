import LogAutomata.Proofs.Blocks
import LogAutomata.Proofs.Sums
import LogAutomata.Proofs.Weighted

/-!
# The walks of a composition

Between two links of the host, a walk of the composition leads through the block where
the first arrives and the second starts. So it is woven from a walk of the host and a
walk of the unit for each of its visits to a state that has one, and it can be taken
apart again: it leaves a block where it takes a link of the host, and nowhere else.
-/

namespace LogAutomata.Automaton

variable {W : Type}

-- ---------------------------------------------------------------------------
-- Visits
-- ---------------------------------------------------------------------------

section
variable (host : Automaton W) (units : List (Option Label × Automaton W)) (i : Nat)

/-- A walk through the unit of the host state, from one of its states on. There is nothing
to walk through without a unit. -/
def Inside (m : Nat) (xs : List Place) : Prop :=
  match host.unitAt units i with
  | some unit => unit.IsWalk m xs 1
  | none => xs = []

def Fills (xs : List Place) : Prop := host.Inside units i 0 xs

def readingTo (a : Automaton W) (final : Symbol) (ps : List Place) : List Symbol :=
  ((a.entered ps).map fun i => if i = 1 then final else a.symbolAt i).filter fun s => !s.isNil

/-- What is read on a visit. The unit's Final has the label of the host state. -/
def readAt (xs : List Place) : List Symbol :=
  match host.unitAt units i with
  | some unit => unit.readingTo { label := (host.symbolAt i).label } xs
  | none => host.heard i

end

def weightAt [LogWeight W] (host : Automaton W) (units : List (Option Label × Automaton W))
    (i : Nat) (xs : List Place) : W :=
  match host.unitAt units i with
  | some unit => unit.walkWeight xs
  | none => 0

section
variable (host : Automaton W) (units : List (Option Label × Automaton W))

/-- One walk for each visit of a walk of the host. -/
abbrev Filling (ps : List Place) :=
  { xss : List (List Place) // List.Forall₂ (host.Fills units) (host.entered ps) xss }

def segment (p : Place) (xs : List Place) : List Place :=
  (host.partOf units none).place p ::
    xs.map (host.partOf units (some ((host.arrival p).getD 0))).place

def weave (ps : List Place) (xss : List (List Place)) : List Place :=
  (List.zipWith (host.segment units) ps xss).flatten

end

section
variable {host : Automaton W} {units : List (Option Label × Automaton W)} {i j k m : Nat}
  {unit : Automaton W} {p : Place} {xs ps : List Place} {xss : List (List Place)}

theorem readingTo_eq_flatMap (a : Automaton W) (final : Symbol) (ps : List Place) :
    a.readingTo final ps = (a.entered ps).flatMap fun i =>
      [if i = 1 then final else a.symbolAt i].filter fun s => !s.isNil := by
  rw [readingTo]
  induction a.entered ps with
  | nil => rfl
  | cons i is ih => rw [List.map_cons, ← List.singleton_append, List.filter_append, ih]; rfl

theorem segment_of_arrival (hp : host.arrival p = some j) (xs : List Place) :
    host.segment units p xs =
      (host.partOf units none).place p :: xs.map (host.partOf units (some j)).place := by
  rw [segment, hp]
  rfl

theorem weave_cons (hp : host.arrival p = some j) (ps xs : List Place) (xss : List (List Place)) :
    host.weave units (p :: ps) (xs :: xss) = (host.partOf units none).place p ::
      (xs.map (host.partOf units (some j)).place ++ host.weave units ps xss) := by
  simp [weave, segment_of_arrival hp]

theorem head_weave (ps : List Place) (xss : List (List Place)) :
    ∀ y ∈ (host.weave units ps xss).head?, ∃ p, (host.partOf units none).place p = y := by
  cases ps <;> cases xss <;> simp [weave, segment]

theorem inside_last : host.Inside units i (host.last units i) [] := by
  cases hu : host.unitAt units i with
  | none => simp [Inside, hu]
  | some unit => simp [Inside, hu, last_of_some hu, isWalk_nil_iff]

variable [LogWeight W]

theorem blockSymbol_of_some (hu : host.unitAt units i = some unit) (wf : unit.WellFormed)
    (m : Nat) : host.blockSymbol units i m =
      if m = 1 then { label := (host.symbolAt i).label } else unit.symbolAt m := by
  rcases m with _ | _ | m
  · rw [blockSymbol_zero hu, wf.symbolAt_zero]
    rfl
  · exact blockSymbol_one hu
  · exact blockSymbol_add_two hu m

theorem Inside.cases (wf : ∀ u ∈ units, u.2.WellFormed) (h : host.Inside units i m xs) :
    (host.unitAt units i = none ∧ xs = []) ∨ ∃ unit, host.unitAt units i = some unit ∧
      (host.partOf units (some i)).model = unit ∧ unit.WellFormed ∧ unit.IsWalk m xs 1 := by
  cases hu : host.unitAt units i with
  | none => exact .inl ⟨rfl, by simpa [Inside, hu] using h⟩
  | some unit =>
    obtain ⟨l, hl⟩ := exists_pair_of_unitAt hu
    have model : (host.partOf units (some i)).model = unit := by simp [partOf, Part.copy, hu]
    exact .inr ⟨unit, rfl, model, wf _ hl, by simpa [Inside, hu] using h⟩

theorem Inside.exists_arcAt (wf : ∀ u ∈ units, u.2.WellFormed) (h : host.Inside units i m xs) :
    ∀ x ∈ xs, ∃ e, (host.partOf units (some i)).model.arcAt x = some e := by
  obtain ⟨-, rfl⟩ | ⟨unit, -, rfl, hwf, walk⟩ := h.cases wf
  · simp
  · exact walk.exists_arcAt hwf

end

namespace Composes

variable [LogWeight W] {host c : Automaton W} {units : List (Option Label × Automaton W)}
  (h : host.Composes units c) (hh : host.WellFormed) (wf : ∀ u ∈ units, u.2.WellFormed)
  {i j k m : Nat} {p : Place} {xs ps : List Place} {xss : List (List Place)}
include h hh wf

-- ---------------------------------------------------------------------------
-- Weaving
-- ---------------------------------------------------------------------------

theorem isWalk_segment (hp : host.arrival p = some j) (hx : host.Fills units j xs) :
    c.IsWalk (host.entry units p.state + host.last units p.state) (host.segment units p xs)
      (host.entry units j + host.last units j) := by
  have made := h.madeOf wf
  have first : c.arrival ((host.partOf units none).place p) = some (host.entry units j) :=
    made.arrival_place (k := none) h.wellFormed hh hp
  rw [segment_of_arrival hp]
  refine isWalk_cons_iff.2 ⟨rfl, _, first, ?_⟩
  obtain ⟨hu, rfl⟩ | ⟨unit, hu, rfl, hwf, walk⟩ := hx.cases wf
  · simp [last_of_none hu, isWalk_nil_iff]
  · rw [last_of_some hu]
    exact made.isWalk_map (k := some j) h.wellFormed hwf rfl walk

theorem isWalk_weave (hw : host.IsWalk i ps k)
    (hf : List.Forall₂ (host.Fills units) (host.entered ps) xss) :
    c.IsWalk (host.entry units i + host.last units i) (host.weave units ps xss)
      (host.entry units k + host.last units k) := by
  induction hw generalizing xss with
  | nil => exact .nil _
  | cons hp _ ih =>
    rw [entered_cons hp] at hf
    cases hf with
    | cons hx hf => exact (h.isWalk_segment hh wf hp hx).append (ih hf)

omit hh in
theorem heard_block (hi : i < host.size) (h2 : 2 ≤ i) (hm : m < host.width units i) :
    c.heard (host.entry units i + m) =
      [host.blockSymbol units i m].filter fun s => !s.isNil := by
  have : i ≤ host.entry units i := le_entry wf i
  rw [heard_of_two_le (by omega), h.symbolAt i hi m hm]

theorem reading_segment (hp : host.arrival p = some j) (hx : host.Fills units j xs) :
    c.reading (host.segment units p xs) = host.readAt units j xs := by
  have made := h.madeOf wf
  have first : c.arrival ((host.partOf units none).place p) = some (host.entry units j) :=
    made.arrival_place (k := none) h.wellFormed hh hp
  have hj := (lt_size_of_mem_successors (mem_successors_of_arrival hp)).2
  rw [segment_of_arrival hp, reading_eq_flatMap, entered_cons first, List.flatMap_cons]
  obtain ⟨hu, rfl⟩ | ⟨unit, hu, model, hwf, walk⟩ := hx.cases wf
  · have same : c.heard (host.entry units j) = host.heard j := by
      rcases Nat.lt_or_ge j 2 with h2 | h2
      · rw [entry_of_lt_two hh h2, heard_of_lt_two h2, heard_of_lt_two h2]
      · rw [heard_of_two_le h2, ← blockSymbol_of_none hu 0,
          ← h.heard_block wf hj h2 (width_pos wf j), Nat.add_zero]
    simp [entered, readAt, hu, same]
  · have h2 : 2 ≤ j := by
      by_contra hlt
      rw [unitAt_of_lt_two hh (Nat.lt_of_not_le hlt)] at hu
      cases hu
    have quiet : c.heard (host.entry units j) = [] := by
      have := h.heard_block wf hj h2 (width_pos wf j)
      rwa [blockSymbol_zero hu] at this
    have entered : c.entered (xs.map (host.partOf units (some j)).place) =
        (unit.entered xs).map (host.entry units j + ·) := by
      subst model
      exact made.entered_map (k := some j) h.wellFormed hwf walk
    have read : host.readAt units j xs =
        unit.readingTo { label := (host.symbolAt j).label } xs := by simp [readAt, hu]
    rw [quiet, List.nil_append, entered, List.flatMap_map, read, readingTo_eq_flatMap]
    refine List.flatMap_congr fun k hk => ?_
    have hlt : k < host.width units j := width_of_some hu ▸ walk.path.lt_size hk
    rw [h.heard_block wf hj h2 hlt, blockSymbol_of_some hu hwf]

theorem reading_weave (hw : host.IsWalk i ps k)
    (hf : List.Forall₂ (host.Fills units) (host.entered ps) xss) :
    c.reading (host.weave units ps xss) =
      (List.zipWith (host.readAt units) (host.entered ps) xss).flatten := by
  induction hw generalizing xss with
  | nil => rfl
  | cons hp _ ih =>
    rw [entered_cons hp] at hf ⊢
    cases hf with
    | cons hx hf =>
      rw [weave, List.zipWith_cons_cons, List.flatten_cons, reading_append,
        h.reading_segment hh wf hp hx, List.zipWith_cons_cons, List.flatten_cons, ← ih hf]
      rfl

-- ---------------------------------------------------------------------------
-- Taking apart
-- ---------------------------------------------------------------------------

theorem exists_weave {ys : List Place} (hi : i < host.size) (hm : m < host.width units i)
    (hw : c.IsWalk (host.entry units i + m) ys 1) :
    ∃ xs ps xss, host.Inside units i m xs ∧ host.IsWalk i ps 1 ∧
      List.Forall₂ (host.Fills units) (host.entered ps) xss ∧
      xs.map (host.partOf units (some i)).place ++ host.weave units ps xss = ys := by
  induction ys generalizing i m with
  | nil =>
    have final := isWalk_nil_iff.1 hw
    have one : host.entry units 1 = 1 := entry_of_lt_two hh Nat.one_lt_two
    obtain ⟨rfl, rfl⟩ := entry_add_inj hm (width_pos wf 1) (final.trans one.symm)
    refine ⟨[], [], [], ?_, .nil 1, .nil, rfl⟩
    simp [Inside, unitAt_of_lt_two hh Nat.one_lt_two]
  | cons y ys ih =>
    obtain ⟨hy, t, ht, rest⟩ := isWalk_cons_iff.1 hw
    obtain ⟨e, he, rfl⟩ := h.wellFormed.arrival_iff_arcAt.1 ht
    have made := h.madeOf wf
    obtain ⟨_ | l, x, f, hx, rfl⟩ := made.onto y e he
    · -- a link of the host
      obtain rfl := Option.some.inj ((made.arcAt none x f hx).symm.trans he)
      obtain ⟨rfl, rfl⟩ := entry_add_inj (last_lt_width wf x.state) hm hy
      have hx : host.arcAt x = some f := hx
      have hp : host.arrival x = some f.1 := hh.arrival_iff_arcAt.2 ⟨f, hx, rfl⟩
      obtain ⟨xs, ps, xss, hxs, hps, hxss, rfl⟩ :=
        ih (arcAt_dest_lt_size hx) (width_pos wf f.1) rest
      refine ⟨[], x :: ps, xs :: xss, inside_last, isWalk_cons_iff.2 ⟨rfl, _, hp, hps⟩, ?_, ?_⟩
      · rw [entered_cons hp]
        exact .cons hxs hxss
      · rw [weave_cons hp]
        rfl
    · -- a link of a unit
      obtain rfl := Option.some.inj ((made.arcAt (some l) x f hx).symm.trans he)
      obtain ⟨unit, hu, hx, hlt, -⟩ := exists_unitAt hx
      obtain ⟨rfl, rfl⟩ := entry_add_inj hlt hm hy
      obtain ⟨xs, ps, xss, hxs, hps, hxss, rfl⟩ :=
        ih hi (width_of_some hu ▸ arcAt_dest_lt_size hx) rest
      refine ⟨x :: xs, ps, xss, ?_, hps, hxss, rfl⟩
      obtain ⟨l, hl⟩ := exists_pair_of_unitAt hu
      have hp : unit.arrival x = some f.1 := (wf _ hl).arrival_iff_arcAt.2 ⟨f, hx, rfl⟩
      simp only [Inside, hu] at hxs ⊢
      exact isWalk_cons_iff.2 ⟨rfl, _, hp, hxs⟩

omit hh in
/-- A walk leaves a block where it takes a link of the host. -/
theorem map_place_append_inj {xs' ys ys' : List Place}
    (hx : ∀ x ∈ xs, ∃ e, (host.partOf units (some i)).model.arcAt x = some e)
    (hx' : ∀ x ∈ xs', ∃ e, (host.partOf units (some i)).model.arcAt x = some e)
    (hy : ∀ y ∈ ys.head?, ∃ p, (host.partOf units none).place p = y)
    (hy' : ∀ y ∈ ys'.head?, ∃ p, (host.partOf units none).place p = y)
    (he : xs.map (host.partOf units (some i)).place ++ ys =
      xs'.map (host.partOf units (some i)).place ++ ys') : xs = xs' ∧ ys = ys' := by
  have leaves : ∀ y, (∃ p, (host.partOf units none).place p = y) → ∀ x e,
      (host.partOf units (some i)).model.arcAt x = some e →
        (host.partOf units (some i)).place x ≠ y := by
    rintro y ⟨p, rfl⟩ x e hx hp
    exact place_host_ne wf hx hp.symm
  exact (h.madeOf wf).map_place_append_inj hx hx' (fun y hm => leaves y (hy y hm))
    (fun y hm => leaves y (hy' y hm)) he

theorem weave_inj {ps' : List Place} {xss' : List (List Place)} (hw : host.IsWalk i ps k)
    (hw' : host.IsWalk i ps' k) (hf : List.Forall₂ (host.Fills units) (host.entered ps) xss)
    (hf' : List.Forall₂ (host.Fills units) (host.entered ps') xss')
    (he : host.weave units ps xss = host.weave units ps' xss') : ps = ps' ∧ xss = xss' := by
  induction hw generalizing ps' xss xss' with
  | nil =>
    cases hf
    cases hw' with
    | nil =>
      cases hf'
      exact ⟨rfl, rfl⟩
    | cons hp' _ =>
      rw [entered_cons hp'] at hf'
      cases hf'
      rw [weave_cons hp'] at he
      cases he
  | cons hp _ ih =>
    rw [entered_cons hp] at hf
    cases hf with | cons hx hf => ?_
    rw [weave_cons hp] at he
    cases hw' with
    | nil =>
      cases hf'
      cases he
    | cons hp' hw' =>
      rw [entered_cons hp'] at hf'
      cases hf' with | cons hx' hf' => ?_
      rw [weave_cons hp'] at he
      obtain ⟨same, tails⟩ := List.cons.inj he
      obtain ⟨e, hpe, -⟩ := hh.arrival_iff_arcAt.1 hp
      obtain ⟨f, hpf, -⟩ := hh.arrival_iff_arcAt.1 hp'
      obtain ⟨-, rfl⟩ := Place.mk.inj ((h.madeOf wf).place_inj (k := none) hpe hpf same)
      obtain rfl := Option.some.inj (hp.symm.trans hp')
      obtain ⟨rfl, hrest⟩ := h.map_place_append_inj wf (hx.exists_arcAt wf) (hx'.exists_arcAt wf)
        (head_weave _ _) (head_weave _ _) tails
      obtain ⟨rfl, rfl⟩ := ih hw' hf hf' hrest
      exact ⟨rfl, rfl⟩

end Composes

-- ---------------------------------------------------------------------------
-- Weights
-- ---------------------------------------------------------------------------

namespace Composes

variable {host c : Automaton ExactWeight} {units : List (Option Label × Automaton ExactWeight)}
  (h : host.Composes units c) (hh : host.WellFormed) (wf : ∀ u ∈ units, u.2.WellFormed)
  {i j k : Nat} {p : Place} {xs ps : List Place} {xss : List (List Place)}
include h hh wf

theorem walkWeight_segment (hp : host.arrival p = some j) (hx : host.Fills units j xs) :
    c.walkWeight (host.segment units p xs) = host.walkWeight [p] + host.weightAt units j xs := by
  have made := h.madeOf wf
  have first : c.walkWeight [(host.partOf units none).place p] = host.walkWeight [p] := by
    have same : c.weights [(host.partOf units none).place p] = host.weights [p] :=
      made.weights_map (k := none) h.wellFormed hh (isWalk_cons_iff.2 ⟨rfl, j, hp, .nil j⟩)
    rw [walkWeight_eq_sum, walkWeight_eq_sum, same]
  have inside : c.walkWeight (xs.map (host.partOf units (some j)).place) =
      host.weightAt units j xs := by
    obtain ⟨hu, rfl⟩ | ⟨unit, hu, model, hwf, walk⟩ := hx.cases wf
    · simp only [weightAt, hu]
      rfl
    · subst model
      have same := made.weights_map (k := some j) h.wellFormed hwf walk
      simp only [weightAt, hu, walkWeight_eq_sum, same]
  rw [segment_of_arrival hp, walkWeight_cons, first, inside]

theorem walkWeight_weave (hw : host.IsWalk i ps k)
    (hf : List.Forall₂ (host.Fills units) (host.entered ps) xss) :
    c.walkWeight (host.weave units ps xss) = host.walkWeight ps +
      (List.zipWith (host.weightAt units) (host.entered ps) xss).sum := by
  induction hw generalizing xss with
  | nil =>
    cases hf
    exact (Std.LawfulLeftIdentity.left_id (0 : ExactWeight)).symm
  | @cons i j k n ps hp _ ih =>
    rw [entered_cons hp] at hf ⊢
    cases hf with
    | cons hx hf =>
      rw [weave, List.zipWith_cons_cons, List.flatten_cons, walkWeight_append,
        h.walkWeight_segment hh wf hp hx, List.zipWith_cons_cons, List.sum_cons, ← weave, ih hf,
        host.walkWeight_cons _ ps]
      ac_rfl

end Composes

-- ---------------------------------------------------------------------------
-- The correspondence
-- ---------------------------------------------------------------------------

theorem compose_walks {host : Automaton ExactWeight}
    {units : List (Option Label × Automaton ExactWeight)} (hh : host.Built)
    (hu : ∀ u ∈ units, u.2.Built) : ∃ c, host.compose units = .ok c ∧
      ∃ f : (Σ w : host.AcceptingWalk, host.Filling units w.1) → c.AcceptingWalk, f.Bijective ∧
        ∀ w, c.reading (f w).1 =
            (List.zipWith (host.readAt units) (host.entered w.1.1) w.2.1).flatten ∧
          c.walkWeight (f w).1 = host.walkWeight w.1.1 +
            (List.zipWith (host.weightAt units) (host.entered w.1.1) w.2.1).sum := by
  have hh := hh.wellFormed
  have wf : ∀ u ∈ units, u.2.WellFormed := fun u h => (hu u h).wellFormed
  obtain ⟨c, hc, h⟩ := compose_ok hh wf
  have sentinel : ∀ i, i < 2 → host.entry units i + host.last units i = i := fun i hi => by
    rw [entry_of_lt_two hh hi, last_of_none (unitAt_of_lt_two hh hi), Nat.add_zero]
  have woven : ∀ w : (Σ w : host.AcceptingWalk, host.Filling units w.1),
      c.IsWalk 0 (host.weave units w.1.1 w.2.1) 1 := fun w => by
    have := h.isWalk_weave hh wf w.1.2 w.2.2
    rwa [sentinel 0 Nat.two_pos, sentinel 1 Nat.one_lt_two] at this
  refine ⟨c, hc, fun w => ⟨_, woven w⟩, ⟨?_, ?_⟩, fun w => ⟨h.reading_weave hh wf w.1.2 w.2.2,
    h.walkWeight_weave hh wf w.1.2 w.2.2⟩⟩
  · rintro ⟨⟨ps, hp⟩, xss, hx⟩ ⟨⟨ps', hp'⟩, xss', hx'⟩ he
    obtain ⟨rfl, rfl⟩ := h.weave_inj hh wf hp hp' hx hx' (congrArg Subtype.val he)
    rfl
  · rintro ⟨ys, hy⟩
    have two := hh.two_le_size
    obtain ⟨xs, ps, xss, hxs, hps, hxss, rfl⟩ := h.exists_weave hh wf (m := 0)
      (Nat.lt_of_lt_of_le Nat.two_pos two) (width_pos wf 0) hy
    obtain rfl : xs = [] := by simpa [Inside, unitAt_of_lt_two hh Nat.two_pos] using hxs
    exact ⟨⟨⟨ps, hps⟩, xss, hxss⟩, rfl⟩

-- ---------------------------------------------------------------------------
-- A host that is its own unit
-- ---------------------------------------------------------------------------

def nestedArcs : List (Arc ExactWeight) :=
  [⟨0, 2, .finite 1⟩, ⟨2, 2, .impossible⟩, ⟨2, 1, .finite 0⟩, ⟨1, 2, .finite 1⟩]

/-- One state with a loop, to which a link leads back from Final. -/
def nested : Automaton ExactWeight :=
  ((empty : Automaton ExactWeight).addState none (letter "a")).withArcs nestedArcs

theorem nested_built : nested.Built :=
  Built.empty.addState none (letter "a") |>.withProperArcs (by decide)
    (by simp [nestedArcs, ExactWeight.Proper])

def throughNested : nested.AcceptingWalk :=
  ⟨[⟨0, 0⟩, ⟨2, 1⟩], .cons (j := 2) rfl (.cons (j := 1) rfl (.nil 1))⟩

def nestedUnits : List (Option Label × Automaton ExactWeight) := [(some (.text "a"), nested)]

theorem unitAt_nested : nested.unitAt nestedUnits 2 = some nested := by
  have label : (nested.symbolAt 2).label = some (.text "a") := rfl
  simp [unitAt, label, unitFor, nestedUnits]

theorem compose_nested : ∃ c, nested.compose nestedUnits = .ok c ∧
    ∃ f : (Σ w : nested.AcceptingWalk, nested.Filling nestedUnits w.1) → c.AcceptingWalk,
      f.Bijective ∧ ∃ w, w.1 = throughNested ∧ c.reading (f w).1 = [letter "a", letter "a"] := by
  have wf := nested_built.wellFormed
  have built : ∀ u ∈ nestedUnits, u.2.Built := by simp [nestedUnits, nested_built]
  obtain ⟨c, hc, f, hf, h⟩ := compose_walks nested_built built
  have plain : nested.unitAt nestedUnits 1 = none := unitAt_of_lt_two wf Nat.one_lt_two
  have entered : nested.entered throughNested.1 = [2, 1] := rfl
  have fills : List.Forall₂ (nested.Fills nestedUnits) (nested.entered throughNested.1)
      [throughNested.1, []] := by
    rw [entered]
    refine .cons ?_ (.cons ?_ .nil)
    · simpa only [Fills, Inside, unitAt_nested] using throughNested.2
    · simp only [Fills, Inside, plain]
  refine ⟨c, hc, f, hf, ⟨throughNested, _, fills⟩, rfl, ?_⟩
  rw [(h _).1]
  simp only [entered, List.zipWith_cons_cons, List.zipWith_nil_left, readAt, unitAt_nested, plain]
  rfl

end LogAutomata.Automaton
