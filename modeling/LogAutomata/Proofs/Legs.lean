import LogAutomata.Proofs.NilStates

/-!
# A link for each leg

The result of the elision has the states that are not nil, in their order, and one link for
each leg of a kept state that Init reaches. The link joins the two ends of the leg and has
the weight along it. No two links stand for one leg, and no leg is without a link, whatever
cycles there are. Only a leg along which the weights have no sum is refused.
-/

namespace LogAutomata.Automaton

variable {W : Type} {a b : Automaton W} {ls : List Trip}

-- ---------------------------------------------------------------------------
-- The kept states in order
-- ---------------------------------------------------------------------------

def keptStates (a : Automaton W) : List Nat := (List.range a.size).filter fun i => !a.isNil i

theorem mem_keptStates_iff {i : Nat} : i ∈ a.keptStates ↔ i < a.size ∧ a.isNil i = false := by
  simp [keptStates]

theorem nodup_keptStates (a : Automaton W) : a.keptStates.Nodup := List.nodup_range.filter _

theorem keptImage_eq_countP {i : Nat} (hi : i ≤ a.size) :
    a.keptImage audible i = (List.range i).countP fun j => !a.isNil j := by
  rcases i with _ | _ | i
  · rfl
  · rfl
  · have front : (a.interior.take i).map (·.symbol) =
        (List.range i).map fun j => a.symbolAt (j + 2) := by
      rw [List.map_take, symbols_interior, ← List.map_take, List.take_range]
      congr 2
      omega
    have shift : List.range (i + 2) = [0, 1] ++ (List.range i).map (· + 2) := by
      simp [List.range_succ_eq_map]
    calc a.keptImage audible (i + 2)
        = 2 + ((a.interior.take i).map (·.symbol)).countP audible := by
          rw [keptImage, List.countP_map]
          rfl
      _ = 2 + (List.range i).countP fun j => !a.isNil (j + 2) := by
          rw [front, List.countP_map]
          rfl
      _ = (List.range (i + 2)).countP fun j => !a.isNil j := by
          rw [shift, List.countP_append, List.countP_map]
          rfl

theorem keptStates_keptImage {i : Nat} (hi : i < a.size) (kept : a.isNil i = false) :
    a.keptStates[a.keptImage audible i]? = some i := by
  have := getElem?_filter_countP (p := fun j => !a.isNil j) (List.getElem?_range hi)
    (by simp [kept])
  rwa [List.take_range, Nat.min_eq_left (Nat.le_of_lt hi),
    ← keptImage_eq_countP (Nat.le_of_lt hi)] at this

variable [LogWeight W]

namespace Skips

variable (h : a.Skips b ls) (ha : a.WellFormed)
include h ha

theorem keptStates_of_lt {k : Nat} (hk : k < b.size) :
    ∃ i, a.keptStates[k]? = some i ∧ b.symbolAt k = a.symbolAt i := by
  obtain ⟨i, hi, keeps, rfl⟩ := h.exists_model ha hk
  refine ⟨i, keptStates_keptImage hi ((keeps_audible_iff hi).1 keeps), ?_⟩
  rcases i with _ | _ | i
  · rw [keptImage, h.wellFormed.symbolAt_zero, ha.symbolAt_zero]
  · rw [keptImage, h.wellFormed.symbolAt_one, ha.symbolAt_one]
  · exact h.symbolAt _ (Nat.le_add_left 2 i) keeps

theorem length_keptStates : a.keptStates.length = b.size := by
  refine Nat.le_antisymm (Nat.le_of_not_lt fun hlt => ?_) (Nat.le_of_not_lt fun hlt => ?_)
  · obtain ⟨hi, kept⟩ := mem_keptStates_iff.1 (List.getElem_mem hlt)
    have place := keptStates_keptImage hi kept
    have same := (List.getElem?_inj hlt (nodup_keptStates a)).1
      ((List.getElem?_eq_getElem hlt).trans place.symm)
    have inside := h.lt_size _ ((keeps_audible_iff hi).2 kept)
    omega
  · obtain ⟨i, hi, -⟩ := h.keptStates_of_lt ha hlt
    exact Nat.lt_irrefl _ (List.getElem?_eq_some_iff.1 hi).1

theorem symbols_eq : b.states.toList.map (·.symbol) = a.keptStates.map a.symbolAt := by
  refine List.ext_getElem? fun k => ?_
  by_cases hk : k < b.size
  · obtain ⟨i, hi, same⟩ := h.keptStates_of_lt ha hk
    have hs : b.states[k]? = some b.states[k] := Array.getElem?_eq_getElem hk
    have here : b.symbolAt k = b.states[k].symbol := by simp [Automaton.symbolAt, hs]
    simpa [hi, hs, here] using same
  · have short : a.keptStates.length ≤ k := (h.length_keptStates ha).trans_le (Nat.not_lt.1 hk)
    have out : b.states[k]? = none := Array.getElem?_eq_none (Nat.not_lt.1 hk)
    simp [List.getElem?_eq_none short, out]

end Skips

-- ---------------------------------------------------------------------------
-- The links and the legs
-- ---------------------------------------------------------------------------

abbrev LinkPlace (a : Automaton W) := { y : Place // (a.linkAt y).isSome }

/-- The walks of one link or more from kept states that Init reaches to kept states, with only
different nil states between. -/
abbrev ReachedLeg (a : Automaton W) :=
  { t : Trip // a.Leg t ∧ a.isNil t.root = false ∧ a.Reaches 0 t.root }

namespace Skips

variable (h : a.Skips b ls) (ha : a.WellFormed)
include h

theorem linkAt_eq (y : Place) : b.linkAt y = (a.legAt ls y).map fun l =>
    ⟨.inner y.state, .inner (a.keptImage audible (a.tip l)), a.walkWeight l.places⟩ := by
  rw [h.wellFormed.linkAt_eq y.state y.number]
  change (b.arcAt y).map _ = _
  rw [h.arcAt_eq, Option.map_map]
  rfl

include ha

theorem linkAt_leg {y : Place} {l : Trip} (hl : a.legAt ls y = some l) :
    ∃ j, a.keptStates[y.state]? = some l.root ∧ a.keptStates[j]? = some (a.tip l) ∧
      b.linkAt y = some ⟨.inner y.state, .inner j, a.walkWeight l.places⟩ := by
  have h0 : 0 < a.size := Nat.lt_of_lt_of_le Nat.two_pos ha.two_le_size
  obtain ⟨hm, root⟩ := legAt_spec hl
  obtain ⟨leg, kept, reaches⟩ := (h.mem_legs_iff ha).1 hm
  have tip : a.Reaches 0 (a.tip l) := reaches.trans ⟨_, leg.walk⟩
  refine ⟨a.keptImage audible (a.tip l), ?_, keptStates_keptImage (tip.lt_size h0) leg.kept, ?_⟩
  · rw [← root]
    exact keptStates_keptImage (reaches.lt_size h0) kept
  · rw [h.linkAt_eq, hl]
    rfl

theorem exists_bijective : ∃ f : b.LinkPlace → a.ReachedLeg, f.Bijective ∧
    ∀ y, a.legAt ls y.1 = some (f y).1 := by
  have stands : ∀ y : b.LinkPlace, ∃ t : a.ReachedLeg, a.legAt ls y.1 = some t.1 := by
    rintro ⟨y, hy⟩
    rw [h.linkAt_eq, Option.isSome_map] at hy
    obtain ⟨l, hl⟩ := Option.isSome_iff_exists.1 hy
    exact ⟨⟨l, (h.mem_legs_iff ha).1 (legAt_spec hl).1⟩, hl⟩
  choose f hf using stands
  refine ⟨f, ⟨fun y z he => ?_, fun t => ?_⟩, hf⟩
  · have same : a.legAt ls z.1 = some (f y).1 := he ▸ hf z
    exact Subtype.ext (h.legAt_inj (hf y) same)
  · obtain ⟨n, hn⟩ := exists_legAt ((h.mem_legs_iff ha).2 t.2)
    have link : (b.linkAt ⟨a.keptImage audible t.1.root, n⟩).isSome := by
      rw [h.linkAt_eq, hn]
      rfl
    exact ⟨⟨_, link⟩, Subtype.ext (Option.some.inj ((hf ⟨_, link⟩).symm.trans hn))⟩

end Skips

theorem removeNilStates_undefined_iff {W : Type} [LogWeight W] {a : Automaton W}
    (ha : a.WellFormed) :
    (∃ src dest, a.removeNilStates = .error (.undefinedWeight src dest)) ↔
      ∃ t : a.ReachedLeg, isUndefined (a.walkWeight t.1.places) = true := by
  rcases removeNilStates_cases ha with ⟨⟨l, leg, kept, reaches, lost⟩, refused⟩ |
    ⟨b, ls, defined, hb, h⟩
  · let t : a.ReachedLeg := ⟨l, leg, kept, reaches⟩
    exact ⟨fun _ => ⟨t, lost⟩, fun _ => refused⟩
  · constructor
    · rintro ⟨src, dest, refused⟩
      cases hb.symm.trans refused
    · rintro ⟨⟨t, reached⟩, lost⟩
      cases (defined t ((h.mem_legs_iff ha).2 reached)).symm.trans lost

/-- Unless a leg has no weight, the states are those that are not nil, in their order, and the
links are the legs of those that Init reaches, with the weights along them. -/
theorem removeNilStates_legs {W : Type} [LogWeight W] {a : Automaton W} (ha : a.Built) :
    ((∃ src dest, a.removeNilStates = .error (.undefinedWeight src dest)) ↔
      ∃ t : a.ReachedLeg, isUndefined (a.walkWeight t.1.places) = true) ∧
    ((∀ t : a.ReachedLeg, isUndefined (a.walkWeight t.1.places) = false) →
      ∃ b, a.removeNilStates = .ok b ∧
        b.states.toList.map (·.symbol) = a.keptStates.map a.symbolAt ∧
        ∃ f : b.LinkPlace → a.ReachedLeg, f.Bijective ∧ ∀ y, ∃ j,
          a.keptStates[y.1.state]? = some (f y).1.root ∧
          a.keptStates[j]? = some (a.tip (f y).1) ∧
          b.linkAt y.1 = some ⟨.inner y.1.state, .inner j, a.walkWeight (f y).1.places⟩) := by
  have wf := ha.wellFormed
  refine ⟨removeNilStates_undefined_iff wf, fun none => ?_⟩
  rcases removeNilStates_cases wf with ⟨⟨l, leg, kept, reaches, lost⟩, -⟩ | ⟨b, ls, -, hb, h⟩
  · cases (none ⟨l, leg, kept, reaches⟩).symm.trans lost
  · obtain ⟨f, hf, stands⟩ := h.exists_bijective wf
    exact ⟨b, hb, h.symbols_eq wf, f, hf, fun y => h.linkAt_leg wf (stands y)⟩

/-- The two nil states of the chain are on one leg, along which the weights have no sum. -/
theorem removeNilStates_steep : steep.Built ∧
    (∀ l ∈ steep.links, l.weight.isFinite = true ∨ isImpossible l.weight = true) ∧
    ¬∃ b, steep.removeNilStates = .ok b := by
  have underWay : steep.UnderWay ⟨0, [⟨0, 0⟩, ⟨2, 0⟩]⟩ :=
    ⟨.cons (j := 2) rfl (.cons (j := 3) rfl (.nil 3)), by decide +kernel, by decide +kernel⟩
  have leg : steep.Leg ⟨0, [⟨0, 0⟩, ⟨2, 0⟩, ⟨3, 0⟩]⟩ := ⟨⟨_, ⟨3, 0⟩, rfl, underWay⟩, steep_walk, rfl⟩
  refine ⟨steep_built, steep_weights, ?_⟩
  rintro ⟨b, hb⟩
  obtain ⟨src, dest, refused⟩ := (removeNilStates_undefined_iff steep_built.wellFormed).2
    ⟨⟨_, leg, rfl, .refl _ 0⟩, steep_walkWeight⟩
  cases hb.symm.trans refused

-- ---------------------------------------------------------------------------
-- Cycles of all kinds
-- ---------------------------------------------------------------------------

/-- Two nil states and one that is read. There are cycles of nil states, of kept ones and of
both, and two links between the same states. -/
def circledArcs : List (Arc ExactWeight) :=
  [⟨0, 2, .finite 1⟩, ⟨0, 2, .finite 0⟩, ⟨1, 4, .finite 1⟩, ⟨2, 3, .finite 0⟩, ⟨3, 2, .finite 1⟩,
    ⟨3, 3, .finite 0⟩, ⟨3, 4, .impossible⟩, ⟨4, 2, .finite 0⟩, ⟨4, 4, .finite 1⟩, ⟨4, 1, .finite 0⟩]

def circled : Automaton ExactWeight :=
  (((empty.addState none .nil).addState none .nil).addState none (letter "a")).withArcs circledArcs

theorem circledArcs_proper : ∀ r ∈ circledArcs, r.weight.Proper := by
  simp [circledArcs, ExactWeight.Proper]

theorem circled_built : circled.Built :=
  ((Built.empty.addState none .nil).addState none .nil).addState none (letter "a")
    |>.withProperArcs (by decide) circledArcs_proper

theorem keptStates_circled : circled.keptStates = [0, 1, 4] := by decide

/-- The states 0, 1 and 4 become 0, 1 and 2. -/
theorem removeNilStates_legs_circled : ∃ b, circled.removeNilStates = .ok b ∧
    b.states.toList.map (·.symbol) = [0, 1, 4].map circled.symbolAt ∧
    ∃ f : b.LinkPlace → circled.ReachedLeg, f.Bijective ∧ ∀ y, ∃ j,
      [0, 1, 4][y.1.state]? = some (f y).1.root ∧
      [0, 1, 4][j]? = some (circled.tip (f y).1) ∧
      b.linkAt y.1 = some ⟨.inner y.1.state, .inner j, circled.walkWeight (f y).1.places⟩ := by
  have proper := circled_built.wellFormed.weighted
    (circled_built.wellFormed.forall_links circledArcs_proper)
  have := (removeNilStates_legs circled_built).2 fun t =>
    proper.walkWeight_defined circled_built.wellFormed t.2.1.walk
  rwa [keptStates_circled] at this

end LogAutomata.Automaton
