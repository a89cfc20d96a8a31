import LogAutomata.Proofs.Parts

/-!
# Blocks of a composition

A composition has a block of states for each state of the host, one behind the other:
the states of a unit in their order, or one copy. Links of the host arrive at the first
state of a block. They start from the unit's Final, behind the links of the unit.
-/

namespace LogAutomata

theorem Table.Sends.push {t : Table} {n k : Nat} {image : Nat → Nat} (h : t.Sends n image)
    (hn : t.size = n) (hk : image n = k) :
    Table.Sends (t.push (some (.inner k))) (n + 1) image := by
  intro i hi
  rw [Array.getElem?_push]
  split
  · next he => rw [he, hn, hk]
  · next hne => exact h i (by omega)

namespace Automaton

variable {W : Type}

-- ---------------------------------------------------------------------------
-- Positions
-- ---------------------------------------------------------------------------

section
variable (host : Automaton W) (units : List (Option Label × Automaton W)) (i m : Nat)

/-- The unit in the place of a host state. Sentinels have none, for they carry no label. -/
def unitAt : Option (Automaton W) := (host.symbolAt i).label.bind (unitFor units)

def width : Nat := ((host.unitAt units i).map size).getD 1

def entry : Nat → Nat
  | 0 => 0
  | i + 1 => entry i + host.width units i

/-- The state of the block from which the links out of the host state start. -/
def last : Nat := if (host.unitAt units i).isSome then 1 else 0

def unitRow : List (Nat × W) := ((host.unitAt units i).map (·.arcsFrom m)).getD []

def blockSymbol : Symbol :=
  match host.unitAt units i, m with
  | none, _ => host.symbolAt i
  | some _, 0 => .nil
  | some _, 1 => { label := (host.symbolAt i).label }
  | some unit, _ => unit.symbolAt m

end

section
variable {host : Automaton W} {units : List (Option Label × Automaton W)} {i j k m n : Nat}
  {unit : Automaton W}

theorem width_of_some (h : host.unitAt units i = some unit) :
    host.width units i = unit.size := by simp [width, h]

theorem width_of_none (h : host.unitAt units i = none) : host.width units i = 1 := by
  simp [width, h]

theorem last_of_some (h : host.unitAt units i = some unit) : host.last units i = 1 := by
  simp [last, h]

theorem last_of_none (h : host.unitAt units i = none) : host.last units i = 0 := by
  simp [last, h]

theorem unitRow_of_some (h : host.unitAt units i = some unit) (m : Nat) :
    host.unitRow units i m = unit.arcsFrom m := by simp [unitRow, h]

theorem unitRow_of_none (h : host.unitAt units i = none) (m : Nat) :
    host.unitRow units i m = [] := by simp [unitRow, h]

theorem blockSymbol_of_none (h : host.unitAt units i = none) (m : Nat) :
    host.blockSymbol units i m = host.symbolAt i := by simp [blockSymbol, h]

theorem blockSymbol_zero (h : host.unitAt units i = some unit) :
    host.blockSymbol units i 0 = .nil := by simp [blockSymbol, h]

theorem blockSymbol_one (h : host.unitAt units i = some unit) :
    host.blockSymbol units i 1 = { label := (host.symbolAt i).label } := by simp [blockSymbol, h]

theorem blockSymbol_add_two (h : host.unitAt units i = some unit) (m : Nat) :
    host.blockSymbol units i (m + 2) = unit.symbolAt (m + 2) := by simp [blockSymbol, h]

theorem exists_pair_of_unitAt (h : host.unitAt units i = some unit) : ∃ l, (l, unit) ∈ units :=
  exists_pair_of_unitFor h

variable [LogWeight W]

theorem unitAt_of_lt_two (hh : host.WellFormed) (hi : i < 2) : host.unitAt units i = none := by
  rcases i with _ | _ | i
  · simp [unitAt, hh.symbolAt_zero, Symbol.nil]
  · simp [unitAt, hh.symbolAt_one, Symbol.nil]
  · omega

theorem entry_of_lt_two (hh : host.WellFormed) (hi : i < 2) : host.entry units i = i := by
  rcases i with _ | _ | i
  · rfl
  · simp [entry, width_of_none (unitAt_of_lt_two hh Nat.two_pos)]
  · omega

theorem entry_two (hh : host.WellFormed) : host.entry units 2 = 2 := by
  rw [entry, entry_of_lt_two hh Nat.one_lt_two,
    width_of_none (unitAt_of_lt_two hh Nat.one_lt_two)]

omit [LogWeight W] in
theorem entry_add_lt (hi : i < k) (hm : m < host.width units i) :
    host.entry units i + m < host.entry units k := by
  induction hi with
  | refl => exact Nat.add_lt_add_left hm _
  | step _ ih => exact Nat.lt_add_right _ ih

omit [LogWeight W] in
theorem entry_add_inj (hm : m < host.width units i) (hn : n < host.width units j)
    (h : host.entry units i + m = host.entry units j + n) : i = j ∧ m = n := by
  rcases Nat.lt_trichotomy i j with hij | rfl | hij
  · have := entry_add_lt hij hm
    omega
  · exact ⟨rfl, Nat.add_left_cancel h⟩
  · have := entry_add_lt hij hn
    omega

omit [LogWeight W] in
theorem exists_entry_add {p : Nat} (hp : p < host.entry units k) :
    ∃ i < k, ∃ m < host.width units i, host.entry units i + m = p := by
  induction k with
  | zero => cases hp
  | succ k ih =>
    by_cases hk : p < host.entry units k
    · obtain ⟨i, hi, h⟩ := ih hk
      exact ⟨i, Nat.lt_succ_of_lt hi, h⟩
    · have hp : p < host.entry units k + host.width units k := hp
      exact ⟨k, Nat.lt_succ_self k, p - host.entry units k, by omega, by omega⟩

theorem last_lt_width (wf : ∀ u ∈ units, u.2.WellFormed) (i : Nat) :
    host.last units i < host.width units i := by
  cases h : host.unitAt units i with
  | none => simp [width_of_none h, last_of_none h]
  | some unit =>
    obtain ⟨l, hl⟩ := exists_pair_of_unitAt h
    rw [width_of_some h, last_of_some h]
    exact (wf _ hl).two_le_size

theorem width_pos (wf : ∀ u ∈ units, u.2.WellFormed) (i : Nat) : 0 < host.width units i :=
  Nat.zero_lt_of_lt (last_lt_width wf i)

theorem le_entry (wf : ∀ u ∈ units, u.2.WellFormed) (i : Nat) : i ≤ host.entry units i := by
  induction i with
  | zero => exact Nat.le_refl 0
  | succ i ih => exact Nat.add_le_add ih (width_pos wf i)

end

-- ---------------------------------------------------------------------------
-- Assembling
-- ---------------------------------------------------------------------------

section
variable [LogWeight W] (host : Automaton W) (units : List (Option Label × Automaton W))

/-- The assembly has the blocks of the first `k` host states, which have no links between
each other yet. -/
structure Assembled (k : Nat) (asm : Assembly W) : Prop where
  wellFormed : asm.target.WellFormed
  size_eq : asm.target.size = host.entry units k
  arcsFrom : ∀ i < k, ∀ m < host.width units i, asm.target.arcsFrom (host.entry units i + m) =
    (host.unitRow units i m).map fun e => (host.entry units i + e.1, e.2)
  symbolAt : ∀ i < k, ∀ m < host.width units i,
    asm.target.symbolAt (host.entry units i + m) = host.blockSymbol units i m
  size_exits : asm.exits.size = k
  exits : asm.exits.Sends k fun i => host.entry units i + host.last units i
  size_entries : asm.entries.size = k
  entries : asm.entries.Sends k (host.entry units)

structure Composes (c : Automaton W) : Prop where
  wellFormed : c.WellFormed
  size_eq : c.size = host.entry units host.size
  arcsFrom : ∀ i < host.size, ∀ m < host.width units i, c.arcsFrom (host.entry units i + m) =
    ((host.unitRow units i m).map fun e => (host.entry units i + e.1, e.2)) ++
      if m = host.last units i then (host.arcsFrom i).map fun e => (host.entry units e.1, e.2)
      else []
  symbolAt : ∀ i < host.size, ∀ m < host.width units i,
    c.symbolAt (host.entry units i + m) = host.blockSymbol units i m

end

section
variable [LogWeight W] {host : Automaton W} {units : List (Option Label × Automaton W)} {k : Nat}
  {asm : Assembly W} {unit : Automaton W}

theorem assembled_start (hh : host.WellFormed) : host.Assembled units 2
    ⟨empty, #[some (.inner 0), some (.inner 1)], #[some (.inner 0), some (.inner 1)]⟩ where
  wellFormed := .empty
  size_eq := (entry_two hh).symm
  arcsFrom i hi m hm := by
    simp [Automaton.arcsFrom, unitRow_of_none (unitAt_of_lt_two hh hi)]
  symbolAt i hi m hm := by
    have none : host.unitAt units i = none := unitAt_of_lt_two hh hi
    obtain rfl : m = 0 := by simpa [width_of_none none] using hm
    simp only [entry_of_lt_two hh hi, blockSymbol_of_none none]
    rcases i with _ | _ | i
    · exact hh.symbolAt_zero.symm
    · exact hh.symbolAt_one.symm
    · omega
  size_exits := rfl
  exits i hi := by
    simp only [entry_of_lt_two hh hi, last_of_none (unitAt_of_lt_two hh hi)]
    rcases i with _ | _ | i
    · rfl
    · rfl
    · omega
  size_entries := rfl
  entries i hi := by
    simp only [entry_of_lt_two hh hi]
    rcases i with _ | _ | i
    · rfl
    · rfl
    · omega

def opened (a : Automaton W) (label : Option Label) : Automaton W :=
  (a.addState none .nil).addState none { label }

section
variable {a : Automaton W} (label : Option Label)

omit [LogWeight W] in
theorem size_opened : (a.opened label).size = a.size + 2 := by simp [opened]

omit [LogWeight W] in
theorem symbolAt_opened (p : Nat) : (a.opened label).symbolAt p =
    if p = a.size + 1 then { label } else if p = a.size then .nil else a.symbolAt p := by
  rw [opened, symbolAt_addState, symbolAt_addState, size_addState]

theorem WellFormed.opened (ha : a.WellFormed) : (a.opened label).WellFormed :=
  (ha.addState _ _).addState _ _

theorem WellFormed.arcsFrom_opened (ha : a.WellFormed) (p : Nat) :
    (a.opened label).arcsFrom p = a.arcsFrom p :=
  ((ha.addState _ _).arcsFrom_addState _ _ p).trans (ha.arcsFrom_addState _ _ p)

end

theorem relocate_succ (n i : Nat) : relocate n (n + 1) (n + 2) i = n + i := by
  rcases i with _ | _ | i
  · rfl
  · rfl
  · simp only [relocate]
    omega

/-- The states of a unit go behind two fresh ones, which stand for its Init and its Final. -/
theorem Extends.block {t b : Automaton W} {n : Nat} (size : t.size = n + 2)
    (fresh : ∀ m, t.arcsFrom (n + m) = [])
    (h : unit.Extends t b (unit.arcs.map (Arc.move (relocate n (n + 1) t.size)))) :
    (∀ p < n, b.arcsFrom p = t.arcsFrom p) ∧
      ∀ m < unit.size, b.arcsFrom (n + m) = (unit.arcsFrom m).map fun e => (n + e.1, e.2) := by
  have image : ∀ m, relocate n (n + 1) t.size m = n + m := fun m => by rw [size, relocate_succ]
  have adds := h.adds (by omega) (by omega) (by omega)
  constructor
  · intro p hp
    refine adds.arcsFrom_of_ne fun m _ he => ?_
    have := (image m).symm.trans he
    omega
  · intro m hm
    have row : b.arcsFrom (relocate n (n + 1) t.size m) =
        t.arcsFrom (relocate n (n + 1) t.size m) ++
          (unit.arcsFrom m).map fun e => (relocate n (n + 1) t.size e.1, e.2) := adds.row hm
    simpa only [image, fresh, List.nil_append] using row

namespace Assembled

variable (h : host.Assembled units k asm)
include h

theorem push {t : Automaton W} (wf : t.WellFormed)
    (size : t.size = asm.target.size + host.width units k)
    (old : ∀ p < asm.target.size, t.arcsFrom p = asm.target.arcsFrom p ∧
      t.symbolAt p = asm.target.symbolAt p)
    (new : ∀ m < host.width units k, t.arcsFrom (asm.target.size + m) =
        (host.unitRow units k m).map (fun e => (asm.target.size + e.1, e.2)) ∧
      t.symbolAt (asm.target.size + m) = host.blockSymbol units k m) :
    host.Assembled units (k + 1) ⟨t,
      asm.exits.push (some (.inner (asm.target.size + host.last units k))),
      asm.entries.push (some (.inner asm.target.size))⟩ := by
  rw [h.size_eq] at size old new ⊢
  have blocks : ∀ i < k + 1, ∀ m < host.width units i, t.arcsFrom (host.entry units i + m) =
        (host.unitRow units i m).map (fun e => (host.entry units i + e.1, e.2)) ∧
      t.symbolAt (host.entry units i + m) = host.blockSymbol units i m := by
    intro i hi m hm
    rcases Nat.lt_succ_iff_lt_or_eq.1 hi with hi | rfl
    · have := old _ (entry_add_lt hi hm)
      rwa [h.arcsFrom i hi m hm, h.symbolAt i hi m hm] at this
    · exact new m hm
  exact
    { wellFormed := wf
      size_eq := size
      arcsFrom := fun i hi m hm => (blocks i hi m hm).1
      symbolAt := fun i hi m hm => (blocks i hi m hm).2
      size_exits := by simp [h.size_exits]
      exits := h.exits.push h.size_exits rfl
      size_entries := by simp [h.size_entries]
      entries := h.entries.push h.size_entries rfl }

theorem place_plain {s : State W} (hs : s.symbol = host.symbolAt k)
    (plain : host.unitAt units k = none) :
    ∃ asm', asm.place units s = .ok asm' ∧ host.Assembled units (k + 1) asm' := by
  have lookup : s.symbol.label.bind (unitFor units) = none := hs ▸ plain
  have rows := h.wellFormed.arcsFrom_addState none s.symbol
  have symbols := symbolAt_addState asm.target none s.symbol
  have pushed := h.push (h.wellFormed.addState none s.symbol)
    (by rw [size_addState, width_of_none plain])
    (fun p hp => ⟨rows p, by rw [symbols, if_neg (Nat.ne_of_lt hp)]⟩)
    (fun m hm => by
      obtain rfl : m = 0 := by simpa [width_of_none plain] using hm
      rw [rows, arcsFrom_eq_nil (Nat.le_add_right _ _), unitRow_of_none plain,
        blockSymbol_of_none plain, Nat.add_zero, symbols, if_pos rfl, hs]
      exact ⟨rfl, rfl⟩)
  rw [last_of_none plain] at pushed
  refine ⟨_, ?_, pushed⟩
  rw [Assembly.place, lookup]
  rfl

theorem place_unit {s : State W} (hs : s.symbol = host.symbolAt k)
    (filled : host.unitAt units k = some unit) (hu : unit.WellFormed) :
    ∃ asm', asm.place units s = .ok asm' ∧ host.Assembled units (k + 1) asm' := by
  have lookup : s.symbol.label.bind (unitFor units) = some unit := hs ▸ filled
  have size := size_opened (a := asm.target) s.symbol.label
  have rows := h.wellFormed.arcsFrom_opened s.symbol.label
  have symbols := symbolAt_opened (a := asm.target) s.symbol.label
  obtain ⟨b, hb, hx⟩ := embed_between hu (h.wellFormed.opened s.symbol.label)
    (i := asm.target.size) (f := asm.target.size + 1) (by omega) (by omega) "compose"
  obtain ⟨old, new⟩ := hx.block size
    (fun m => (rows _).trans (arcsFrom_eq_nil (Nat.le_add_right _ _)))
  have grown : b.size = asm.target.size + host.width units k := by
    have := hu.two_le_size
    rw [hx.size_eq, size, width_of_some filled]
    omega
  have oldSymbol : ∀ p < asm.target.size, b.symbolAt p = asm.target.symbolAt p := by
    intro p hp
    rw [hx.symbolAt_of_lt p (by omega), symbols, if_neg (by omega), if_neg (by omega)]
  have newSymbol : ∀ m, b.symbolAt (asm.target.size + m) = host.blockSymbol units k m := by
    rintro (_ | _ | m)
    · rw [hx.symbolAt_of_lt _ (by omega), symbols, blockSymbol_zero filled]
      simp
    · rw [hx.symbolAt_of_lt _ (by omega), symbols, blockSymbol_one filled, hs]
      simp
    · have := hx.symbolAt_add m
      rw [size, Nat.add_assoc, Nat.add_comm 2] at this
      rw [this, blockSymbol_add_two filled]
  have pushed := h.push hx.wellFormed grown
    (fun p hp => ⟨(old p hp).trans (rows p), oldSymbol p hp⟩)
    (fun m hm => ⟨unitRow_of_some filled m ▸ new m (width_of_some filled ▸ hm), newSymbol m⟩)
  rw [last_of_some filled] at pushed
  refine ⟨_, ?_, pushed⟩
  rw [opened] at hb
  simp only [Assembly.place, lookup, size_addState, hb, ok_bind, pure_eq_ok]

end Assembled

variable (hh : host.WellFormed) (wf : ∀ u ∈ units, u.2.WellFormed)
include hh wf

theorem assembled_take {n : Nat} (hn : n ≤ host.interior.length) :
    ∃ asm, (host.interior.take n).foldlM (Assembly.place units)
        ⟨empty, #[some (.inner 0), some (.inner 1)], #[some (.inner 0), some (.inner 1)]⟩ =
          .ok asm ∧
      host.Assembled units (n + 2) asm := by
  induction n with
  | zero => exact ⟨_, rfl, assembled_start hh⟩
  | succ n ih =>
    obtain ⟨asm, hf, h⟩ := ih (Nat.le_of_lt hn)
    have same := (symbolAt_of_interior (List.getElem?_eq_getElem hn)).symm
    obtain ⟨asm', hp, h'⟩ : ∃ asm', asm.place units host.interior[n] = .ok asm' ∧
        host.Assembled units (n + 3) asm' := by
      cases hu : host.unitAt units (n + 2) with
      | none => exact h.place_plain same hu
      | some unit =>
        obtain ⟨l, hl⟩ := exists_pair_of_unitAt hu
        exact h.place_unit same hu (wf _ hl)
    refine ⟨asm', ?_, h'⟩
    rw [List.take_add_one, List.getElem?_eq_getElem hn, List.foldlM_append, hf]
    simp [hp]

theorem compose_ok : ∃ c, host.compose units = .ok c ∧ host.Composes units c := by
  obtain ⟨asm, hasm, h⟩ := assembled_take hh wf (Nat.le_refl host.interior.length)
  have two := hh.two_le_size
  rw [List.take_length] at hasm
  rw [length_interior, Nat.sub_add_cancel two] at h
  have inside : ∀ i < host.size, ∀ m < host.width units i,
      host.entry units i + m < asm.target.size := fun i hi m hm =>
    h.size_eq ▸ entry_add_lt hi hm
  have exit := fun i hi => inside i hi _ (last_lt_width wf i)
  have fits : ∀ r ∈ host.arcs, asm.target.Fits
      ⟨host.entry units r.src + host.last units r.src, host.entry units r.dest, r.weight⟩ :=
    fun r hr => ⟨exit _ (hh.fits hr).src, inside _ (hh.fits hr).dest 0 (width_pos wf _),
      (hh.fits hr).defined⟩
  have carried := carry_ok h.exits h.entries "compose"
    (fun r hr => ⟨(hh.fits hr).src, (hh.fits hr).dest⟩) fits
  -- the links of the host are one more part
  let part : Part W := ⟨host, fun i => host.entry units i + host.last units i, host.entry units,
    fun i => (asm.target.arcsFrom (host.entry units i + host.last units i)).length⟩
  have fits' : ∀ r ∈ host.arcs.map part.arc, asm.target.Fits r := List.forall_mem_map.2 fits
  have adds : asm.target.Adds (asm.target.withArcs (host.arcs.map part.arc)) part :=
    { source_inj := fun i j _ _ he =>
        (entry_add_inj (last_lt_width wf i) (last_lt_width wf j) he).1
      first := fun _ _ => rfl
      arcsFrom := arcsFrom_withArcs fun r hr => ⟨(fits' r hr).src, (fits' r hr).dest⟩ }
  refine ⟨asm.target.withArcs (host.arcs.map part.arc), ?_, h.wellFormed.withArcs fits',
    by rw [size_withArcs, h.size_eq], fun i hi m hm => ?_, fun i hi m hm => ?_⟩
  · simp only [compose, hasm, ok_bind, hh.links_eq, carried]
    rfl
  · split
    · next he =>
      have row := adds.row hi
      rw [he]
      exact row.trans (congrArg (· ++ _) (h.arcsFrom i hi _ (last_lt_width wf i)))
    · next hne =>
      rw [List.append_nil, ← h.arcsFrom i hi m hm]
      refine adds.arcsFrom_of_ne fun j _ he => hne ?_
      obtain ⟨rfl, rfl⟩ := entry_add_inj (last_lt_width wf j) hm he
      rfl
  · rw [symbolAt_withArcs, h.symbolAt i hi m hm]

omit hh wf

-- ---------------------------------------------------------------------------
-- Parts
-- ---------------------------------------------------------------------------

/-- The host, and the unit of each block. -/
def partOf (host : Automaton W) (units : List (Option Label × Automaton W)) :
    Option Nat → Part W
  | none => ⟨host, fun i => host.entry units i + host.last units i, host.entry units,
      fun i => (host.unitRow units i (host.last units i)).length⟩
  | some i => .copy ((host.unitAt units i).getD empty) (host.entry units i + ·) fun _ => 0

omit [LogWeight W] in
theorem exists_unitAt {i : Nat} {x : Place} {e : Nat × W}
    (hx : (host.partOf units (some i)).model.arcAt x = some e) :
    ∃ unit, host.unitAt units i = some unit ∧ unit.arcAt x = some e ∧
      x.state < host.width units i ∧ i < host.size := by
  cases hu : host.unitAt units i with
  | none => simp [partOf, Part.copy, hu, arcAt_empty] at hx
  | some unit =>
    have hx : unit.arcAt x = some e := by simpa [partOf, Part.copy, hu] using hx
    refine ⟨unit, rfl, hx, width_of_some hu ▸ state_lt_size hx, Nat.lt_of_not_le fun hi => ?_⟩
    simp [unitAt, symbolAt, Array.getElem?_eq_none hi, Symbol.nil] at hu

omit [LogWeight W] in
theorem unitRow_getElem? {i : Nat} {x : Place} {e : Nat × W}
    (hx : (host.partOf units (some i)).model.arcAt x = some e) :
    (host.unitRow units i x.state)[x.number]? = some e := by
  obtain ⟨unit, hu, hx, -⟩ := exists_unitAt hx
  rw [unitRow_of_some hu]
  exact hx

/-- Links of the host are behind those of the unit from which they start. -/
theorem place_host_ne (wf : ∀ u ∈ units, u.2.WellFormed) {i : Nat} {x y : Place} {e : Nat × W}
    (hy : (host.partOf units (some i)).model.arcAt y = some e) :
    (host.partOf units none).place x ≠ (host.partOf units (some i)).place y := by
  intro he
  obtain ⟨-, -, -, hlt, -⟩ := exists_unitAt hy
  obtain ⟨hs, hn⟩ := Place.mk.inj he
  obtain ⟨rfl, hl⟩ := entry_add_inj (last_lt_width wf x.state) hlt hs
  have inside := (List.getElem?_eq_some_iff.1 (unitRow_getElem? hy)).1
  have hn : (host.unitRow units x.state (host.last units x.state)).length + x.number =
      0 + y.number := hn
  rw [hl] at hn
  omega

namespace Composes

variable {c : Automaton W} (h : host.Composes units c) {i m n : Nat} (hi : i < host.size)
  (hm : m < host.width units i)
include h hi hm

theorem arcAt_block (hn : n < (host.unitRow units i m).length) :
    c.arcAt ⟨host.entry units i + m, n⟩ =
      (host.unitRow units i m)[n]?.map fun e => (host.entry units i + e.1, e.2) := by
  rw [arcAt, h.arcsFrom i hi m hm, List.getElem?_append_left (by simpa using hn),
    List.getElem?_map]

theorem arcAt_host : c.arcAt ⟨host.entry units i + m, (host.unitRow units i m).length + n⟩ =
    if m = host.last units i then (host.arcsFrom i)[n]?.map fun e => (host.entry units e.1, e.2)
    else none := by
  rw [arcAt, h.arcsFrom i hi m hm, List.getElem?_append_right (by simp), List.length_map,
    Nat.add_sub_cancel_left]
  split
  · rw [List.getElem?_map]
  · rfl

omit hi hm

theorem madeOf (wf : ∀ u ∈ units, u.2.WellFormed) : c.MadeOf (host.partOf units) where
  arcAt
    | none, x, e, hx => by
      have hx : (host.arcsFrom x.state)[x.number]? = some e := hx
      refine (h.arcAt_host (state_lt_size hx) (last_lt_width wf _)).trans ?_
      rw [if_pos rfl, hx]
      rfl
    | some i, x, e, hx => by
      obtain ⟨unit, -, -, hlt, hi⟩ := exists_unitAt hx
      have hx := unitRow_getElem? hx
      rw [partOf, Part.copy, Part.place, Nat.zero_add,
        h.arcAt_block hi hlt (List.getElem?_eq_some_iff.1 hx).1, hx]
      rfl
  onto y e hy := by
    obtain ⟨p, n⟩ := y
    obtain ⟨i, hi, m, hm, rfl⟩ := exists_entry_add (h.size_eq ▸ state_lt_size hy)
    rcases Nat.lt_or_ge n (host.unitRow units i m).length with hn | hn
    · cases hu : host.unitAt units i with
      | none => simp [unitRow_of_none hu] at hn
      | some unit =>
        rw [unitRow_of_some hu] at hn
        refine ⟨some i, ⟨m, n⟩, (unit.arcsFrom m)[n], ?_, ?_⟩
        · simp [partOf, Part.copy, hu, Automaton.arcAt]
        · simp [partOf, Part.copy, Part.place]
    · obtain ⟨n, rfl⟩ := Nat.exists_eq_add_of_le hn
      rw [h.arcAt_host hi hm] at hy
      split at hy
      · next hl =>
        obtain ⟨f, hf, -⟩ := Option.map_eq_some_iff.1 hy
        exact ⟨none, ⟨i, n⟩, f, hf, by rw [hl]; rfl⟩
      · cases hy
  apart
    | none, none, ⟨i, n⟩, ⟨j, m⟩, _, _, _, _, he => by
      obtain ⟨hs, hn⟩ := Place.mk.inj he
      obtain ⟨rfl, -⟩ := entry_add_inj (last_lt_width wf i) (last_lt_width wf j) hs
      obtain rfl : n = m := Nat.add_left_cancel hn
      exact ⟨rfl, rfl⟩
    | none, some j, x, y, _, _, _, hy, he => absurd he (place_host_ne wf hy)
    | some i, none, x, y, _, _, hx, _, he => absurd he.symm (place_host_ne wf hx)
    | some k, some l, ⟨i, n⟩, ⟨j, m⟩, _, _, hx, hy, he => by
      obtain ⟨-, -, -, hx, -⟩ := exists_unitAt hx
      obtain ⟨-, -, -, hy, -⟩ := exists_unitAt hy
      obtain ⟨hs, hn⟩ := Place.mk.inj he
      obtain ⟨rfl, hij⟩ := entry_add_inj hx hy hs
      obtain rfl : i = j := hij
      obtain rfl : n = m := Nat.add_left_cancel hn
      exact ⟨rfl, rfl⟩

end Composes

end

end Automaton

end LogAutomata
