import LogAutomata.Automaton.Remap

/-!
# Composition

A host automaton says in which order units come, and each unit has an automaton
of its own. `compose` puts the unit's automaton in the place of every host
state that carries its label. The links into such a state arrive at a fresh
state without label, the unit's Init; the links out of it start at a fresh
state that keeps the label, the unit's Final. Other states are copied.
-/

namespace LogAutomata.Automaton

variable {W : Type} [LogWeight W]

/-- The automaton for a label. A later pair overrides an earlier one. -/
def unitFor (units : List (Option Label × Automaton W)) (label : Label) : Option (Automaton W) :=
  units.reverse.lookup (some label)

omit [LogWeight W] in
theorem exists_pair_of_unitFor {units : List (Option Label × Automaton W)} {label : Option Label}
    {unit : Automaton W} (h : label.bind (unitFor units) = some unit) :
    ∃ l, (l, unit) ∈ units := by
  obtain ⟨l, -, h⟩ := Option.bind_eq_some_iff.1 h
  obtain ⟨us, vs, h, -⟩ := List.lookup_eq_some_iff.1 h
  have : (some l, unit) ∈ units.reverse := by simp [h]
  exact ⟨some l, List.mem_reverse.1 this⟩

/-- An automaton in the making, with the states that take over the links out of
and into the host states so far. -/
structure Assembly (W : Type) where
  target : Automaton W
  exits : Table
  entries : Table

def Assembly.place (units : List (Option Label × Automaton W)) (asm : Assembly W)
    (s : State W) : Except Fault (Assembly W) := do
  let here : Endpoint := .inner asm.target.size
  match s.symbol.label.bind (unitFor units) with
  | none =>
    return ⟨asm.target.addState none s.symbol, asm.exits.push (some here), asm.entries.push (some here)⟩
  | some sub =>
    let opened := asm.target.addState none .nil
    let exit : Endpoint := .inner opened.size
    let closed := opened.addState none { label := s.symbol.label }
    return ⟨← sub.embed "compose" { init := here, final := exit } closed,
      asm.exits.push (some exit), asm.entries.push (some here)⟩

def compose (host : Automaton W) (units : List (Option Label × Automaton W)) :
    Except Fault (Automaton W) := do
  let sentinels : Table := #[some (.inner 0), some (.inner 1)]
  let asm ← host.interior.foldlM (Assembly.place units) ⟨empty, sentinels, sentinels⟩
  return asm.target.withArcs
    (← host.carry asm.exits asm.entries "compose" asm.target host.links)

end LogAutomata.Automaton
