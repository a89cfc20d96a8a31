import LogAutomata.Automaton.Basic

/-!
# Walks

What an automaton means: its walks from Init to Final, what each of them reads
and what it weighs. A walk is a list of places of links, so parallel links make
different walks. Links whose target is not in the automaton are on no walk.
-/

namespace LogAutomata

/-- A link by the position of the state that holds it and its place there. -/
structure Place where
  state : Nat
  number : Nat
  deriving DecidableEq

namespace Automaton

variable {W : Type}

def linkAt (a : Automaton W) (p : Place) : Option (Link W) := (a.linksFrom p.state)[p.number]?

def arrival (a : Automaton W) (p : Place) : Option Nat :=
  (a.linkAt p).bind fun l => a.position? l.dest

inductive IsWalk (a : Automaton W) : Nat → List Place → Nat → Prop
  | nil (i : Nat) : IsWalk a i [] i
  | cons {i j k n : Nat} {rest : List Place} :
      a.arrival ⟨i, n⟩ = some j → IsWalk a j rest k → IsWalk a i (⟨i, n⟩ :: rest) k

/-- There is a walk from `i` to `j`, perhaps of no links. -/
def Reaches (a : Automaton W) (i j : Nat) : Prop := ∃ ps, a.IsWalk i ps j

/-- Some walk of one link or more leads from `i` back to `i`. -/
def OnCycle (a : Automaton W) (i : Nat) : Prop := ∃ p ps, a.IsWalk i (p :: ps) i

def Acyclic (a : Automaton W) : Prop := ∀ i, a.Reaches 0 i → ¬a.OnCycle i

def entered (a : Automaton W) (ps : List Place) : List Nat := ps.filterMap a.arrival

def weights (a : Automaton W) (ps : List Place) : List W :=
  ps.filterMap fun p => (a.linkAt p).map Link.weight

/-- The weights along a walk, added from the left. -/
def walkWeight [Zero W] [Add W] (a : Automaton W) (ps : List Place) : W :=
  (a.weights ps).foldl (· + ·) 0

/-- The symbols of the interior states that a walk enters. -/
def spelling (a : Automaton W) (ps : List Place) : List Symbol :=
  ((a.entered ps).filter fun i => !isSentinel i).map a.symbolAt

/-- The spelling without nil symbols, which add nothing to a sequence. -/
def reading (a : Automaton W) (ps : List Place) : List Symbol :=
  (a.spelling ps).filter fun s => !s.isNil

def Spells (a : Automaton W) (symbols : List Symbol) : Prop :=
  ∃ ps, a.IsWalk 0 ps 1 ∧ a.spelling ps = symbols

abbrev AcceptingWalk (a : Automaton W) := { ps : List Place // a.IsWalk 0 ps 1 }

def Accepts (a : Automaton W) (symbols : List Symbol) : Prop :=
  ∃ ps, a.IsWalk 0 ps 1 ∧ a.reading ps = symbols

theorem IsWalk.append {a : Automaton W} {i j k : Nat} {ps qs : List Place}
    (h : a.IsWalk i ps j) (h' : a.IsWalk j qs k) : a.IsWalk i (ps ++ qs) k := by
  induction h with
  | nil => exact h'
  | cons hp _ ih => exact .cons hp (ih h')

theorem Reaches.refl (a : Automaton W) (i : Nat) : a.Reaches i i := ⟨[], .nil i⟩

theorem Reaches.trans {a : Automaton W} {i j k : Nat} :
    a.Reaches i j → a.Reaches j k → a.Reaches i k := by
  rintro ⟨ps, hp⟩ ⟨qs, hq⟩
  exact ⟨ps ++ qs, hp.append hq⟩

theorem isWalk_nil_iff {a : Automaton W} {i k : Nat} : a.IsWalk i [] k ↔ i = k := by
  constructor
  · intro h
    cases h
    rfl
  · rintro rfl
    exact .nil i

theorem isWalk_cons_iff {a : Automaton W} {i k : Nat} {p : Place} {ps : List Place} :
    a.IsWalk i (p :: ps) k ↔ p.state = i ∧ ∃ j, a.arrival p = some j ∧ a.IsWalk j ps k := by
  constructor
  · intro h
    cases h with
    | cons hp h => exact ⟨rfl, _, hp, h⟩
  · obtain ⟨s, n⟩ := p
    rintro ⟨rfl, j, hp, h⟩
    exact .cons hp h

end Automaton

end LogAutomata
