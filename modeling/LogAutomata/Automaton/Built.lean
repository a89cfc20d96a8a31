import LogAutomata.Automaton.Coalesce
import LogAutomata.Automaton.Compose
import LogAutomata.Automaton.Join
import LogAutomata.Automaton.Minimize
import LogAutomata.Automaton.NilStates

/-!
# Built automata

`Built` holds of what can be made without `attach`, in any number of steps.
`WellFormed` says on its own what such an automaton looks like.
-/

namespace LogAutomata.Automaton

variable {W : Type} [LogWeight W]

inductive Built : Automaton W → Prop
  | empty : Built .empty
  | linear {a labels emissions weight} : linear labels emissions weight = .ok a → Built a
  | addState {a} (id : Option Int) (symbol : Symbol) : Built a → Built (a.addState id symbol)
  | link {a b src dest weight} : Built a → a.link src dest weight = .ok b → Built b
  | copy {a b} : Built a → a.copy = .ok b → Built b
  | transpose {a b} : Built a → a.transpose = .ok b → Built b
  | union {as b} : (∀ a ∈ as, Built a) → union as = .ok b → Built b
  | concat {as b} : (∀ a ∈ as, Built a) → concat as = .ok b → Built b
  | normalize {a b} : Built a → a.normalize = .ok b → Built b
  | coalesce {a b} : Built a → a.coalesce = .ok b → Built b
  | minimize {a b checked} : Built a → a.minimize checked = .ok b → Built b
  | removeNilStates {a b} : Built a → a.removeNilStates = .ok b → Built b
  | compose {a units b} : Built a → (∀ u ∈ units, Built u.2) → a.compose units = .ok b → Built b
  | pushWeights {a b} : Built a → a.pushWeights = .ok b → Built b
  | leftMerge {a b} : Built a → a.leftMerge = .ok b → Built b

/-- The state at `i` is this one, without its links. -/
def HasProfile (a : Automaton W) (i : Nat) (p : Profile) : Prop :=
  a.states[i]?.map State.profile = some p

structure WellFormed (a : Automaton W) : Prop where
  init : a.HasProfile 0 ⟨some (-1), .nil⟩
  final : a.HasProfile 1 ⟨some (-2), .nil⟩
  src_eq : ∀ i, ∀ l ∈ a.linksFrom i, l.src = .inner i
  owns_dest : ∀ i, ∀ l ∈ a.linksFrom i, a.owns l.dest
  defined : ∀ i, ∀ l ∈ a.linksFrom i, isUndefined l.weight = false
  one_le_nextId : 1 ≤ a.nextId
  id_lt_nextId : ∀ s ∈ a.interior, s.id < a.nextId

theorem WellFormed.empty : (empty : Automaton W).WellFormed where
  init := rfl
  final := rfl
  src_eq i l h := by
    rcases i with _ | _ | i <;> simp [linksFrom, Automaton.empty] at h
  owns_dest i l h := by
    rcases i with _ | _ | i <;> simp [linksFrom, Automaton.empty] at h
  defined i l h := by
    rcases i with _ | _ | i <;> simp [linksFrom, Automaton.empty] at h
  one_le_nextId := Int.le_refl 1
  id_lt_nextId s h := by simp [interior, Automaton.empty] at h

end LogAutomata.Automaton
