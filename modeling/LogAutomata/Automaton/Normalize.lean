import LogAutomata.Automaton.Remap

/-!
# Normalization

The exponentiated weights of the links of a state are made to sum to one. A
state whose links are all impossible keeps them as they are.
-/

namespace LogAutomata

variable {W : Type} [LogWeight W]

/-- What has to be taken off each of these weights. -/
def normalizer (ws : List W) : W :=
  let total := logSum ws
  if isImpossible total then 0 else total

def State.normalizedLinks (s : State W) : List (Link W) :=
  let total := normalizer (s.links.toList.map Link.weight)
  s.links.toList.map fun l => { l with weight := l.weight - total }

namespace Automaton

def normalize (a : Automaton W) : Except Fault (Automaton W) := do
  let (table, target) := a.remap {} empty
  return target.withArcs
    (← a.carry table table "normalize" target (a.states.toList.flatMap State.normalizedLinks))

end Automaton

end LogAutomata
