import LogAutomata.Automaton.Cycle
import LogAutomata.Automaton.LeftMerge
import LogAutomata.Automaton.Normalize
import LogAutomata.Automaton.PushWeights
import LogAutomata.Automaton.Transpose

/-!
# Minimization

Weights are pushed away from Init. Then states that share their prefixes are
merged and, in the transposed automaton, states that share their suffixes. A
merge on one side can make another possible on the other side, so both are
repeated for as long as states disappear. In the end weights are normalized.
-/

namespace LogAutomata.Automaton

variable {W : Type} [LogWeight W]

def mergeRound (a : Automaton W) : Except Fault (Automaton W) := do
  (← (← (← a.leftMerge).transpose).leftMerge).transpose

/-- Repeats rounds until one leaves as many states as before, and counts them. -/
def settle (a : Automaton W) : Except Fault (Nat × Automaton W) := do
  let merged ← a.mergeRound
  if merged.size < a.size then
    let (rounds, settled) ← settle merged
    return (rounds + 1, settled)
  else return (1, merged)
termination_by a.size

def minimize (a : Automaton W) (checked : Bool) : Except Fault (Automaton W) := do
  if checked then a.checkAcyclic
  (← (← a.pushWeights).settle).2.normalize

end LogAutomata.Automaton
