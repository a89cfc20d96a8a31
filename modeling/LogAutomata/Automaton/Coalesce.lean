import LogAutomata.Automaton.Remap
import LogAutomata.Ledger

/-!
# Coalescing

Parallel links become one link with the log-sum of their weights, in the place
of the first of them. Links to different states stay apart, whatever the labels
of those states.
-/

namespace LogAutomata

@[specialize]
def tally {κ W : Type} [DecidableEq κ] [LogWeight W] (entries : List (κ × W)) : Ledger κ W :=
  entries.foldl (fun l (key, w) => l.alter key fun old => logAdd (old.getD impossible) w) #[]

namespace Automaton

variable {W : Type} [LogWeight W]

def coalesce (a : Automaton W) : Except Fault (Automaton W) := do
  let (_, target) := a.remap {} empty
  let entries ← a.links.mapM fun l => do
    let src ← a.owned "coalesce" l.src
    let dest ← a.owned "coalesce" l.dest
    return ((src, dest), l.weight)
  let arcs ← (tally entries).toList.mapM fun ((src, dest), w) =>
    target.arc? (.inner src) (.inner dest) w
  return target.withArcs arcs

end Automaton

end LogAutomata
