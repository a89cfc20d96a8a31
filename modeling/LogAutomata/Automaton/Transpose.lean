import LogAutomata.Automaton.Remap

/-!
# Transposition

All links reversed. Init and Final swap their parts and keep their places, and
interior states keep their ids.
-/

namespace LogAutomata.Automaton

def transpose {W : Type} [LogWeight W] (a : Automaton W) : Except Fault (Automaton W) := do
  let swapped : Remap := { init := .inner 1, final := .inner 0, keepIds := true }
  let (table, target) := a.remap swapped empty
  return target.withArcs
    (← a.carry table table "transpose" target (a.links.map Link.reverse))

end LogAutomata.Automaton
