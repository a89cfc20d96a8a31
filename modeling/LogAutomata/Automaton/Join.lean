import LogAutomata.Automaton.Remap

/-!
# Union and concatenation

Both put copies of several automata into one. In a union all share the
sentinels. In a concatenation each Final but the last is also the Init of the
next automaton: a splice state, which adds nothing to a sequence.
-/

namespace LogAutomata.Automaton

variable {W : Type} [LogWeight W]

def union (as : List (Automaton W)) : Except Fault (Automaton W) :=
  as.foldlM (fun target a => a.embed "union" {} target) empty

/-- Adds the given automata to `target` one after the other, the first with
`entry` as its Init. -/
def concatFrom (entry : Endpoint) : List (Automaton W) → Automaton W → Except Fault (Automaton W)
  | [], target => return target
  | [a], target => a.embed "concat" { init := entry } target
  | a :: rest, target => do
    let splice : Endpoint := .inner target.size
    let grown ← a.embed "concat" { init := entry, final := splice } (target.addState none .nil)
    concatFrom splice rest grown

def concat (as : List (Automaton W)) : Except Fault (Automaton W) :=
  concatFrom (.inner 0) as empty

end LogAutomata.Automaton
