import LogAutomata.Automaton.Remap
import LogAutomata.Ledger

/-!
# Pushing weights

Every link gets the weight of a whole walk from Init through it. All walks are
swept, those with fewer links first, so a state is visited once for each walk
that ends there; the last visit decides. Links that no walk reaches are
dropped.
-/

namespace LogAutomata.Automaton

variable {W : Type} [LogWeight W]

def lengthen (a : Automaton W) (walks : List (Nat × W)) : Except Fault (List (Nat × W)) :=
  (walks.flatMap fun (i, offset) => (a.linksFrom i).map fun l => (l.dest, offset + l.weight)).mapM
    fun (dest, w) => return (← a.owned "push_weights" dest, w)

/-- The weights of the last visits, in order of the first visits. After as many
rounds as there are states, a walk that is left goes through a cycle. -/
def sweep (a : Automaton W) :
    Nat → List (Nat × W) → Ledger Nat W → Except Fault (Ledger Nat W)
  | _, [], offsets => return offsets
  | 0, _ :: _, _ => throw .endless
  | rounds + 1, walks, offsets => do
    sweep a rounds (← a.lengthen walks)
      (walks.foldl (fun l (i, w) => l.alter i fun _ => w) offsets)

def pushWeights (a : Automaton W) : Except Fault (Automaton W) := do
  let (table, target) := a.remap {} empty
  let offsets ← a.sweep a.size [(0, 0)] #[]
  let pushed := offsets.toList.flatMap fun (i, offset) =>
    (a.linksFrom i).map fun l => ⟨.inner i, l.dest, offset + l.weight⟩
  return target.withArcs (← a.carry table table "push_weights" target pushed)

end LogAutomata.Automaton
