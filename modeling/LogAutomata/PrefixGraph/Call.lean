import LogAutomata.PrefixGraph.Basic

/-!
# Calls on a prefix graph

The two ways to work with a prefix graph as values, and runs of them.
-/

namespace LogAutomata.PrefixGraph

variable {W : Type}

inductive Call (W : Type)
  | node (key : NodeKey) (parents : List Int)
  | add (parent node : Int) (weight : W) (member : Int)

inductive Reply (W : Type)
  /-- The number of the node that was made or found. -/
  | number (n : Nat)
  /-- The weights of the node into which a link was folded. -/
  | weights (table : Ledger Int W)

variable [LogWeight W]

/-- A call that fails changes nothing. -/
def perform (g : PrefixGraph W) : Call W → PrefixGraph W × Except Fault (Reply W)
  | .node key parents =>
    let (n, grown) := g.node key parents
    (grown, .ok (.number n))
  | .add parent node weight member =>
    match g.add parent node weight member with
    | .ok grown => (grown, .ok (.weights (grown.weightsAt node)))
    | .error f => (g, .error f)

/-- The graph after all calls, and for each call its reply with the number of
nodes after it. -/
def performAll (g : PrefixGraph W) :
    List (Call W) → PrefixGraph W × List (Except Fault (Reply W) × Nat)
  | [] => (g, [])
  | c :: cs =>
    let (grown, reply) := g.perform c
    let (last, replies) := grown.performAll cs
    (last, (reply, grown.size) :: replies)

end LogAutomata.PrefixGraph
