import LogAutomata.Automaton.TopologicalOrder
import LogAutomata.PrefixGraph.Basic

/-!
# Merging from the left

States with the same symbol that are entered from the same merged states become
one. The states that Init reaches are folded into a prefix graph in topological
order, and each node of the graph is replayed as one state.
-/

namespace LogAutomata

variable {W : Type}

/-- A prefix graph and the nodes of the states that have been folded so far, by
the position of the state. -/
structure Folding (W : Type) where
  graph : PrefixGraph W
  nodes : Array (Option Nat)

def Folding.nodeOf (f : Folding W) (index : Int) : Except Fault Int :=
  match index with
  | .ofNat i =>
    match f.nodes[i]?.join with
    | some n => return n
    | none => throw (.noNode i)
  | .negSucc i => throw (.noNode (.negSucc i))

namespace Automaton

def incoming (a : Automaton W) (ls : List (Link W)) : Array (List (Link W)) :=
  ls.foldr (fun l table =>
    match a.position? l.dest with
    | some i => table.modify i (l :: ·)
    | none => table) (Array.replicate a.size [])

theorem getElem?_incoming {a : Automaton W} {i : Nat} (hi : i < a.size) (ls : List (Link W)) :
    (a.incoming ls)[i]? = some (ls.filter fun l => a.position? l.dest == some i) := by
  induction ls with
  | nil => simp [incoming, hi]
  | cons l ls ih =>
    unfold incoming at ih ⊢
    rw [List.foldr_cons]
    cases hp : a.position? l.dest with
    | none => simp [ih, hp]
    | some j => by_cases hj : j = i <;> simp [Array.getElem?_modify, ih, hp, hj]

/-- The state at `i`, at which these links arrive, goes into the node that its
symbol and its parents name. A link counts for the node of the state that it
claims to leave. -/
def foldState [LogWeight W] (a : Automaton W) (f : Folding W) (i : Nat)
    (arriving : List (Link W)) : Except Fault (Folding W) := do
  let parents ← arriving.mapM fun l => f.nodeOf l.src.index
  let (n, graph) := f.graph.node ⟨a.symbolAt i, i == 1⟩ parents
  let graph ← (parents.zip arriving).foldlM (fun g (parent, l) => g.add parent n l.weight i) graph
  return ⟨graph, f.nodes.setIfInBounds i (some n)⟩

def prefixGraph [LogWeight W] (a : Automaton W) : Except Fault (PrefixGraph W) := do
  let order ← a.topologicalOrder
  let incoming := a.incoming (order.flatMap a.linksFrom)
  let start : Folding W := ⟨.root, (Array.replicate a.size none).setIfInBounds 0 (some 0)⟩
  let folding ← order.tail.foldlM
    (fun f i => a.foldState f i (incoming[i]?.getD [])) start
  return folding.graph

/-- The states and the positions so far, with those of one more node. A final node
becomes Final. -/
def placeNode (placed : Automaton W × Array Nat) (n : Node W) : Automaton W × Array Nat :=
  match n.key with
  | some ⟨symbol, false⟩ => (placed.1.addState none symbol, placed.2.push placed.1.size)
  | _ => (placed.1, placed.2.push 1)

def placeNodes (nodes : List (Node W)) : Automaton W × Array Nat :=
  nodes.tail.foldl placeNode (empty, #[0])

def enter [LogWeight W] (target : Automaton W) (places : Array Nat) (x : Node W × Nat) :
    Except Fault (List (Arc W)) :=
  x.1.weights.toList.mapM fun (parent, w) =>
    match (resolve places.size parent).bind (places[·]?) with
    | some src => target.arc? (.inner src) (.inner x.2) w
    | none => throw .outOfRange

end Automaton

namespace PrefixGraph

def replay [LogWeight W] (g : PrefixGraph W) : Except Fault (Automaton W) := do
  let (target, places) := Automaton.placeNodes g.nodes.toList
  let arcs ← (g.nodes.toList.zip places.toList).tail.mapM (target.enter places)
  return target.withArcs arcs.flatten

end PrefixGraph

def Automaton.leftMerge [LogWeight W] (a : Automaton W) : Except Fault (Automaton W) := do
  (← a.prefixGraph).replay

end LogAutomata
