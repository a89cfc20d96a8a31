import LogAutomata.Fault
import LogAutomata.IntSet
import LogAutomata.Ledger
import LogAutomata.Weight

/-!
# Prefix graphs

The nodes stand for sets of states that are entered by the same prefixes. Node
0 is the root. Any other node is determined by its key and by the set of the
nodes from which it is entered: `node` makes it when it is first asked for and
finds it afterwards. `add` folds a link into a node.
-/

namespace LogAutomata

structure NodeKey where
  symbol : Symbol
  final : Bool
  deriving DecidableEq

structure Node (W : Type) where
  /-- The root alone has no key. -/
  key : Option NodeKey
  parents : IntSet
  /-- The states that have been folded into this node. -/
  members : IntSet := .empty
  /-- For each parent the log-sum of the weights of the links from there. -/
  weights : Ledger Int W := #[]

structure PrefixGraph (W : Type) where
  nodes : Array (Node W)
  /-- The numbers of the nodes, by their parents and their keys. -/
  table : Ledger (IntSet × NodeKey) Nat

/-- The position that a number names in a list of this length. A negative number
counts from the end. -/
def resolve (length : Nat) (n : Int) : Option Nat :=
  let i := if n < 0 then n + length else n
  if 0 ≤ i ∧ i < length then some i.toNat else none

/-- The position that a number has to name. A number that names none is refused
for its size if it does not fit into 64 bits. -/
def position (length : Nat) (n : Int) : Except Fault Nat :=
  match resolve length n with
  | some i => .ok i
  | none => .error (if -Int.pow 2 63 ≤ n ∧ n < Int.pow 2 63 then .outOfRange else .indexTooLarge)

namespace PrefixGraph

variable {W : Type}

def root : PrefixGraph W := ⟨#[{ key := none, parents := .empty }], #[]⟩

def size (g : PrefixGraph W) : Nat := g.nodes.size

def node (g : PrefixGraph W) (key : NodeKey) (parents : List Int) : Nat × PrefixGraph W :=
  let parents := IntSet.ofList parents
  match g.table.get? (parents, key) with
  | some n => (n, g)
  | none => (g.size, ⟨g.nodes.push { key := some key, parents },
      g.table.push ((parents, key), g.size)⟩)

def weightsAt (g : PrefixGraph W) (n : Int) : Ledger Int W :=
  (((resolve g.size n).bind (g.nodes[·]?)).map Node.weights).getD #[]

def Node.fold [LogWeight W] (n : Node W) (parent : Int) (weight : W) (member : Int) : Node W :=
  { n with
    weights := n.weights.alter parent fun old => logAdd (old.getD impossible) weight
    members := n.members.insert member }

def add [LogWeight W] (g : PrefixGraph W) (parent node : Int) (weight : W) (member : Int) :
    Except Fault (PrefixGraph W) := do
  let i ← position g.size node
  return { g with nodes := g.nodes.modify i (Node.fold · parent weight member) }

end PrefixGraph

end LogAutomata
