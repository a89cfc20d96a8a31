import LogAutomata.Automaton.Basic

/-!
# Remapping

How the states of one automaton come to stand in another one. `remap` adds
copies of the interior states and answers the table of counterparts; the
sentinels get the counterparts that the caller chooses. `carry` then moves
links along such tables, and `embed` does both.
-/

namespace LogAutomata

/-- The counterparts of an automaton's states, by position. -/
abbrev Table := Array (Option Endpoint)

structure Remap where
  /-- The counterpart of Init. -/
  init : Endpoint := .inner 0
  /-- The counterpart of Final. -/
  final : Endpoint := .inner 1
  /-- Copies have the ids of their models, and fresh ids otherwise. -/
  keepIds : Bool := false
  /-- The interior states that are copied. -/
  keep : Symbol → Bool := fun _ => true

namespace Automaton

variable {W : Type}

/-- Adds a copy of the state to the automaton, and its counterpart to the table.
A state that is not kept has none. -/
def copyState (r : Remap) : Table × Automaton W → State W → Table × Automaton W
  | (table, target), s =>
    if r.keep s.symbol then
      (table.push (some (.inner target.size)),
        target.addState (if r.keepIds then some s.id else none) s.symbol)
    else (table.push none, target)

def remap (a : Automaton W) (r : Remap) (target : Automaton W) : Table × Automaton W :=
  a.interior.foldl (copyState r) (#[some r.init, some r.final], target)

def mapped (a : Automaton W) (table : Table) (operation : String) (e : Endpoint) :
    Except Fault Endpoint := do
  let i ← a.owned operation e
  match table[i]?.join with
  | some image => return image
  | none => throw (.unmapped operation (a.profile e))

/-- The arcs of `target` that stand for links of `a`. The ends at which links
start and those at which they arrive may have different counterparts. -/
def carry [LogWeight W] (a : Automaton W) (starts arrivals : Table) (operation : String)
    (target : Automaton W) (ls : List (Link W)) : Except Fault (List (Arc W)) :=
  ls.mapM fun l => do
    let src ← a.mapped starts operation l.src
    let dest ← a.mapped arrivals operation l.dest
    target.arc? src dest l.weight

def embed [LogWeight W] (a : Automaton W) (operation : String) (r : Remap)
    (target : Automaton W) : Except Fault (Automaton W) := do
  let (table, grown) := a.remap r target
  return grown.withArcs (← a.carry table table operation grown a.links)

def copy [LogWeight W] (a : Automaton W) : Except Fault (Automaton W) :=
  a.embed "copy" { keepIds := true } empty

end Automaton

end LogAutomata
