import LogAutomata.Automaton.Remap
import LogAutomata.Ledger
import LogAutomata.PrefixGraph.Basic

/-!
# Workspaces

A workspace binds names to automata. Every automaton has a number of its own,
which a later one under the same name does not take over; so a handle keeps
telling which automaton it was taken from.
-/

namespace LogAutomata

variable {W : Type}

structure Entry (W : Type) where
  number : Nat
  automaton : Automaton W

structure Workspace (W : Type) where
  entries : Ledger String (Entry W) := #[]
  nextNumber : Nat := 0

/-- How a state is named: by its position in the automaton at hand or in a named
one, or as a state that belongs to no automaton. -/
inductive StateRef
  | here (position : Int)
  | of (name : String) (position : Int)
  | loose (index : Int) (profile : Profile)

/-- How a state is shown beside an automaton: by its position there, or by its
index and its id if that automaton does not hold it. -/
inductive StateView
  | owned (index : Nat)
  | foreign (index : Int) (id : Option Int)
  deriving DecidableEq

def Endpoint.view : Endpoint → StateView
  | .inner i => .owned i
  | .outer h => .foreign h.index h.profile.id

def Handle.endpoint (h : Handle) (number : Nat) : Endpoint :=
  if h.home = some number then .inner h.index.toNat else .outer h

-- ---------------------------------------------------------------------------
-- One automaton
-- ---------------------------------------------------------------------------

namespace Entry

def handle (e : Entry W) (p : Endpoint) : Handle :=
  match p with
  | .inner i => ⟨some e.number, i, e.automaton.profile p⟩
  | .outer h => h

def endpoint (e : Entry W) (h : Handle) : Endpoint := h.endpoint e.number

/-- The state at a position, where negative positions count from the end. -/
def stateAt (e : Entry W) (n : Int) : Except Fault Handle :=
  return e.handle (.inner (← position e.automaton.size n))

theorem endpoint_handle_inner (e : Entry W) (i : Nat) :
    e.endpoint (e.handle (.inner i)) = .inner i := by
  simp [handle, endpoint, Handle.endpoint]

end Entry

-- ---------------------------------------------------------------------------
-- Names
-- ---------------------------------------------------------------------------

namespace Workspace

def entry (ws : Workspace W) (name : String) : Except Fault (Entry W) :=
  match ws.entries.get? name with
  | some e => return e
  | none => throw (.unbound name)

def bind (ws : Workspace W) (name : String) (a : Automaton W) : Workspace W where
  entries := ws.entries.alter name fun _ => ⟨ws.nextNumber, a⟩
  nextNumber := ws.nextNumber + 1

/-- Changes the automaton with this number, if a name is bound to it. -/
def update (ws : Workspace W) (number : Nat) (f : Automaton W → Automaton W) : Workspace W :=
  { ws with entries := ws.entries.map fun (name, e) =>
      (name, if e.number = number then { e with automaton := f e.automaton } else e) }

def resolveState (ws : Workspace W) (e : Entry W) : StateRef → Except Fault Handle
  | .here position => e.stateAt position
  | .of name position => do (← ws.entry name).stateAt position
  | .loose index profile => return ⟨none, index, profile⟩

end Workspace

end LogAutomata
