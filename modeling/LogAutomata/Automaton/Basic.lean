import LogAutomata.Fault
import LogAutomata.Weight

/-!
# Automata

An automaton is an array of states, each with its outgoing links in the order in
which they were made. Position 0 holds Init and position 1 holds Final; all
sequences run from the one to the other. `addState` and `link` grow an
automaton and keep it sound. `attach` puts down any link unchecked, so a link
may name a state of another automaton; `owns` tells the two kinds apart.
-/

namespace LogAutomata

/-- A state as it is seen from outside the automaton that holds it: the number
of that automaton, if there is one, the position there, and the profile. -/
structure Handle where
  home : Option Nat
  index : Int
  profile : Profile
  deriving DecidableEq

/-- An end of a link: a position of the automaton that holds the link, or a
state that this automaton does not hold. -/
inductive Endpoint
  | inner (index : Nat)
  | outer (handle : Handle)
  deriving DecidableEq

def Endpoint.index : Endpoint → Int
  | .inner i => i
  | .outer h => h.index

structure Link (W : Type) where
  src : Endpoint
  dest : Endpoint
  weight : W
  deriving DecidableEq

def Link.reverse {W : Type} (l : Link W) : Link W := ⟨l.dest, l.src, l.weight⟩

structure State (W : Type) where
  id : Int
  symbol : Symbol := .nil
  links : Array (Link W) := #[]

def State.profile {W : Type} (s : State W) : Profile := ⟨some s.id, s.symbol⟩

structure Automaton (W : Type) where
  states : Array (State W)
  /-- The id that the next unnumbered state gets. -/
  nextId : Int

structure Arc (W : Type) where
  src : Nat
  dest : Nat
  weight : W
  deriving DecidableEq

def Arc.toLink {W : Type} (r : Arc W) : Link W := ⟨.inner r.src, .inner r.dest, r.weight⟩

namespace Automaton

variable {W : Type}

def empty : Automaton W := ⟨#[{ id := -1 }, { id := -2 }], 1⟩

def size (a : Automaton W) : Nat := a.states.size

def linksFrom (a : Automaton W) (i : Nat) : List (Link W) :=
  ((a.states[i]?.map State.links).getD #[]).toList

def links (a : Automaton W) : List (Link W) :=
  a.states.toList.flatMap fun s => s.links.toList

def arcCount (a : Automaton W) : Nat := a.links.length

def interior (a : Automaton W) : List (State W) := a.states.toList.drop 2

def symbolAt (a : Automaton W) (i : Nat) : Symbol :=
  (a.states[i]?.map (·.symbol)).getD .nil

def isSentinel (i : Nat) : Bool := i < 2

/-- An interior state that adds nothing to a sequence. -/
def isNil (a : Automaton W) (i : Nat) : Bool := !isSentinel i && (a.symbolAt i).isNil

-- ---------------------------------------------------------------------------
-- Ownership
-- ---------------------------------------------------------------------------

/-- The profile of an end. A position past the last state has none, so it shows
an empty one. -/
def profile (a : Automaton W) : Endpoint → Profile
  | .inner i => (a.states[i]?.map State.profile).getD {}
  | .outer h => h.profile

def position? (a : Automaton W) : Endpoint → Option Nat
  | .inner i => if i < a.size then some i else none
  | .outer _ => none

def owns (a : Automaton W) (e : Endpoint) : Bool := (a.position? e).isSome

def owned (a : Automaton W) (operation : String) (e : Endpoint) : Except Fault Nat :=
  match a.position? e with
  | some i => .ok i
  | none => .error (.unmapped operation (a.profile e))

def member (a : Automaton W) (e : Endpoint) : Except Fault Nat :=
  match a.position? e with
  | some i => .ok i
  | none => .error (.notOwned (a.profile e))

@[simp]
theorem position?_inner (a : Automaton W) (i : Nat) :
    a.position? (.inner i) = if i < a.size then some i else none := rfl

@[simp]
theorem position?_outer (a : Automaton W) (h : Handle) : a.position? (.outer h) = none := rfl

theorem position?_eq_some_iff {a : Automaton W} {e : Endpoint} {i : Nat} :
    a.position? e = some i ↔ e = .inner i ∧ i < a.size := by
  cases e with
  | inner j =>
    constructor
    · intro h
      obtain ⟨hj, rfl⟩ : j < a.size ∧ j = i := by simpa using h
      exact ⟨rfl, hj⟩
    · rintro ⟨h, hi⟩
      cases h
      simp [hi]
  | outer h => simp

theorem owned_eq_ok_iff {a : Automaton W} {operation : String} {e : Endpoint} {i : Nat} :
    a.owned operation e = .ok i ↔ e = .inner i ∧ i < a.size := by
  rw [← position?_eq_some_iff]
  unfold owned
  cases a.position? e <;> simp

-- ---------------------------------------------------------------------------
-- Growth
-- ---------------------------------------------------------------------------

/-- Adds an interior state at position `a.size`. Without an id it gets the next
number that is larger than every id so far. -/
def addState (a : Automaton W) (id : Option Int) (symbol : Symbol) : Automaton W :=
  let n := id.getD a.nextId
  { states := a.states.push { id := n, symbol }
    nextId := max a.nextId (n + 1) }

def attach (a : Automaton W) (i : Nat) (l : Link W) : Automaton W :=
  { a with states := a.states.modify i fun s => { s with links := s.links.push l } }

def withArcs (a : Automaton W) (arcs : List (Arc W)) : Automaton W :=
  arcs.foldl (fun a r => a.attach r.src r.toLink) a

/-- The arc of a new link: the weight has to be defined, and then both ends
have to be here. -/
def arc? [LogWeight W] (a : Automaton W) (src dest : Endpoint) (weight : W) :
    Except Fault (Arc W) := do
  if isUndefined weight then throw (.undefinedWeight (a.profile src) (a.profile dest))
  let s ← a.member src
  let d ← a.member dest
  return ⟨s, d, weight⟩

def link [LogWeight W] (a : Automaton W) (src dest : Endpoint) (weight : W) :
    Except Fault (Automaton W) := do
  return a.withArcs [← a.arc? src dest weight]

-- ---------------------------------------------------------------------------
-- Targets
-- ---------------------------------------------------------------------------

def firstByIndex : List Endpoint → List Endpoint
  | [] => []
  | e :: es => e :: (firstByIndex es).filter (·.index != e.index)

def distinctTargets (ls : List (Link W)) : List Endpoint := firstByIndex (ls.map Link.dest)

def targets (a : Automaton W) (i : Nat) : List Endpoint := distinctTargets (a.linksFrom i)

/-- The chain through states with these labels, every link with the same
weight. A label's emission index is the one of its last pair. -/
def linear [LogWeight W] (labels : List (Option Label))
    (emissions : List (Option Label × Option Int)) (weight : W) :
    Except Fault (Automaton W) := do
  let chain := labels.foldl (fun a label =>
    a.addState none ⟨(emissions.reverse.lookup label).join, label⟩) (empty : Automaton W)
  let stops := 0 :: List.range' 2 labels.length ++ [1]
  let arcs ← (stops.zip stops.tail).mapM fun (s, d) => chain.arc? (.inner s) (.inner d) weight
  return chain.withArcs arcs

end Automaton

end LogAutomata
