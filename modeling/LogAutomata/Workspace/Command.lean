import LogAutomata.Workspace.Basic
import LogAutomata.Workspace.OutputFile

/-!
# Commands and answers

What can be asked of a workspace, and what it answers.
-/

namespace LogAutomata

variable {W : Type}

-- ---------------------------------------------------------------------------
-- Commands
-- ---------------------------------------------------------------------------

inductive Operation
  | spawn
  | copy
  | transpose
  | normalize
  | coalesce
  | minimize (checked : Bool)
  | removeNilStates
  | pushWeights
  | leftMerge

inductive Recipe (W : Type)
  | new
  | linear (labels : List (Option Label)) (emissions : List (Option Label × Option Int))
      (weight : W)
  | derive (operation : Operation) (name : String)
  | union (names : List String)
  | concat (names : List String)
  | compose (host : String) (units : List (Option Label × String))
  /-- The units are given as a value of this type, which is no mapping. -/
  | composeWith (host type : String)

/-- How weights are written: with the digits that identify them, or with nine
places. -/
inductive Precision
  | exact
  | rounded

inductive Detail
  | full (precision : Precision)
  | brief

inductive Filter
  | notNil
  | labeled
  | emitting
  | nothing

def Filter.keep : Filter → Symbol → Bool
  | .notNil, s => !s.isNil
  | .labeled, s => s.isLabeled
  | .emitting, s => s.isEmitting
  | .nothing, _ => false

/-- A request to copy states into the automaton `target`, whose states `init`
and `final` name. The states in `lookups` are then looked up in the table. -/
structure RemapRequest where
  target : String
  init : Option StateRef
  final : Option StateRef
  keepIds : Bool
  filter : Option Filter
  lookups : List StateRef
  operation : String

inductive Request (W : Type)
  | addState (id : Option Int) (symbol : Symbol)
  | link (src dest : StateRef) (weight : W)
  /-- Puts a link unchecked among those of the state `holder`, or of `src`. -/
  | attach (src dest : StateRef) (holder : Option StateRef) (weight : W)
  | display (detail : Detail)
  | dump
  | count
  | isAcyclic
  | findCycle
  | checkAcyclic
  | topologicalOrder
  | describe (state : StateRef)
  | remap (request : RemapRequest)
  /-- Drawing takes a program, which may be missing. -/
  | draw (showWeights available : Bool)
  | drawFile (filename format : String) (showWeights available : Bool)

inductive Command (W : Type)
  | make (name : String) (recipe : Recipe W) (detail : Detail)
  | ask (name : String) (request : Request W)

-- ---------------------------------------------------------------------------
-- Answers
-- ---------------------------------------------------------------------------

structure LinkRow where
  dest : StateView
  weight : String
  /-- Where the link claims to start, if not at the state that holds it. -/
  src : Option StateView

structure StateRow where
  profile : Profile
  links : List LinkRow

structure StateReport where
  text : String
  owned : Bool
  init : Bool
  final : Bool
  emitting : Bool
  labeled : Bool
  targets : List StateView
  links : List String

def StateReport.sentinel (r : StateReport) : Bool := r.init || r.final

def StateReport.nil (r : StateReport) : Bool := !(r.sentinel || r.emitting || r.labeled)

inductive Answer
  | rows (states : List StateRow)
  | counts (states arcs : Nat)
  | added (index : Nat) (profile : Profile)
  | linked (text : String) (arcs : Nat)
  | text (lines : String)
  | acyclic (value : Bool)
  | cycle (states : Option (List Nat))
  | passed
  | order (states : List Nat)
  | state (report : StateReport)
  | remapped (table : List (Nat × StateView)) (lookups : List (Except Fault StateView))
      (target : List StateRow)
  | drawing (source : String)
  | file (written : OutputFile)

end LogAutomata
