import LogAutomata.Fault
import LogAutomata.Text.Label

/-!
# Faults as text
-/

namespace LogAutomata

def Profile.describe (p : Profile) : String :=
  let label := (p.symbol.label.map Label.quoted).getD Text.missing
  "State(id=" ++ Text.number p.id ++ ", pdfindex=" ++ Text.number p.symbol.emission ++
    ", label=" ++ label ++ ")"

def cycleMessage (ids : List (Option Int)) : String :=
  "Automaton contains a cycle" ++
    if ids.isEmpty then "" else ": " ++ " -> ".intercalate (ids.map Text.number)

def Fault.message : Fault → String
  | .undefinedWeight src dest => "NaN weight on link " ++ src.describe ++ " -> " ++ dest.describe
  | .notOwned state => state.describe ++ " does not belong to this automaton"
  | .unmapped operation state =>
    operation ++ ": no mapping for state " ++ state.describe ++
      "; the automaton links to a state it does not own"
  | .cycle ids => cycleMessage ids
  | .noNode index => toString index
  | .outOfRange => "list index out of range"
  | .indexTooLarge => "cannot fit 'int' into an index-sized integer"
  | .notAMapping type => "compose expects a mapping from label to FSM, got " ++ type
  | .noDrawingProgram =>
    "Graphviz executable not found. Please install [Graphviz](https://www.graphviz.org/download/). " ++
      "On macOS, use \x60brew install graphviz\x60."
  | .unwritableName => "embedded null byte"
  | .unbound name => name
  | .endless => "there are walks of every length"

end LogAutomata
