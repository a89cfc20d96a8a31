import LogAutomata.Automaton.Basic
import LogAutomata.Text.Label
import LogAutomata.Text.Weight

/-!
# Links as text
-/

namespace LogAutomata.Automaton

variable {W : Type} [WeightText W]

def describeLink (a : Automaton W) (l : Link W) : String :=
  "Link(" ++ Text.number (a.profile l.src).id ++ " -> " ++ Text.number (a.profile l.dest).id ++
    ", " ++ WeightText.shortest l.weight ++ ")"

/-- One line for a link, with tabs between the ids of its ends, the label of the
state that it enters and its weight. -/
def dumpLink (a : Automaton W) (l : Link W) : String :=
  let dest := a.profile l.dest
  let label := (dest.symbol.label.map Label.plain).getD ""
  Text.number (a.profile l.src).id ++ "\t" ++ Text.number dest.id ++ "\t" ++ label ++ "\t" ++
    WeightText.shortest l.weight ++ "\n"

def dump (a : Automaton W) : String := String.join (a.links.map a.dumpLink)

end LogAutomata.Automaton
