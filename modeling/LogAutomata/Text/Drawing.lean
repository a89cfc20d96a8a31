import LogAutomata.Automaton.Basic
import LogAutomata.Text.Label
import LogAutomata.Text.Weight

/-!
# Drawings

An automaton as a graph in the DOT language: one statement for each state, named
by its position, and one for each link.
-/

namespace LogAutomata

namespace Dot

def isLetter (c : Char) : Bool := c.isAlpha || c == '_'

def isName : List Char → Bool
  | [] => false
  | c :: cs => isLetter c && cs.all fun d => isLetter d || d.isDigit

/-- An optional minus, and digits with at most one point among them; a point
alone is no number. -/
def isNumeral (s : List Char) : Bool :=
  let body := if s.head? = some '-' then s.tail else s
  let whole := body.takeWhile Char.isDigit
  match body.dropWhile Char.isDigit with
  | [] => !whole.isEmpty
  | point :: places => point == '.' && places.all Char.isDigit && !(whole.isEmpty && places.isEmpty)

def keywords : List String := ["node", "edge", "graph", "digraph", "subgraph", "strict"]

def isKeyword (s : List Char) : Bool := (String.ofList s).toLower ∈ keywords

/-- Puts a backslash before every quote that has an even number of backslashes
before it already; `odd` tells the parity so far. -/
def escapeQuotes : Bool → List Char → List Char
  | _, [] => []
  | odd, c :: cs =>
    if c = '\\' then c :: escapeQuotes (!odd) cs
    else if c = '"' ∧ !odd then '\\' :: c :: escapeQuotes false cs
    else c :: escapeQuotes false cs

/-- A name or a number stands for itself; any other text is quoted. -/
def identifier (s : List Char) : List Char :=
  if (isName s || isNumeral s) && !isKeyword s then s
  else '"' :: escapeQuotes false s ++ ['"']

inductive Statement
  | node (index : Int) (label : String) (shape style : String)
  | edge (src dest : Int) (label : String)

def setting (name value : String) : String :=
  name ++ "=" ++ String.ofList (identifier value.toList)

def Statement.render : Statement → String
  | .node index label shape style =>
    toString index ++ " [" ++ " ".intercalate
      [setting "label" label, setting "shape" shape, setting "style" style] ++ "]"
  | .edge src dest label =>
    toString src ++ " -> " ++ toString dest ++ " [" ++ setting "label" label ++ "]"

end Dot

namespace Automaton

variable {W : Type}

def caption (s : State W) : String :=
  toString s.id ++
    (s.symbol.label.map fun label => ":" ++ label.plain).getD "" ++
    (s.symbol.emission.map fun emission => "/" ++ toString emission).getD ""

def nodeStatement (i : Nat) (s : State W) : Dot.Statement :=
  match i with
  | 0 => .node 0 "init" "circle" "filled, bold"
  | 1 => .node 1 "final" "doublecircle" "filled"
  | i => .node i (caption s) "circle" "filled"

/-- Two places without the zeros, and the point, that they end with. -/
def trimPlaces (text : String) : String :=
  if '.' ∈ text.toList then
    String.ofList ((text.toList.reverse.dropWhile (· == '0')).dropWhile (· == '.')).reverse
  else text

variable [WeightText W]

def edgeStatement (showWeights : Bool) (l : Link W) : Dot.Statement :=
  .edge l.src.index l.dest.index
    (if showWeights then trimPlaces (WeightText.fixed 2 l.weight) else "")

def statements (a : Automaton W) (showWeights : Bool) : List Dot.Statement :=
  a.states.toList.mapIdx nodeStatement ++ a.links.map (edgeStatement showWeights)

def draw (a : Automaton W) (margin : Option Nat) (showWeights : Bool) : String :=
  let margin := (margin.map fun m => "margin=" ++ toString m ++ " ").getD ""
  "digraph FSM \x7b\n" ++
    "\tgraph [" ++ margin ++ "rankdir=LR]\n" ++
    "\trankdir=LR size=\"8,5\"\n" ++
    String.join ((a.statements showWeights).map fun s => "\t" ++ s.render ++ "\n") ++
    "\x7d\n"

end Automaton

end LogAutomata
