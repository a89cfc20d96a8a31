import LogAutomata.Text.Drawing

/-!
# The lines of a drawing

A drawing has one statement on each line. A line feed inside quotes belongs to
the statement; quotes end at the first quote that is not escaped.
-/

namespace LogAutomata.Dot

/-- Where a reader stands: outside quotes, or inside them, after an odd number of
backslashes or not. -/
inductive Position
  | outside
  | inside (odd : Bool)
  deriving DecidableEq

def Position.next : Position → Char → Position
  | .outside, c => if c = '"' then .inside false else .outside
  | .inside true, _ => .inside false
  | .inside false, c => if c = '"' then .outside else .inside (c = '\\')

def Position.after (p : Position) (s : List Char) : Position := s.foldl next p

/-- Cuts a text behind every line feed outside quotes. There is no such reading
if the text ends inside quotes or in the middle of a line. -/
def linesFrom : Position → List Char → List Char → Option (List (List Char))
  | .outside, [], [] => some []
  | _, _, [] => none
  | p, line, c :: cs =>
    if p = .outside ∧ c = '\n' then (linesFrom .outside [] cs).map (line :: ·)
    else linesFrom (p.next c) (line ++ [c]) cs

def lines (s : List Char) : Option (List (List Char)) := linesFrom .outside [] s

end LogAutomata.Dot
