import LogAutomata.Label
import LogAutomata.Text.Printable

/-!
# Labels as text

A text label alone is written as it is. Quoted, and inside a tuple, it stands in
quotes with escapes, so that labels of different kinds are told apart.
-/

namespace LogAutomata

namespace Text

def hexDigits (width n : Nat) : List Char :=
  let ds := Nat.toDigits 16 n
  List.replicate (width - ds.length) '0' ++ ds

/-- A code point in two, four or eight digits, the fewest that hold it. -/
def escapeCode (n : Nat) : List Char :=
  if n < 0x100 then '\\' :: 'x' :: hexDigits 2 n
  else if n < 0x10000 then '\\' :: 'u' :: hexDigits 4 n
  else '\\' :: 'U' :: hexDigits 8 n

/-- A printable character stands for itself unless it has to be told apart from
the quotes and the escapes. -/
def escapeChar (quote c : Char) : List Char :=
  if c = '\\' then ['\\', '\\']
  else if c = '\n' then ['\\', 'n']
  else if c = '\r' then ['\\', 'r']
  else if c = '\t' then ['\\', 't']
  else if c = quote then ['\\', quote]
  else if isPrintable c then [c]
  else escapeCode c.toNat

/-- Double quotes are used where they save an escape. -/
def quoteFor (s : List Char) : Char := if '\'' ∈ s ∧ '"' ∉ s then '"' else '\''

def quoted (s : String) : String :=
  let quote := quoteFor s.toList
  String.ofList (quote :: s.toList.flatMap (escapeChar quote) ++ [quote])

def missing : String := "None"

def number : Option Int → String
  | some n => toString n
  | none => missing

end Text

mutual
def Label.quoted : Label → String
  | .text s => Text.quoted s
  | .number n => toString n
  | .tuple [p] => "(" ++ Label.quotedPart p ++ ",)"
  | .tuple ps => "(" ++ ", ".intercalate (Label.quotedParts ps) ++ ")"
def Label.quotedPart : Option Label → String
  | none => Text.missing
  | some p => p.quoted
def Label.quotedParts : List (Option Label) → List String
  | [] => []
  | p :: ps => Label.quotedPart p :: Label.quotedParts ps
end

def Label.plain : Label → String
  | .text s => s
  | other => other.quoted

end LogAutomata
