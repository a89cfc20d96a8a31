import LogAutomata.Decimal.Double
import LogAutomata.Decimal.Fixed
import LogAutomata.Decimal.Shortest

/-!
# Weights as text

Two forms: the shortest text that reads back as the weight, and a text with a
set number of places.
-/

namespace LogAutomata

class WeightText (W : Type) where
  shortest : W → String
  fixed : Nat → W → String

namespace Text

def signed (negative : Bool) (body : List Char) : String :=
  String.ofList (if negative then '-' :: body else body)

def infinity : List Char := ['i', 'n', 'f']

def undefined : String := "nan"

/-- The first digit is written before the point if its exponent is at least
`-4` and at most `15`; a whole number has one zero after the point. Outside that
range there is an exponent, with a sign and two digits or more. -/
def plainDecimal (d : Decimal) : List Char :=
  let e := d.exponent
  if -4 ≤ e ∧ e ≤ 15 then
    let (whole, places) := d.positional
    whole ++ '.' :: if places.isEmpty then ['0'] else places
  else
    let mantissa := match Nat.toDigits 10 d.digits with
      | lead :: (next :: rest) => lead :: '.' :: next :: rest
      | short => short
    let exponent := Nat.toDigits 10 e.natAbs
    mantissa ++ 'e' :: (if e < 0 then '-' else '+') ::
      (List.replicate (2 - exponent.length) '0' ++ exponent)

def shortest : Double → String
  | .undefined => undefined
  | .infinite negative => signed negative infinity
  | .finite negative 0 _ => signed negative ['0', '.', '0']
  | .finite negative m q => signed negative (plainDecimal (.shortest m q))

/-- A weight that rounds to zero has no sign. -/
def fixed (places : Nat) : Double → String
  | .undefined => undefined
  | .infinite negative => signed negative infinity
  | .finite negative m q =>
    let d := Decimal.fixed places m q
    let (whole, rest) := d.positional
    signed (negative && d.digits != 0) (if places = 0 then whole else whole ++ '.' :: rest)

end Text

instance : WeightText Float where
  shortest x := Text.shortest (.ofFloat x)
  fixed places x := Text.fixed places (.ofFloat x)

end LogAutomata
