import LogAutomata.Decimal.Digits

/-!
# Shortest decimals

The reals that round to a double form an interval around it. The shortest
decimal of the double is on the coarsest decimal grid that has a point in this
interval, and is the point nearest to the double; of two points at the same
distance it is the one with an even last digit.
-/

namespace LogAutomata.Decimal

/-- An interval of reals around `value`; all three are counted in the same unit. -/
structure Rounding where
  low : Nat
  value : Nat
  high : Nat
  /-- The ends belong to the interval. -/
  closed : Bool

/-- The reals that round to `mantissa * 2 ^ power`, in units of
`2 ^ (power - 2)`. Below a power of two, the least normal one excepted, doubles
are twice as dense as above. Ends go to the even mantissa. -/
def Rounding.ofDouble (mantissa : Nat) (power : Int) : Rounding where
  low := 4 * mantissa - if mantissa = Nat.pow 2 52 ∧ power ≠ -1074 then 1 else 2
  value := 4 * mantissa
  high := 4 * mantissa + 2
  closed := mantissa % 2 = 0

def Rounding.contains (r : Rounding) (x : Nat) : Bool :=
  if r.closed then r.low ≤ x && x ≤ r.high else r.low < x && x < r.high

def Rounding.scale (r : Rounding) (k : Nat) : Rounding :=
  { r with low := r.low * k, value := r.value * k, high := r.high * k }

/-- The multiple of `step` in the interval that is nearest to the value. Only its
two neighbours can be that. -/
def Rounding.nearest? (r : Rounding) (step : Nat) : Option Nat :=
  let below := r.value / step
  let above := below + 1
  match r.contains (below * step), r.contains (above * step) with
  | false, false => none
  | true, false => some below
  | false, true => some above
  | true, true =>
    let toBelow := r.value - below * step
    let toAbove := above * step - r.value
    if toBelow < toAbove ∨ toBelow = toAbove ∧ below % 2 = 0 then some below else some above

/-- The nearest point on the grid of `10 ^ k`, if the interval of the double has
one. Both are counted in a unit that divides them. -/
def onGrid? (mantissa : Nat) (power k : Int) : Option Nat :=
  let two := power - 2
  ((Rounding.ofDouble mantissa power).scale (Nat.pow 2 two.toNat * Nat.pow 10 (-k).toNat)).nearest?
    (Nat.pow 10 k.toNat * Nat.pow 2 (-two).toNat)

def searchGrids (mantissa : Nat) (power : Int) : Nat → Int → Decimal
  | 0, k => ⟨(onGrid? mantissa power k).getD 0, k⟩
  | grids + 1, k =>
    match onGrid? mantissa power k with
    | some digits => ⟨digits, k⟩
    | none => searchGrids mantissa power grids (k - 1)

/-- Starts with a grid that is coarser than the double is large. Seventeen digits
are enough for any double, and the start is at most four grids too high. -/
def shortest (mantissa : Nat) (power : Int) : Decimal :=
  (searchGrids mantissa power 22
    (((mantissa.log2 : Int) + 1 + power) * 30103 / 100000 + 2)).trim

end LogAutomata.Decimal
