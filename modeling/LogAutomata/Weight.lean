/-!
# Log-domain weights

A weight is the logarithm of a probability or of a cost factor. Along a walk
weights are added; alternatives are joined by `logAdd`, the logarithm of the
sum. `impossible` is the logarithm of zero. Arithmetic can leave the range in
which it is meaningful; such a weight is undefined and no automaton accepts it
on a link.
-/

namespace LogAutomata

class LogWeight (W : Type) extends Zero W, Add W, Sub W where
  /-- The logarithm of zero. -/
  impossible : W
  /-- The logarithm of the sum of two exponentiated weights. -/
  logAdd : W → W → W
  isImpossible : W → Bool
  isUndefined : W → Bool

export LogWeight (impossible logAdd isImpossible isUndefined)

/-- The log-sum of a list, from the left. There is nothing in an empty sum, and
every weight is added to it, the first one too. -/
def logSum {W : Type} [LogWeight W] (ws : List W) : W := ws.foldl logAdd impossible

-- ---------------------------------------------------------------------------
-- Double precision
-- ---------------------------------------------------------------------------

/-- The logarithm of `1 + x` for `0 ≤ x`. The quotient makes up for the digits
that the rounded sum `1 + x` has lost. -/
def logOnePlus (x : Float) : Float :=
  let u := 1.0 + x
  if u == 1.0 then x else u.log * (x / (u - 1.0))

/-- The smaller weight enters only through its distance to the larger one, so
nothing overflows. Equal weights, infinite ones too, gain `log 2`. -/
def floatLogAdd (a b : Float) : Float :=
  let d := a - b
  if a == b then a + 0.693147180559945309417232121458
  else if d > 0.0 then a + logOnePlus (-d).exp
  else if d <= 0.0 then b + logOnePlus d.exp
  else d

instance : LogWeight Float where
  zero := 0.0
  impossible := -1.0 / 0.0
  logAdd := floatLogAdd
  isImpossible w := w == -1.0 / 0.0
  isUndefined w := w.isNaN

end LogAutomata
