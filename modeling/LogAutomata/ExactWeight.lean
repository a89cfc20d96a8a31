import LogAutomata.Weight
import Mathlib.Analysis.SpecialFunctions.Log.Basic

/-!
# Exact weights

Log-domain weights over the reals, without rounding. Beside the reals there are
the logarithms of zero and of infinity, and the outcome of an operation that has
none.
-/

namespace LogAutomata

inductive ExactWeight
  | impossible
  | finite (x : ℝ)
  | infinite
  | undefined

namespace ExactWeight

def add : ExactWeight → ExactWeight → ExactWeight
  | undefined, _ | _, undefined => undefined
  | impossible, infinite | infinite, impossible => undefined
  | impossible, _ | _, impossible => impossible
  | infinite, _ | _, infinite => infinite
  | finite x, finite y => finite (x + y)

def neg : ExactWeight → ExactWeight
  | impossible => infinite
  | finite x => finite (-x)
  | infinite => impossible
  | undefined => undefined

noncomputable def logAdd : ExactWeight → ExactWeight → ExactWeight
  | undefined, _ | _, undefined => undefined
  | infinite, _ | _, infinite => infinite
  | impossible, w | w, impossible => w
  | finite x, finite y => finite (Real.log (Real.exp x + Real.exp y))

def isImpossible : ExactWeight → Bool
  | impossible => true
  | _ => false

def isUndefined : ExactWeight → Bool
  | undefined => true
  | _ => false

noncomputable instance : LogWeight ExactWeight where
  zero := finite 0
  add := add
  sub v w := add v (neg w)
  impossible := impossible
  logAdd := logAdd
  isImpossible := isImpossible
  isUndefined := isUndefined

/-- The weight of an alternative that can happen, or of one that cannot. -/
def Proper : ExactWeight → Prop
  | impossible | finite _ => True
  | infinite | undefined => False

def Finite : ExactWeight → Prop
  | finite _ => True
  | _ => False

end ExactWeight

end LogAutomata
