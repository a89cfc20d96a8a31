import LogAutomata.Decimal.Digits

/-!
# Decimals with a set number of places

A value is rounded to a whole number of units of the last place. A value half
way between two goes to the even one.
-/

namespace LogAutomata.Decimal

/-- The whole number nearest to a quotient, the even one if there are two. -/
def roundDiv (num den : Nat) : Nat :=
  let q := num / den
  let rest := num % den
  if 2 * rest < den ∨ 2 * rest = den ∧ q % 2 = 0 then q else q + 1

/-- The nearest decimal to `mantissa * 2 ^ power` with so many places. -/
def fixed (places mantissa : Nat) (power : Int) : Decimal where
  digits := roundDiv (mantissa * Nat.pow 2 power.toNat * Nat.pow 10 places) (Nat.pow 2 (-power).toNat)
  power := -places

end LogAutomata.Decimal
