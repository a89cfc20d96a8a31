/-!
# Decimal digits

A decimal is `digits * 10 ^ power`. The layouts of this library write it either
with a point inside its digits or with one digit before the point and an
exponent.
-/

namespace LogAutomata

structure Decimal where
  digits : Nat
  power : Int
  deriving DecidableEq

namespace Decimal

def trim (d : Decimal) : Decimal :=
  if d.digits ≠ 0 ∧ d.digits % 10 = 0 then trim ⟨d.digits / 10, d.power + 1⟩ else d
termination_by d.digits
decreasing_by omega

/-- The digits with a point so far from their right end, filled up with zeros
that stand for missing digits on both sides. -/
def positional (d : Decimal) : List Char × List Char :=
  let ds := Nat.toDigits 10 d.digits
  if 0 ≤ d.power then (ds ++ List.replicate d.power.toNat '0', [])
  else
    let places := (-d.power).toNat
    let padded := List.replicate (places + 1 - ds.length) '0' ++ ds
    padded.splitAt (padded.length - places)

def exponent (d : Decimal) : Int := d.power + ((Nat.toDigits 10 d.digits).length - 1 : Nat)

end Decimal

end LogAutomata
