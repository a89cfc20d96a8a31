/-!
# The value of a double

A finite double is a natural number times a power of two, with a sign. Zero has
a sign too.
-/

namespace LogAutomata

inductive Double
  /-- The magnitude is `mantissa * 2 ^ power`. -/
  | finite (negative : Bool) (mantissa : Nat) (power : Int)
  | infinite (negative : Bool)
  | undefined
  deriving DecidableEq

namespace Double

/-- Reads the sign, the eleven bits of the exponent and the fraction. The least
exponent has no hidden bit. -/
def ofBits (bits : Nat) : Double :=
  let negative := bits.testBit 63
  let field : Nat := bits / Nat.pow 2 52 % Nat.pow 2 11
  let fraction : Nat := bits % Nat.pow 2 52
  if field = 2047 then if fraction = 0 then .infinite negative else .undefined
  else if field = 0 then .finite negative fraction (-1074)
  else .finite negative (Nat.pow 2 52 + fraction) ((field : Int) - 1075)

def ofFloat (x : Float) : Double := ofBits x.toBits.toNat

end Double

end LogAutomata
