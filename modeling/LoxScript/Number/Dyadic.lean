/-!
Floating-point numbers as exact binary fractions.
-/

namespace LoxScript

/-- The number `mantissa * 2 ^ exponent`. -/
structure Dyadic where
  mantissa : Nat
  exponent : Int
  /-- The number below is half as far away as the number above. -/
  narrow : Bool
deriving Repr, DecidableEq, Inhabited

namespace Dyadic

/-- The size of a finite number; its sign is left out. -/
def ofFloat (x : Float) : Dyadic :=
  let bits : Nat := x.toBits.toNat
  let biased : Nat := bits / Nat.pow 2 52 % Nat.pow 2 11
  let fraction : Nat := bits % Nat.pow 2 52
  if biased = 0 then
    { mantissa := fraction, exponent := -1074, narrow := false }
  else
    { mantissa := Nat.pow 2 52 + fraction
      exponent := (biased : Int) - 1075
      narrow := fraction = 0 && biased > 1 }

def isNegative (x : Float) : Bool := x.toBits.toNat ≥ Nat.pow 2 63

/-- Numerator and denominator. -/
def ratio (d : Dyadic) : Nat × Nat :=
  (d.mantissa * Nat.pow 2 d.exponent.toNat, Nat.pow 2 (-d.exponent).toNat)

/-- The number itself, if it is whole. -/
def toNat? (d : Dyadic) : Option Nat :=
  let (num, den) := d.ratio
  if num % den = 0 then some (num / den) else none

end Dyadic
end LoxScript
