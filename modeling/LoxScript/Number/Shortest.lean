import LoxScript.Number.Dyadic

/-!
The shortest decimal that reads back as a given number.

The reals that round to a floating-point number form an interval around it, which reaches halfway to
either neighbour and contains its ends if the mantissa is even.  Among the decimals in that interval
with the fewest digits the one nearest to the number is taken, and of two equally near the one with
the even last digit.  All comparisons are between natural numbers.
-/

namespace LoxScript

/-- The number `digits * 10 ^ exponent`. -/
structure Decimal where
  digits : Nat
  exponent : Int
deriving Repr, DecidableEq, Inhabited

/-- The reals that round to a number: three numerators over one denominator. -/
structure RoundingInterval where
  lower : Nat
  value : Nat
  upper : Nat
  denominator : Nat
  /-- The ends round to the number, too. -/
  closed : Bool
deriving Repr, DecidableEq, Inhabited

namespace RoundingInterval

def ofDyadic (d : Dyadic) : RoundingInterval :=
  let (_, den) := d.ratio
  let scale := Nat.pow 2 d.exponent.toNat
  { lower := (4 * d.mantissa - if d.narrow then 1 else 2) * scale
    value := 4 * d.mantissa * scale
    upper := (4 * d.mantissa + 2) * scale
    denominator := 4 * den
    closed := d.mantissa % 2 = 0 }

/-- `a / b` lies in the interval. -/
def contains (r : RoundingInterval) (a b : Nat) : Bool :=
  if r.closed then
    r.lower * b ≤ a * r.denominator && a * r.denominator ≤ r.upper * b
  else
    r.lower * b < a * r.denominator && a * r.denominator < r.upper * b

/-- The best multiple of `10 ^ grid` in the interval, counted in units of the grid.  If any multiple
lies in the interval, then one of the two next to the number does. -/
def onGrid (r : RoundingInterval) (grid : Int) : Option Nat :=
  let up := Nat.pow 10 grid.toNat
  let down := Nat.pow 10 (-grid).toNat
  let below := r.value * down / (r.denominator * up)
  let above := below + 1
  match r.contains (below * up) down, r.contains (above * up) down with
  | false, false => none
  | true, false => some below
  | false, true => some above
  | true, true =>
    let twice := 2 * r.value * down
    let middle := (below + above) * up * r.denominator
    if twice < middle then some below
    else if middle < twice then some above
    else some (if below % 2 = 0 then below else above)

/-- The least `k` with the number below `10 ^ k`; the number is positive. -/
def scale (r : RoundingInterval) : Int :=
  let digitCount (n : Nat) : Nat := (Nat.toDigits 10 n).length
  if r.denominator ≤ r.value then digitCount (r.value / r.denominator)
  else 1 - (digitCount ((r.denominator - 1) / r.value) : Int)

end RoundingInterval

namespace Decimal

/-- The same number with up to the given number of trailing zeros left out. -/
def strip : Nat → Decimal → Decimal
  | 0, d => d
  | fuel + 1, d =>
    if d.digits ≠ 0 ∧ d.digits % 10 = 0 then
      strip fuel { digits := d.digits / 10, exponent := d.exponent + 1 }
    else d

/-- The number itself, every digit written out. -/
def exactly (d : Dyadic) : Decimal :=
  if d.exponent < 0 then
    { digits := d.mantissa * Nat.pow 5 (-d.exponent).toNat, exponent := d.exponent }
  else
    { digits := d.mantissa * Nat.pow 2 d.exponent.toNat, exponent := 0 }

/-- The shortest decimal that reads back as a positive number.  Seventeen digits are enough for any,
so that the exact value stands in for nothing but the absence of that proof. -/
def shortest (d : Dyadic) : Decimal :=
  let r := RoundingInterval.ofDyadic d
  let attempt (count : Nat) : Option Decimal :=
    let grid := r.scale - (count : Int)
    (r.onGrid grid).map fun digits => { digits, exponent := grid }
  let found := ((List.range 17).findSome? fun i => attempt (i + 1)).getD (exactly d)
  strip 400 found

end Decimal
end LoxScript
