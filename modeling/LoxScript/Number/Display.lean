import LoxScript.Number.Shortest

/-!
Numbers as programs print them.

A whole number below 10^21 is written with all its digits; any other number has the fewest digits
that read back, positionally from 10^-4 up to 10^16, and with an exponent of at least two digits
outside that range.
-/

namespace LoxScript

namespace Decimal

/-- The exponent of the leading digit. -/
def leading (d : Decimal) : Int :=
  ((toString d.digits).length : Int) + d.exponent - 1

/-- Digits around a point, with zeros where the point lies outside the digits. -/
def positional (d : Decimal) : String :=
  let digits := (toString d.digits).toList
  if 0 ≤ d.exponent then
    String.ofList (digits ++ List.replicate d.exponent.toNat '0')
  else
    let places := (-d.exponent).toNat
    let padded := List.replicate (places + 1 - digits.length) '0' ++ digits
    String.ofList (padded.take (padded.length - places)) ++ "." ++
      String.ofList (padded.drop (padded.length - places))

/-- One digit before the point, and an exponent with a sign. -/
def scientific (d : Decimal) : String :=
  let mantissa := match (toString d.digits).toList with
    | [] => ""
    | [c] => c.toString
    | c :: rest => c.toString ++ "." ++ String.ofList rest
  let size := toString d.leading.natAbs
  mantissa ++ "e" ++ (if d.leading < 0 then "-" else "+") ++
    (if size.length < 2 then "0" ++ size else size)

end Decimal

/-- A number as text. -/
def Number.display (x : Float) : String :=
  if x.isNaN then "NaN"
  else
    let sign := if Dyadic.isNegative x then "-" else ""
    if x.isInf then sign ++ "Infinity"
    else
      let size := Dyadic.ofFloat x
      match size.toNat?.filter (· < Nat.pow 10 21) with
      | some n => sign ++ toString n
      | none =>
        let d := Decimal.shortest size
        sign ++ if -4 ≤ d.leading && d.leading < 16 then d.positional else d.scientific

end LoxScript
