import LoxScript.Text.Printable

/-!
Quoted text.

A text is written between single quotes, or between double quotes if it holds a single quote and no
double one.  The quote, the backslash and whatever is not printable are escaped.
-/

namespace LoxScript
namespace Quoted

/-- The number in hexadecimal, in at least the given number of digits. -/
def hex (width n : Nat) : String :=
  let digits := Nat.toDigits 16 n
  String.ofList (List.replicate (width - digits.length) '0' ++ digits)

def escape (quote c : Char) : String :=
  if c = quote ∨ c = '\\' then "\\" ++ c.toString
  else if c = '\n' then "\\n"
  else if c = '\r' then "\\r"
  else if c = '\t' then "\\t"
  else if isPrintable c then c.toString
  else if c.toNat < 0x100 then "\\x" ++ hex 2 c.toNat
  else if c.toNat < 0x10000 then "\\u" ++ hex 4 c.toNat
  else "\\U" ++ hex 8 c.toNat

def quoteFor (text : List Char) : Char :=
  if text.contains '\'' && !text.contains '"' then '"' else '\''

end Quoted

/-- The text between quotes, on one line and readable. -/
def quoted (text : String) : String :=
  let quote := Quoted.quoteFor text.toList
  quote.toString ++ String.join (text.toList.map (Quoted.escape quote)) ++ quote.toString

end LoxScript
