import LoxScript.Text.Integer
import LoxScript.Text.Prefix
import LoxScript.Toml.Value

/-!
Strings, numbers, dates and times in configuration documents.
-/

namespace LoxScript
namespace Toml
open Prefix

def isBlank (c : Char) : Bool := c == ' ' || c == '\t'

def isBlankOrNewline (c : Char) : Bool := isBlank c || c == '\n'

/-- Control characters, which neither strings nor comments may hold; the tabulator is none. -/
def isControl (c : Char) : Bool := (c.toNat < 32 && c != '\t') || c.toNat == 127

def isDigit (c : Char) : Bool := '0' ≤ c && c ≤ '9'

def isHexDigit (c : Char) : Bool :=
  isDigit c || ('a' ≤ c && c ≤ 'f') || ('A' ≤ c && c ≤ 'F')

def isOctalDigit (c : Char) : Bool := '0' ≤ c && c ≤ '7'

def isBinaryDigit (c : Char) : Bool := c == '0' || c == '1'

def digitValue (c : Char) : Nat :=
  if isDigit c then c.toNat - '0'.toNat
  else if 'a' ≤ c then c.toNat - 'a'.toNat + 10
  else c.toNat - 'A'.toNat + 10

def ofDigits (base : Nat) (ds : List Char) : Nat :=
  ds.foldl (fun n c => base * n + digitValue c) 0

/-! ### Strings -/

/-- The rest of a string in single quotes, which is taken as it stands. -/
def literalBody : (cs : List Char) → Option (Prefix true cs (List Char))
  | [] => none
  | '\'' :: rest => behind (done [] rest)
  | c :: rest => if isControl c then none else behind (map (literalBody rest) (c :: ·))

/-- The rest of a string in three single quotes. -/
def longLiteralBody : (cs : List Char) → Option (Prefix true cs (List Char))
  | [] => none
  | '\'' :: '\'' :: '\'' :: rest => behind (behind (behind (done [] rest)))
  | c :: rest =>
    if isControl c && c != '\n' then none else behind (map (longLiteralBody rest) (c :: ·))

/-- A character given by its number in that many hexadecimal digits. -/
def hexChar (count : Nat) (cs : List Char) : Option (Prefix false cs Char) :=
  andThen (some (take count cs)) fun digits rest _ =>
    let n := ofDigits 16 digits
    if digits.length = count ∧ digits.all isHexDigit ∧ n.isValidChar then done (.ofNat n) rest
    else none

/-- A character written with a backslash, from behind the backslash on. -/
def escape : (cs : List Char) → Option (Prefix true cs Char)
  | 'b' :: rest => behind (done '\x08' rest)
  | 't' :: rest => behind (done '\t' rest)
  | 'n' :: rest => behind (done '\n' rest)
  | 'f' :: rest => behind (done '\x0c' rest)
  | 'r' :: rest => behind (done '\r' rest)
  | '"' :: rest => behind (done '"' rest)
  | '\\' :: rest => behind (done '\\' rest)
  | 'u' :: rest => behind (hexChar 4 rest)
  | 'U' :: rest => behind (hexChar 8 rest)
  | _ => none

/-- The rest of a string in double quotes. -/
def basicBody (cs : List Char) : Option (Prefix true cs (List Char)) :=
  match cs with
  | [] => none
  | '"' :: rest => behind (done [] rest)
  | '\\' :: rest =>
    behind <| andThen (escape rest) fun c rest _ => map (basicBody rest) (c :: ·)
  | c :: rest => if isControl c then none else behind (map (basicBody rest) (c :: ·))
termination_by cs.length
decreasing_by all_goals grind

/-- What a backslash at the end of a line leaves: the text behind the blanks and newlines that
follow it.  `none` if anything but blanks stands between the backslash and the newline. -/
def foldedLine (cs : List Char) : Option (Prefix false cs Unit) :=
  andThen (some (run isBlank cs)) fun
    | _, [], _ => done () []
    | _, '\n' :: rest, _ =>
      weaken (behind (map (some (run isBlankOrNewline rest)) fun _ => ()))
    | _, _, _ => none

/-- The rest of a string in three double quotes. -/
def longBasicBody (cs : List Char) : Option (Prefix true cs (List Char)) :=
  match cs with
  | [] => none
  | '"' :: '"' :: '"' :: rest => behind (behind (behind (done [] rest)))
  | '\\' :: c :: rest =>
    if isBlankOrNewline c then
      behind <| andThen (foldedLine (c :: rest)) fun _ rest _ => longBasicBody rest
    else
      behind <| andThen (escape (c :: rest)) fun c rest _ => map (longBasicBody rest) (c :: ·)
  | ['\\'] => none
  | c :: rest =>
    if isControl c && c != '\n' then none else behind (map (longBasicBody rest) (c :: ·))
termination_by cs.length
decreasing_by all_goals grind

/-- Up to two quotes that stand before the three that end a long string. -/
def extraQuotes (quote : Char) (body : List Char) :
    (cs : List Char) → Option (Prefix false cs (List Char))
  | a :: b :: rest =>
    if a = quote ∧ b = quote then
      weaken (behind (behind (done (body ++ [quote, quote]) rest)))
    else if a = quote then weaken (behind (done (body ++ [quote]) (b :: rest)))
    else done body (a :: b :: rest)
  | [a] => if a = quote then weaken (behind (done (body ++ [quote]) [])) else done body [a]
  | [] => done body []

/-- Drops the newline that may follow the opening quotes of a long string. -/
def afterNewline : (cs : List Char) → Option (Prefix false cs Unit)
  | '\n' :: rest => weaken (behind (done () rest))
  | cs => done () cs

/-- A string that fits on one line. -/
def shortString : (cs : List Char) → Option (Prefix true cs (List Char))
  | '"' :: rest => behind (basicBody rest)
  | '\'' :: rest => behind (literalBody rest)
  | _ => none

def string : (cs : List Char) → Option (Prefix true cs (List Char))
  | '"' :: '"' :: '"' :: rest =>
    behind <| behind <| behind <| andThen (afterNewline rest) fun _ rest _ =>
    andThen (longBasicBody rest) fun body rest _ => extraQuotes '"' body rest
  | '\'' :: '\'' :: '\'' :: rest =>
    behind <| behind <| behind <| andThen (afterNewline rest) fun _ rest _ =>
    andThen (longLiteralBody rest) fun body rest _ => extraQuotes '\'' body rest
  | cs => shortString cs

/-! ### Dates and times -/

/-- Two digits that write a number in a range. -/
def twoDigits (low high : Nat) : (cs : List Char) → Option (Prefix true cs Nat)
  | a :: b :: rest =>
    let n := 10 * digitValue a + digitValue b
    if isDigit a ∧ isDigit b ∧ low ≤ n ∧ n ≤ high then behind (behind (done n rest)) else none
  | _ => none

def exactly (c : Char) (cs : List Char) : Option (Prefix true cs Unit) :=
  map (char (· == c) cs) fun _ => ()

/-- What may be there; the given value stands for it if it is not. -/
def orElse {α : Type} {cs : List Char} (p : Option (Prefix true cs α)) (absent : α) :
    Option (Prefix false cs α) :=
  (weaken p).or (done absent cs)

/-- A point and one or more digits, if they are there. -/
def optionalFraction (cs : List Char) : Option (Prefix false cs (List Char)) :=
  orElse (andThen (exactly '.' cs) fun _ rest _ => run1 isDigit rest) []

/-- A time of day. -/
def time (cs : List Char) : Option (Prefix true cs Unit) :=
  andThen (twoDigits 0 23 cs) fun _ rest _ =>
  andThen (exactly ':' rest) fun _ rest _ =>
  andThen (twoDigits 0 59 rest) fun _ rest _ =>
  andThen (exactly ':' rest) fun _ rest _ =>
  andThen (twoDigits 0 59 rest) fun _ rest _ =>
  map (optionalFraction rest) fun _ => ()

/-- The offset from universal time. -/
def offset (cs : List Char) : Option (Prefix true cs Unit) :=
  (map (char (fun c => c == 'Z' || c == 'z') cs) fun _ => ()).or <|
    andThen (char (fun c => c == '+' || c == '-') cs) fun _ rest _ =>
    andThen (twoDigits 0 23 rest) fun _ rest _ =>
    andThen (exactly ':' rest) fun _ rest _ =>
    map (twoDigits 0 59 rest) fun _ => ()

/-- The time behind a date. -/
def timeOfDate (cs : List Char) : Option (Prefix true cs Unit) :=
  andThen (char (fun c => c == 'T' || c == 't' || c == ' ') cs) fun _ rest _ =>
  andThen (time rest) fun _ rest _ => orElse (offset rest) ()

def daysIn (year month : Nat) : Nat :=
  if month = 2 then
    if year % 4 = 0 ∧ (year % 100 ≠ 0 ∨ year % 400 = 0) then 29 else 28
  else if month ∈ [4, 6, 9, 11] then 30
  else 31

/-- A date with or without a time; the value says whether there is such a day. -/
def date (cs : List Char) : Option (Prefix true cs Bool) :=
  andThen (twoDigits 0 99 cs) fun century rest _ =>
  andThen (twoDigits 0 99 rest) fun years rest _ =>
  andThen (exactly '-' rest) fun _ rest _ =>
  andThen (twoDigits 1 12 rest) fun month rest _ =>
  andThen (exactly '-' rest) fun _ rest _ =>
  andThen (twoDigits 1 31 rest) fun day rest _ =>
  map (orElse (timeOfDate rest) ()) fun _ =>
    let year := 100 * century + years
    decide (1 ≤ year ∧ day ≤ daysIn year month)

/-! ### Numbers -/

/-- Digits of a class behind a first one, with single underscores between them. -/
def moreDigits (p : Char → Bool) : (cs : List Char) → Option (Prefix false cs (List Char))
  | '_' :: d :: rest =>
    if p d then weaken (behind (behind (map (moreDigits p rest) (d :: ·))))
    else done [] ('_' :: d :: rest)
  | d :: rest =>
    if p d then weaken (behind (map (moreDigits p rest) (d :: ·))) else done [] (d :: rest)
  | [] => done [] []

/-- One or more digits of a class, with single underscores between them. -/
def digitGroup (p : Char → Bool) (cs : List Char) : Option (Prefix true cs (List Char)) :=
  andThen (char p cs) fun d rest _ => map (moreDigits p rest) (d :: ·)

/-- A number in another base than ten. -/
def basedInteger : (cs : List Char) → Option (Prefix true cs Value)
  | '0' :: 'x' :: rest =>
    behind <| behind <| map (digitGroup isHexDigit rest) fun ds => .integer (ofDigits 16 ds)
  | '0' :: 'o' :: rest =>
    behind <| behind <| map (digitGroup isOctalDigit rest) fun ds => .integer (ofDigits 8 ds)
  | '0' :: 'b' :: rest =>
    behind <| behind <| map (digitGroup isBinaryDigit rest) fun ds => .integer (ofDigits 2 ds)
  | _ => none

/-- A sign, if it is there; true for a minus. -/
def optionalSign : (cs : List Char) → Option (Prefix false cs Bool)
  | '-' :: rest => weaken (behind (done true rest))
  | '+' :: rest => weaken (behind (done false rest))
  | cs => done false cs

/-- The digits before the point: a zero alone, or digits that start with none. -/
def wholeDigits : (cs : List Char) → Option (Prefix true cs (List Char))
  | '0' :: rest => behind (done ['0'] rest)
  | cs => digitGroup isDigit cs

def fractionPart (cs : List Char) : Option (Prefix true cs (List Char)) :=
  andThen (exactly '.' cs) fun _ rest _ => digitGroup isDigit rest

def exponentPart (cs : List Char) : Option (Prefix true cs Int) :=
  andThen (char (fun c => c == 'e' || c == 'E') cs) fun _ rest _ =>
  andThen (optionalSign rest) fun negative rest _ =>
  map (digitGroup isDigit rest) fun ds =>
    if negative then -(ofDigits 10 ds : Int) else ofDigits 10 ds

/-- The number `digits * 10 ^ exponent`.  An exponent beyond what a floating-point number can show
is cut off, which changes nothing but the work. -/
def scaled (digits : Nat) (exponent : Int) : Float :=
  if digits = 0 then 0
  else
    let bound : Int := 400 + (Nat.toDigits 10 digits).length
    let e := max (-bound) (min exponent 400)
    Float.ofScientific digits (e < 0) e.natAbs

/-- An integer in base ten, which may not be longer than integers in arguments. -/
def wholeNumber (negative : Bool) (digits : List Char) : Except Fault Value :=
  if digits.length > Integer.maxDigits then .error .integerTooLong
  else .ok (.integer (if negative then -(ofDigits 10 digits : Int) else ofDigits 10 digits))

/-- A number in base ten without its sign: whole unless it has a fraction or an exponent. -/
def unsignedNumber (negative : Bool) (cs : List Char) :
    Option (Prefix true cs (Except Fault Value)) :=
  andThen (wholeDigits cs) fun whole rest _ =>
  andThen (orElse (map (fractionPart rest) some) none) fun fraction rest _ =>
  map (orElse (map (exponentPart rest) some) none) fun exponent =>
    match fraction, exponent with
    | none, none => wholeNumber negative whole
    | fraction, exponent =>
      let places := fraction.getD []
      let x := scaled (ofDigits 10 (whole ++ places)) (exponent.getD 0 - places.length)
      .ok (.float (if negative then -x else x))

def decimalNumber : (cs : List Char) → Option (Prefix true cs (Except Fault Value))
  | '-' :: rest => behind (unsignedNumber true rest)
  | '+' :: rest => behind (unsignedNumber false rest)
  | cs => unsignedNumber false cs

/-- The numbers that have names, without a sign. -/
def unsignedName (infinity : Float) (cs : List Char) : Option (Prefix true cs Value) :=
  (map (text 'i' ['n', 'f'] cs) fun _ => .float infinity).or
    (map (text 'n' ['a', 'n'] cs) fun _ => .float (0 / 0))

/-- The numbers that have names; a sign may stand before each. -/
def namedNumber : (cs : List Char) → Option (Prefix true cs Value)
  | '-' :: rest => behind (unsignedName (-1 / 0) rest)
  | '+' :: rest => behind (unsignedName (1 / 0) rest)
  | cs => unsignedName (1 / 0) cs

end Toml
end LoxScript
