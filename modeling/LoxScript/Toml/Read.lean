import LoxScript.Toml.Scalar
import LoxScript.Toml.Table

/-!
Keys, arrays and inline tables of configuration documents.
-/

namespace LoxScript
namespace Toml
open Prefix

/-- A comment behind its `#`, up to the end of the line. -/
def commentBody (cs : List Char) : Option (Prefix false cs Unit) :=
  andThen (some (run (· != '\n') cs)) fun body rest _ =>
    if body.any isControl then none else done () rest

/-- Blanks, and a comment if one follows. -/
def lineGap (cs : List Char) : Option (Prefix false cs Unit) :=
  andThen (some (run isBlank cs)) fun _ rest _ =>
    match rest with
    | '#' :: rest => weaken (behind (commentBody rest))
    | rest => done () rest

/-- Blanks, newlines and comments, as between the items of an array. -/
def arrayGap (cs : List Char) : Option (Prefix false cs Unit) :=
  andThen (some (run isBlankOrNewline cs)) fun _ rest _ =>
    match exactly '#' rest with
    | none => done () rest
    | some hash =>
      weaken <| andThen (some hash) fun _ rest _ =>
      andThen (commentBody rest) fun _ rest _ => arrayGap rest
termination_by cs.length
decreasing_by grind

def isBareKeyChar (c : Char) : Bool :=
  ('a' ≤ c && c ≤ 'z') || ('A' ≤ c && c ≤ 'Z') || isDigit c || c == '-' || c == '_'

/-- A part of a key. -/
def keyPart (cs : List Char) : Option (Prefix true cs String) :=
  (map (run1 isBareKeyChar cs) String.ofList).or (map (shortString cs) String.ofList)

/-- The parts of a key behind the first, each after a point. -/
def keyTail (cs : List Char) : Option (Prefix false cs Path) :=
  andThen (some (run isBlank cs)) fun _ rest _ =>
    match exactly '.' rest with
    | none => done [] rest
    | some point =>
      weaken <| andThen (some point) fun _ rest _ =>
      andThen (some (run isBlank rest)) fun _ rest _ =>
      andThen (keyPart rest) fun part rest _ => map (keyTail rest) (part :: ·)
termination_by cs.length
decreasing_by grind

/-- A key: one or more parts with points between them, and the blanks behind it. -/
def key (cs : List Char) : Option (Prefix true cs (String × Path)) :=
  andThen (keyPart cs) fun part rest _ => map (keyTail rest) (part, ·)

/-- A reading that must not be missing. -/
def expect {α : Type} (p : Option α) : Except Fault α := p.elim (.error .malformed) .ok

/-- The first reading, or the second if it is missing. -/
def orNext {α : Type} (p : Option α) (next : Except Fault α) : Except Fault α := p.elim next .ok

/-- A value that holds no other.  What looks like a date must be one. -/
def scalar (cs : List Char) : Except Fault (Prefix true cs Value) := do
  let p ← expect <|
    (map (date cs) fun isDay => if isDay then .ok .moment else .error .malformed)
    |>.or (map (text 't' ['r', 'u', 'e'] cs) fun _ => .ok (.boolean true))
    |>.or (map (text 'f' ['a', 'l', 's', 'e'] cs) fun _ => .ok (.boolean false))
    |>.or (map (time cs) fun _ => .ok .moment)
    |>.or (map (basedInteger cs) .ok)
    |>.or (decimalNumber cs)
    |>.or (map (namedNumber cs) .ok)
  return ⟨← p.value, p.rest, p.shrinks⟩

/-- A key without its last part, and that part. -/
def splitKey : String × Path → Path × String
  | (first, more) =>
    ((first :: more).dropLast, (first :: more).getLast (List.cons_ne_nil first more))

mutual

def value : (cs : List Char) → Except Fault (Prefix true cs Value)
  | '"' :: rest => expect (map (string ('"' :: rest)) fun s => .string (String.ofList s))
  | '\'' :: rest => expect (map (string ('\'' :: rest)) fun s => .string (String.ofList s))
  | '[' :: rest =>
    behind <| andThen (expect (arrayGap rest)) fun _ rest _ =>
      orNext (map (exactly ']' rest) fun _ => .array []) (map (items rest) .array)
  | '{' :: rest =>
    behind <| andThen (pure (run isBlank rest)) fun _ rest _ =>
      orNext (map (exactly '}' rest) fun _ => .table [])
        (map (inlineEntries [] rest) fun es => .table (toValues es))
  | cs => scalar cs
termination_by cs => 4 * cs.length + 1
decreasing_by all_goals grind

/-- The items of an array up to its end; a comma may follow the last one. -/
def items (cs : List Char) : Except Fault (Prefix true cs (List Value)) :=
  andThen (value cs) fun v rest _ =>
  andThen (expect (arrayGap rest)) fun _ rest _ =>
    orNext (map (exactly ']' rest) fun _ => [v]) <|
      andThen (expect (exactly ',' rest)) fun _ rest _ =>
      andThen (expect (arrayGap rest)) fun _ rest _ =>
        orNext (map (exactly ']' rest) fun _ => [v]) (map (items rest) (v :: ·))
termination_by 4 * cs.length + 2
decreasing_by all_goals grind

/-- The entries of an inline table up to its end; no comma may follow the last one. -/
def inlineEntries (es : Entries) (cs : List Char) : Except Fault (Prefix true cs Entries) :=
  andThen (keyValue cs) fun (k, v) rest _ =>
    match es.change false (Entries.add (splitKey k).2 v) (splitKey k).1 with
    | none => .error .malformed
    | some es =>
      andThen (pure (run isBlank rest)) fun _ rest _ =>
        orNext (map (exactly '}' rest) fun _ => es) <|
          andThen (expect (exactly ',' rest)) fun _ rest _ =>
          andThen (pure (run isBlank rest)) fun _ rest _ => inlineEntries es rest
termination_by 4 * cs.length + 3
decreasing_by all_goals grind

def keyValue (cs : List Char) : Except Fault (Prefix true cs ((String × Path) × Value)) :=
  andThen (expect (key cs)) fun k rest _ =>
  andThen (expect (exactly '=' rest)) fun _ rest _ =>
  andThen (pure (run isBlank rest)) fun _ rest _ => map (value rest) (k, ·)
termination_by 4 * cs.length + 2
decreasing_by all_goals grind

end

end Toml
end LoxScript
