/-!
Lines of text, by two rules.

An editor ends a line at any of a dozen characters or at a carriage return with its line feed.  A
program file has each of its carriage returns, with or without a line feed behind it, read as a line
feed.
-/

namespace LoxScript
namespace Lines

/-- The characters that end a line for an editor. -/
def isBreak (c : Char) : Bool :=
  c ∈ ['\n', '\r', '\x0b', '\x0c', '\x1c', '\x1d', '\x1e', '\u0085', '\u2028', '\u2029']

/-- The lines of a text without what ends them; `current` is the part of the line already seen, the
latest character first.  A text that ends with a line end has no further line behind it. -/
def splitFrom (current : List Char) : List Char → List (List Char)
  | [] => if current.isEmpty then [] else [current.reverse]
  | '\r' :: '\n' :: rest => current.reverse :: splitFrom [] rest
  | c :: rest =>
    if isBreak c then current.reverse :: splitFrom [] rest else splitFrom (c :: current) rest

def split (text : String) : List (List Char) := splitFrom [] text.toList

/-- The characters of a text with every line end as a line feed. -/
def unify : List Char → List Char
  | [] => []
  | '\r' :: '\n' :: rest => '\n' :: unify rest
  | '\r' :: rest => '\n' :: unify rest
  | c :: rest => c :: unify rest

end Lines
end LoxScript
