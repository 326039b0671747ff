/-!
Paths of files, in their shortest spelling.

Repeated slashes and parts that are a single point are left out; parts that are two points stay,
because what they mean depends on the files.
-/

namespace LoxScript

structure Path where
  /-- The slashes that an absolute path begins with: two if there are exactly two, else one. -/
  anchor : String
  parts : List String
deriving Repr, DecidableEq, Inhabited

namespace Path

def ofString (s : String) : Path :=
  let cs := s.toList
  let slashes := (cs.takeWhile (· == '/')).length
  { anchor := if slashes = 0 then "" else if slashes = 2 then "//" else "/"
    parts := (s.splitOn "/").filter fun part => part ≠ "" ∧ part ≠ "." }

def text (p : Path) : String :=
  if p.parts.isEmpty && p.anchor.isEmpty then "."
  else p.anchor ++ "/".intercalate p.parts

/-- The path of a file has no NUL in it. -/
def isValid (p : Path) : Bool := !p.text.contains '\x00'

/-- The directory that the path lies in; one without parts lies in itself. -/
def parent (p : Path) : Path := { p with parts := p.parts.dropLast }

def child (p : Path) (name : String) : Path := { p with parts := p.parts ++ [name] }

end Path
end LoxScript
