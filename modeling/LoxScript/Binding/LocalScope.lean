import LoxScript.Syntax

/-!
The local scopes around a place in a program, innermost first.

The outermost level of a program is not among them: its names are global and need no declaration
before their use.
-/

namespace LoxScript

/-- The names declared in a scope, the latest first, each with whether its initial value is already
there. -/
abbrev LocalScope := List (String × Bool)

namespace LocalScope

def declares (s : LocalScope) (x : String) : Bool := s.any (·.1 == x)

/-- The name is declared, and its initial value is being computed. -/
def isPending (s : LocalScope) (x : String) : Bool := s.lookup x == some false

end LocalScope

abbrev LocalScopes := List LocalScope

namespace LocalScopes

/-- Declares a name in the innermost scope. -/
def declare (x : String) (ready : Bool) : LocalScopes → LocalScopes
  | [] => []
  | s :: outer => ((x, ready) :: s) :: outer

/-- The number of scopes between a use of a name and the one that declares it; `none` if it is
global. -/
def distance? (scopes : LocalScopes) (x : String) : Option Nat :=
  scopes.findIdx? (·.declares x)

def isRedeclared (scopes : LocalScopes) (x : String) : Bool :=
  scopes.head?.any (·.declares x)

def isPending (scopes : LocalScopes) (x : String) : Bool :=
  scopes.head?.any (·.isPending x)

end LocalScopes

/-- The name that a statement declares in the scope it stands in. -/
def Stmt.declares? {ρ : Type} : Stmt ρ → Option Name
  | var name _ => some name
  | function name _ => some name
  | classDef name _ _ => some name
  | _ => none

/-- The scopes behind a statement. -/
def LocalScopes.after {ρ : Type} (scopes : LocalScopes) (s : Stmt ρ) : LocalScopes :=
  match s.declares? with
  | some x => scopes.declare x.text true
  | none => scopes

end LoxScript
