import LoxScript.Scope.Bindings

/-!
Environments: chains of scopes that programs share.

A scope is a number, and `Scopes` says what each scope binds.  An environment is the chain of scopes
around a place in a running program, innermost first.  The chain itself never changes, and several
chains may have scopes in common, so that a binding made through one of them is seen through all.
-/

namespace LoxScript

/-- Identifies a scope: the number of scopes made before it. -/
structure ScopeId where
  index : Nat
deriving Repr, DecidableEq, Inhabited

/-- A chain of scopes. -/
inductive Environment where
  | root (scope : ScopeId)
  | nested (scope : ScopeId) (outer : Environment)
deriving Repr, DecidableEq, Inhabited

namespace Environment

/-- The innermost scope. -/
def scope : Environment → ScopeId
  | root s => s
  | nested s _ => s

/-- The environment the given number of scopes out; `none` if the chain is too short. -/
def ancestor? : Nat → Environment → Option Environment
  | 0, e => some e
  | _ + 1, root _ => none
  | n + 1, nested _ outer => ancestor? n outer

/-- An environment whose innermost scope is `s`, inside another one or on its own. -/
def within (outer : Option Environment) (s : ScopeId) : Environment :=
  match outer with
  | none => root s
  | some e => nested s e

end Environment

/-- Why a scope at a known distance could not answer. -/
inductive ReachFault where
  /-- The chain ends before it. -/
  | detached
  /-- It does not bind the name. -/
  | unbound (x : String)
deriving Repr, DecidableEq, Inhabited

/-- What every scope binds. -/
structure Scopes (α : Type) where
  all : Array (Bindings α)
deriving Inhabited

namespace Scopes
variable {α : Type}

def empty : Scopes α := ⟨#[]⟩

/-- The bindings of one scope; a number that is no scope binds nothing. -/
def bindings (s : Scopes α) (i : ScopeId) : Bindings α := s.all.getD i.index []

/-- A new scope, and the environment that has it in front of another one. -/
def extend (s : Scopes α) (outer : Option Environment) (own : Bindings α) :
    Environment × Scopes α :=
  (.within outer ⟨s.all.size⟩, ⟨s.all.push own⟩)

/-- Binds a name in one scope. -/
def put (s : Scopes α) (i : ScopeId) (x : String) (v : α) : Scopes α :=
  ⟨s.all.modify i.index (·.put x v)⟩

/-- Binds a name in the innermost scope. -/
def define (s : Scopes α) (e : Environment) (x : String) (v : α) : Scopes α :=
  s.put e.scope x v

/-- The innermost scope of the chain that binds a name. -/
def holder? (s : Scopes α) (x : String) : Environment → Option ScopeId
  | .root i => if (s.bindings i).binds x then some i else none
  | .nested i outer => if (s.bindings i).binds x then some i else s.holder? x outer

/-- The value of a name, found by name. -/
def get? (s : Scopes α) (e : Environment) (x : String) : Option α :=
  (s.holder? x e).bind fun i => (s.bindings i).find? x

/-- Gives a bound name a new value where it is bound. -/
def assign? (s : Scopes α) (e : Environment) (x : String) (v : α) : Option (Scopes α) :=
  (s.holder? x e).map fun i => s.put i x v

/-- The value of a name in the scope at a known distance. -/
def getAt (s : Scopes α) (e : Environment) (distance : Nat) (x : String) : Except ReachFault α :=
  match e.ancestor? distance with
  | none => .error .detached
  | some e =>
    match (s.bindings e.scope).find? x with
    | none => .error (.unbound x)
    | some v => .ok v

/-- Binds a name in the scope at a known distance, whether or not it is bound there. -/
def assignAt (s : Scopes α) (e : Environment) (distance : Nat) (x : String) (v : α) :
    Except ReachFault (Scopes α) :=
  match e.ancestor? distance with
  | none => .error .detached
  | some e => .ok (s.define e x v)

end Scopes
end LoxScript
