import LoxScript.Binding.LocalScope
import LoxScript.Noted

/-!
Resolution: every use of a name is told how many scopes out it is declared.

There is a scope for each block, for each function with its parameters, for the receiver of the
methods of a class, and, around that, for the superclass if the class has one.  A use refers to the
innermost scope that declares its name before the use or around it.  Programs that break a rule of
scoping are complained about, and resolved nevertheless.
-/

namespace LoxScript

/-- The rules of scoping that a program can break. -/
inductive ScopeMistake where
  | redeclared | ownInitializer
  | returnOutside | returnFromInitializer
  | thisOutside | superOutside | noSuperclass | ownSuperclass
deriving Repr, DecidableEq, Inhabited

def ScopeMistake.message : ScopeMistake → String
  | redeclared => "Already a variable with this name in this scope."
  | ownInitializer => "Can't read local variable in its own initializer."
  | returnOutside => "Can't return from top-level code."
  | returnFromInitializer => "Can't return a value from an initializer."
  | thisOutside => "Can't use 'this' outside of a class."
  | superOutside => "Can't use 'super' outside of a class."
  | noSuperclass => "Can't use 'super' in a class with no superclass."
  | ownSuperclass => "A class can't inherit from itself."

/-- The code around a place in a program. -/
inductive Body where
  | outermost | function | initializer | method
deriving Repr, DecidableEq, Inhabited

/-- The class around a place in a program. -/
inductive ClassBody where
  | outside | base | derived
deriving Repr, DecidableEq, Inhabited

structure Surroundings where
  body : Body
  classBody : ClassBody
deriving Repr, DecidableEq, Inhabited

namespace Resolve
open Noted

/-- Complains about a token if a condition holds. -/
def noteIf (condition : Bool) (t : Token) (m : ScopeMistake) : Noted Unit :=
  note (if condition then [.atToken t m.message] else [])

/-- A function's scope, which holds its parameters. -/
def declareParams (scopes : LocalScopes) : List Name → Noted LocalScopes
  | [] => pure scopes
  | p :: rest => do
    noteIf (scopes.isRedeclared p.text) p.token .redeclared
    declareParams (scopes.declare p.text true) rest

/-- A use of a variable. -/
def reference (scopes : LocalScopes) (x : Name) : Noted (Option Nat) := do
  noteIf (scopes.isPending x.text) x.token .ownInitializer
  return scopes.distance? x.text

mutual

def expr (around : Surroundings) (scopes : LocalScopes) : Expr Unit → Noted (Expr (Option Nat))
  | .literal value => return .literal value
  | .grouping inner => return .grouping (← expr around scopes inner)
  | .unary op line operand => return .unary op line (← expr around scopes operand)
  | .binary left op line right => do
    let left ← expr around scopes left
    return .binary left op line (← expr around scopes right)
  | .logical left op line right => do
    let left ← expr around scopes left
    return .logical left op line (← expr around scopes right)
  | .var name _ => return .var name (← reference scopes name)
  | .assign name _ value =>
    return .assign name (scopes.distance? name.text) (← expr around scopes value)
  | .call callee line arguments => do
    let callee ← expr around scopes callee
    return .call callee line (← exprs around scopes arguments)
  | .get object property => return .get (← expr around scopes object) property
  -- what is assigned is complained about before the object that it is assigned to
  | .set object property value => do
    let value ← expr around scopes value
    return .set (← expr around scopes object) property value
  | .update object property op line value => do
    let value ← expr around scopes value
    return .update (← expr around scopes object) property op line value
  | .this line _ => do
    let outside := around.classBody == .outside
    noteIf outside ⟨.keyword .this_, line⟩ .thisOutside
    return .this line (if outside then none else scopes.distance? "this")
  | .super line _ method => do
    noteIf (around.classBody == .outside) ⟨.keyword .super_, line⟩ .superOutside
    noteIf (around.classBody == .base) ⟨.keyword .super_, line⟩ .noSuperclass
    return .super line (scopes.distance? "super") method
  | .function line body => return .function line (← code around .function scopes body)

def exprs (around : Surroundings) (scopes : LocalScopes) :
    List (Expr Unit) → Noted (List (Expr (Option Nat)))
  | [] => return []
  | e :: rest => do
    let e ← expr around scopes e
    return e :: (← exprs around scopes rest)

def optionalExpr (around : Surroundings) (scopes : LocalScopes) :
    Option (Expr Unit) → Noted (Option (Expr (Option Nat)))
  | none => return none
  | some e => return some (← expr around scopes e)

/-- A function: its parameters and its body share one scope. -/
def code (around : Surroundings) (body : Body) (scopes : LocalScopes) :
    Code Unit → Noted (Code (Option Nat))
  | .mk params statements => do
    let inner ← declareParams ([] :: scopes) params
    return .mk params (← stmts { around with body } inner statements)

def methods (around : Surroundings) (scopes : LocalScopes) :
    List (Method Unit) → Noted (List (Method (Option Nat)))
  | [] => return []
  | .mk name body :: rest => do
    let kind := if name.text = "init" then Body.initializer else Body.method
    let body ← code around kind scopes body
    return .mk name body :: (← methods around scopes rest)

def stmt (around : Surroundings) (scopes : LocalScopes) : Stmt Unit → Noted (Stmt (Option Nat))
  | .expression e => return .expression (← expr around scopes e)
  | .print e => return .print (← expr around scopes e)
  | .var name initial => do
    noteIf (scopes.isRedeclared name.text) name.token .redeclared
    return .var name (← optionalExpr around (scopes.declare name.text false) initial)
  | .block body => return .block (← stmts around ([] :: scopes) body)
  | .branch condition yes no => do
    let condition ← expr around scopes condition
    let yes ← stmt around scopes yes
    return .branch condition yes (← optionalStmt around scopes no)
  | .loop condition body => do
    let condition ← expr around scopes condition
    return .loop condition (← stmt around scopes body)
  | .function name body => do
    noteIf (scopes.isRedeclared name.text) name.token .redeclared
    return .function name (← code around .function (scopes.declare name.text true) body)
  | .ret line value => do
    noteIf (around.body == .outermost) ⟨.keyword .return_, line⟩ .returnOutside
    noteIf (around.body == .initializer && value.isSome) ⟨.keyword .return_, line⟩
      .returnFromInitializer
    return .ret line (← optionalExpr around scopes value)
  | .classDef name parent declared => do
    noteIf (scopes.isRedeclared name.text) name.token .redeclared
    let scopes := scopes.declare name.text true
    match parent with
    | none =>
      let around := { around with classBody := .base }
      return .classDef name none (← methods around ([("this", true)] :: scopes) declared)
    | some (parent, _) =>
      noteIf (parent.text == name.text) parent.token .ownSuperclass
      let ref ← reference scopes parent
      let around := { around with classBody := .derived }
      let inner := [("this", true)] :: [("super", true)] :: scopes
      return .classDef name (some (parent, ref)) (← methods around inner declared)

def optionalStmt (around : Surroundings) (scopes : LocalScopes) :
    Option (Stmt Unit) → Noted (Option (Stmt (Option Nat)))
  | none => return none
  | some s => return some (← stmt around scopes s)

def stmts (around : Surroundings) (scopes : LocalScopes) :
    List (Stmt Unit) → Noted (List (Stmt (Option Nat)))
  | [] => return []
  | s :: rest => do
    let s' ← stmt around scopes s
    return s' :: (← stmts around (scopes.after s) rest)

end

/-- A whole program, whose outermost names are global. -/
def program (statements : List (Stmt Unit)) : Noted (List (Stmt (Option Nat))) :=
  stmts ⟨.outermost, .outside⟩ [] statements

end Resolve
end LoxScript
