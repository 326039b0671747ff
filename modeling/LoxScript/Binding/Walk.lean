import LoxScript.Binding.Resolve
import LoxScript.Journal

/-!
Resolution as a walk over a program.

The walk keeps a stack of the scopes around the place it has come to, the innermost on top, and the
kind of code and of class it is in, and puts what it finds into a journal at once.  Whatever it goes
into it leaves again.
-/

namespace LoxScript

namespace LocalScope

/-- The initial value of a name is there. -/
def define (x : String) : LocalScope → LocalScope
  | [] => [(x, true)]
  | (y, ready) :: rest => if y = x then (y, true) :: rest else (y, ready) :: define x rest

end LocalScope

/-- What is kept during the walk. -/
structure Walk where
  scopes : LocalScopes := []
  around : Surroundings := ⟨.outermost, .outside⟩
  journal : Journal
deriving Inhabited

/-- A part of the walk. -/
def Walking (α : Type) : Type := Walk → α × Walk

namespace Walking

instance : Monad Walking where
  pure a := fun w => (a, w)
  bind x f := fun w => f (x w).1 (x w).2

def change (f : Walk → Walk) : Walking Unit := fun w => ((), f w)

def scopes : Walking LocalScopes := fun w => (w.scopes, w)

def around : Walking Surroundings := fun w => (w.around, w)

end Walking

namespace Walk
open Walking (change)

/-! ### Single steps -/

def complain (t : Token) (m : ScopeMistake) : Walking Unit :=
  change fun w => { w with journal := w.journal.report (.atToken t m.message) }

def complainIf (condition : Bool) (t : Token) (m : ScopeMistake) : Walking Unit :=
  if condition then complain t m else pure ()

def beginScope : Walking Unit := change fun w => { w with scopes := [] :: w.scopes }

def endScope : Walking Unit := change fun w => { w with scopes := w.scopes.tail }

def setBody (body : Body) : Walking Unit :=
  change fun w => { w with around := { w.around with body } }

def setClassBody (classBody : ClassBody) : Walking Unit :=
  change fun w => { w with around := { w.around with classBody } }

/-- Declares a name in the innermost scope; its initial value is not there yet. -/
def declare (x : Name) : Walking Unit := do
  complainIf ((← Walking.scopes).isRedeclared x.text) x.token .redeclared
  change fun w => { w with scopes := w.scopes.declare x.text false }

/-- The initial value of a name of the innermost scope is there. -/
def define (x : Name) : Walking Unit :=
  change fun w => { w with scopes := w.scopes.modifyHead (·.define x.text) }

/-- Begins a scope for a name that is not written in the program. -/
def beginScopeOf (x : String) : Walking Unit :=
  change fun w => { w with scopes := [(x, true)] :: w.scopes }

def distance? (x : String) : Walking (Option Nat) := do
  return (← Walking.scopes).distance? x

def reference (x : Name) : Walking (Option Nat) := do
  complainIf ((← Walking.scopes).isPending x.text) x.token .ownInitializer
  distance? x.text

def params : List Name → Walking Unit
  | [] => pure ()
  | p :: rest => do
    declare p
    define p
    params rest

/-! ### The walk -/

mutual

def expr : Expr Unit → Walking (Expr (Option Nat))
  | .literal value => return .literal value
  | .grouping inner => return .grouping (← expr inner)
  | .unary op line operand => return .unary op line (← expr operand)
  | .binary left op line right => do
    let left ← expr left
    return .binary left op line (← expr right)
  | .logical left op line right => do
    let left ← expr left
    return .logical left op line (← expr right)
  | .var name _ => return .var name (← reference name)
  | .assign name _ value => do
    let value ← expr value
    return .assign name (← distance? name.text) value
  | .call callee line arguments => do
    let callee ← expr callee
    return .call callee line (← exprs arguments)
  | .get object property => return .get (← expr object) property
  | .set object property value => do
    let value ← expr value
    return .set (← expr object) property value
  | .update object property op line value => do
    let value ← expr value
    return .update (← expr object) property op line value
  | .this line _ => do
    if (← Walking.around).classBody == .outside then
      complain ⟨.keyword .this_, line⟩ .thisOutside
      return .this line none
    else return .this line (← distance? "this")
  | .super line _ method => do
    let classBody := (← Walking.around).classBody
    if classBody == .outside then complain ⟨.keyword .super_, line⟩ .superOutside
    else complainIf (classBody != .derived) ⟨.keyword .super_, line⟩ .noSuperclass
    return .super line (← distance? "super") method
  | .function line body => return .function line (← code .function body)

def exprs : List (Expr Unit) → Walking (List (Expr (Option Nat)))
  | [] => return []
  | e :: rest => do
    let e ← expr e
    return e :: (← exprs rest)

def optionalExpr : Option (Expr Unit) → Walking (Option (Expr (Option Nat)))
  | none => return none
  | some e => return some (← expr e)

def code (body : Body) : Code Unit → Walking (Code (Option Nat))
  | .mk names statements => do
    let enclosing := (← Walking.around).body
    setBody body
    beginScope
    params names
    let statements ← stmts statements
    endScope
    setBody enclosing
    return .mk names statements

def methods : List (Method Unit) → Walking (List (Method (Option Nat)))
  | [] => return []
  | .mk name body :: rest => do
    let body ← code (if name.text = "init" then .initializer else .method) body
    return .mk name body :: (← methods rest)

def stmt : Stmt Unit → Walking (Stmt (Option Nat))
  | .expression e => return .expression (← expr e)
  | .print e => return .print (← expr e)
  | .var name initial => do
    declare name
    let initial ← optionalExpr initial
    define name
    return .var name initial
  | .block body => do
    beginScope
    let body ← stmts body
    endScope
    return .block body
  | .branch condition yes no => do
    let condition ← expr condition
    let yes ← stmt yes
    return .branch condition yes (← optionalStmt no)
  | .loop condition body => do
    let condition ← expr condition
    return .loop condition (← stmt body)
  | .function name body => do
    declare name
    define name
    return .function name (← code .function body)
  | .ret line value => do
    let body := (← Walking.around).body
    complainIf (body == .outermost) ⟨.keyword .return_, line⟩ .returnOutside
    complainIf (value.isSome && body == .initializer) ⟨.keyword .return_, line⟩
      .returnFromInitializer
    return .ret line (← optionalExpr value)
  | .classDef name parent declared => do
    let enclosing := (← Walking.around).classBody
    setClassBody .base
    declare name
    define name
    match parent with
    | none =>
      beginScopeOf "this"
      let declared ← methods declared
      endScope
      setClassBody enclosing
      return .classDef name none declared
    | some (parent, _) =>
      complainIf (parent.text == name.text) parent.token .ownSuperclass
      setClassBody .derived
      -- Before the scopes of the class begin.
      let ref ← reference parent
      beginScopeOf "super"
      beginScopeOf "this"
      let declared ← methods declared
      endScope
      endScope
      setClassBody enclosing
      return .classDef name (some (parent, ref)) declared

def optionalStmt : Option (Stmt Unit) → Walking (Option (Stmt (Option Nat)))
  | none => return none
  | some s => return some (← stmt s)

def stmts : List (Stmt Unit) → Walking (List (Stmt (Option Nat)))
  | [] => return []
  | s :: rest => do
    let s ← stmt s
    return s :: (← stmts rest)

end

/-- Walks over a whole program, whose outermost names are global. -/
def program (journal : Journal) (statements : List (Stmt Unit)) :
    List (Stmt (Option Nat)) × Journal :=
  let (resolved, w) := stmts statements { journal }
  (resolved, w.journal)

end Walk
end LoxScript
