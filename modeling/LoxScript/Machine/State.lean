import LoxScript.Fault
import LoxScript.Machine.Store

/-!
States of a running program.

A state says what is looked at (an expression to evaluate, a value to deliver, a statement to
execute, or a statement that is complete) and what is done after it.  The latter is a continuation;
there are two kinds of them, one that waits for a value and one that waits for a statement, so that
each is only ever given what it waits for.
-/

namespace LoxScript

/-- An expression whose uses of names are resolved. -/
abbrev RExpr := Expr (Option Nat)

abbrev RStmt := Stmt (Option Nat)

/-- How a statement has ended. -/
inductive Completion where
  | normal
  | returned (v : Value)
deriving Inhabited

/-- What a call answers when its body has ended. -/
inductive CallResult where
  /-- What the body returned. -/
  | returned
  /-- The receiver, which the given environment binds. -/
  | receiver (environment : Environment)
  /-- The instance that is being made. -/
  | made (instance_ : Value)
deriving Inhabited

mutual

/-- What is done with the value of an expression. -/
inductive ValueCont where
  | unary (op : UnaryOp) (line : Nat) (next : ValueCont)
  | binaryLeft (op : BinaryOp) (line : Nat) (right : RExpr) (env : Environment) (next : ValueCont)
  | binaryRight (op : BinaryOp) (line : Nat) (left : Value) (next : ValueCont)
  | logical (op : LogicalOp) (right : RExpr) (env : Environment) (next : ValueCont)
  | assign (name : Name) (ref : Option Nat) (env : Environment) (next : ValueCont)
  | callee (line : Nat) (arguments : List RExpr) (env : Environment) (next : ValueCont)
  /-- An argument of a call; those before it are `earlier`, the latest first. -/
  | argument (line : Nat) (callee : Value) (earlier : List Value) (later : List RExpr)
      (env : Environment) (next : ValueCont)
  | get (property : Name) (next : ValueCont)
  | setObject (property : Name) (value : RExpr) (env : Environment) (next : ValueCont)
  | setValue (instance_ : Nat) (property : Name) (next : ValueCont)
  | updateObject (property : Name) (op : ArithOp) (line : Nat) (value : RExpr) (env : Environment)
      (next : ValueCont)
  | updateValue (instance_ : Nat) (property : Name) (op : ArithOp) (line : Nat) (current : Value)
      (next : ValueCont)
  | discard (next : StmtCont)
  | print (next : StmtCont)
  | define (x : String) (env : Environment) (next : StmtCont)
  | ret (next : StmtCont)
  | branch (yes : RStmt) (no : Option RStmt) (env : Environment) (next : StmtCont)
  | loopTest (condition : RExpr) (body : RStmt) (env : Environment) (next : StmtCont)
  /-- The superclass in a class declaration. -/
  | inherit (name parent : Name) (methods : List (Method (Option Nat))) (env : Environment)
      (next : StmtCont)

/-- What is done when a statement has ended. -/
inductive StmtCont where
  | sequence (later : List RStmt) (env : Environment) (next : StmtCont)
  | loopBody (condition : RExpr) (body : RStmt) (env : Environment) (next : StmtCont)
  /-- The statement is the body of a call. -/
  | call (result : CallResult) (next : ValueCont)
  /-- The statement is an outermost one. -/
  | finish

end

instance : Inhabited StmtCont := ⟨.finish⟩
instance : Inhabited ValueCont := ⟨.discard .finish⟩

mutual

/-- The number of calls in progress, of which there are `depth`, once everything that waits has been
given up.  A call that is left, in whatever way, is in progress no longer. -/
def ValueCont.unwind (depth : Nat) : ValueCont → Nat
  | .unary _ _ k => k.unwind depth
  | .binaryLeft _ _ _ _ k => k.unwind depth
  | .binaryRight _ _ _ k => k.unwind depth
  | .logical _ _ _ k => k.unwind depth
  | .assign _ _ _ k => k.unwind depth
  | .callee _ _ _ k => k.unwind depth
  | .argument _ _ _ _ _ k => k.unwind depth
  | .get _ k => k.unwind depth
  | .setObject _ _ _ k => k.unwind depth
  | .setValue _ _ k => k.unwind depth
  | .updateObject _ _ _ _ _ k => k.unwind depth
  | .updateValue _ _ _ _ _ k => k.unwind depth
  | .discard k => k.unwind depth
  | .print k => k.unwind depth
  | .define _ _ k => k.unwind depth
  | .ret k => k.unwind depth
  | .branch _ _ _ k => k.unwind depth
  | .loopTest _ _ _ k => k.unwind depth
  | .inherit _ _ _ _ k => k.unwind depth

def StmtCont.unwind (depth : Nat) : StmtCont → Nat
  | .sequence _ _ k => k.unwind depth
  | .loopBody _ _ _ k => k.unwind depth
  | .call _ k => k.unwind (depth - 1)
  | .finish => depth

end

/-- What is looked at. -/
inductive Focus where
  | evaluate (e : RExpr) (env : Environment) (next : ValueCont)
  | deliver (v : Value) (next : ValueCont)
  | execute (s : RStmt) (env : Environment) (next : StmtCont)
  | complete (c : Completion) (next : StmtCont)
deriving Inhabited

def Focus.unwind (depth : Nat) : Focus → Nat
  | .evaluate _ _ k => k.unwind depth
  | .deliver _ k => k.unwind depth
  | .execute _ _ k => k.unwind depth
  | .complete _ k => k.unwind depth

/-- A state of a running program. -/
structure Machine where
  focus : Focus
  /-- The outermost statements that come after the current one. -/
  pending : List RStmt
  store : Store
  /-- What has been printed. -/
  output : String
  /-- The number of calls that have begun and not ended. -/
  depth : Nat
deriving Inhabited

/-- What a program is run on may fail, too. -/
inductive HostFault where
  /-- The limit on nested calls asks for more of the stack than can be had. -/
  | limitTooHigh
  /-- The stack has run out, and no call could fail for that. -/
  | stackExhausted
deriving Repr, DecidableEq, Inhabited

/-- How a run ends. -/
inductive Ending where
  | finished
  | failed (e : RuntimeError)
  /-- A scope did not have what a use of a name expects of it. -/
  | unreachable (f : ReachFault)
  | broken (f : HostFault)
deriving DecidableEq, Inhabited

namespace Machine

/-- A program about to run. -/
def start (program : List RStmt) (store : Store) : Machine :=
  { focus := .complete .normal .finish, pending := program, store, output := "", depth := 0 }

/-- The number of calls in progress when the run is over, however it ends. -/
def depthLeft (m : Machine) : Nat := m.focus.unwind m.depth

end Machine
end LoxScript
