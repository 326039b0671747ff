import LoxScript.Syntax

/-!
The uses of names in a program, from left to right, an expression before its parts.
-/

namespace LoxScript

inductive UseKind where
  | variable | assign | this | super
deriving Repr, DecidableEq, Inhabited

/-- A use of a name, with what is known of it. -/
structure Use (ρ : Type) where
  kind : UseKind
  name : String
  line : Nat
  ref : ρ
deriving Repr, DecidableEq

namespace Use
variable {ρ : Type}

mutual

def ofExpr : Expr ρ → List (Use ρ)
  | .literal _ => []
  | .grouping inner => ofExpr inner
  | .unary _ _ operand => ofExpr operand
  | .binary left _ _ right => ofExpr left ++ ofExpr right
  | .logical left _ _ right => ofExpr left ++ ofExpr right
  | .var name ref => [⟨.variable, name.text, name.line, ref⟩]
  | .assign name ref value => ⟨.assign, name.text, name.line, ref⟩ :: ofExpr value
  | .call callee _ arguments => ofExpr callee ++ ofExprs arguments
  | .get object _ => ofExpr object
  | .set object _ value => ofExpr object ++ ofExpr value
  | .update object _ _ _ value => ofExpr object ++ ofExpr value
  | .this line ref => [⟨.this, "this", line, ref⟩]
  | .super line ref _ => [⟨.super, "super", line, ref⟩]
  | .function _ code => ofCode code

def ofExprs : List (Expr ρ) → List (Use ρ)
  | [] => []
  | e :: rest => ofExpr e ++ ofExprs rest

def ofOptionalExpr : Option (Expr ρ) → List (Use ρ)
  | none => []
  | some e => ofExpr e

def ofCode : Code ρ → List (Use ρ)
  | .mk _ body => ofStmts body

def ofMethods : List (Method ρ) → List (Use ρ)
  | [] => []
  | .mk _ code :: rest => ofCode code ++ ofMethods rest

def ofStmt : Stmt ρ → List (Use ρ)
  | .expression e => ofExpr e
  | .print e => ofExpr e
  | .var _ initial => ofOptionalExpr initial
  | .block body => ofStmts body
  | .branch condition yes no => ofExpr condition ++ ofStmt yes ++ ofOptionalStmt no
  | .loop condition body => ofExpr condition ++ ofStmt body
  | .function _ code => ofCode code
  | .ret _ value => ofOptionalExpr value
  | .classDef _ none methods => ofMethods methods
  | .classDef _ (some (parent, ref)) methods =>
    ⟨.variable, parent.text, parent.line, ref⟩ :: ofMethods methods

def ofOptionalStmt : Option (Stmt ρ) → List (Use ρ)
  | none => []
  | some s => ofStmt s

def ofStmts : List (Stmt ρ) → List (Use ρ)
  | [] => []
  | s :: rest => ofStmt s ++ ofStmts rest

end
end Use
end LoxScript
