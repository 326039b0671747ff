import LoxScript.Diagnostic
import LoxScript.Syntax

/-!
Programs with other line numbers.

Lines are carried along from the tokens to the failures of a run, and nothing depends on them.  Here
every line of a tree is changed by one function; what reading, resolution and running make of such a
tree is shown elsewhere.
-/

namespace LoxScript

def Token.renumber (f : Nat → Nat) (t : Token) : Token := { t with line := f t.line }

def Name.renumber (f : Nat → Nat) (x : Name) : Name := { x with line := f x.line }

theorem Name.text_renumber (f : Nat → Nat) (x : Name) : (x.renumber f).text = x.text := rfl

theorem Token.renumber_id : Token.renumber id = id := rfl

def Diagnostic.renumber (f : Nat → Nat) (d : Diagnostic) : Diagnostic := { d with line := f d.line }

namespace Renumber
variable {ρ : Type} (f : Nat → Nat)

mutual

def expr : Expr ρ → Expr ρ
  | .literal value => .literal value
  | .grouping inner => .grouping (expr inner)
  | .unary op line operand => .unary op (f line) (expr operand)
  | .binary left op line right => .binary (expr left) op (f line) (expr right)
  | .logical left op line right => .logical (expr left) op (f line) (expr right)
  | .var name ref => .var (name.renumber f) ref
  | .assign name ref value => .assign (name.renumber f) ref (expr value)
  | .call callee line arguments => .call (expr callee) (f line) (exprs arguments)
  | .get object property => .get (expr object) (property.renumber f)
  | .set object property value => .set (expr object) (property.renumber f) (expr value)
  | .update object property op line value =>
    .update (expr object) (property.renumber f) op (f line) (expr value)
  | .this line ref => .this (f line) ref
  | .super line ref method => .super (f line) ref (method.renumber f)
  | .function line body => .function (f line) (code body)

def exprs : List (Expr ρ) → List (Expr ρ)
  | [] => []
  | e :: rest => expr e :: exprs rest

def optionalExpr : Option (Expr ρ) → Option (Expr ρ)
  | none => none
  | some e => some (expr e)

def code : Code ρ → Code ρ
  | .mk params body => .mk (params.map (·.renumber f)) (stmts body)

def methods : List (Method ρ) → List (Method ρ)
  | [] => []
  | .mk name body :: rest => .mk (name.renumber f) (code body) :: methods rest

def stmt : Stmt ρ → Stmt ρ
  | .expression e => .expression (expr e)
  | .print e => .print (expr e)
  | .var name initial => .var (name.renumber f) (optionalExpr initial)
  | .block body => .block (stmts body)
  | .branch condition yes no => .branch (expr condition) (stmt yes) (optionalStmt no)
  | .loop condition body => .loop (expr condition) (stmt body)
  | .function name body => .function (name.renumber f) (code body)
  | .ret line value => .ret (f line) (optionalExpr value)
  | .classDef name parent declared =>
    .classDef (name.renumber f) (parent.map fun (x, ref) => (x.renumber f, ref)) (methods declared)

def optionalStmt : Option (Stmt ρ) → Option (Stmt ρ)
  | none => none
  | some s => some (stmt s)

def stmts : List (Stmt ρ) → List (Stmt ρ)
  | [] => []
  | s :: rest => stmt s :: stmts rest

end

mutual

theorem expr_id : (e : Expr ρ) → expr id e = e
  | .literal _ => rfl
  | .grouping inner => by rw [expr, expr_id inner]
  | .unary _ _ operand => by rw [expr, expr_id operand, id]
  | .binary left _ _ right => by rw [expr, expr_id left, expr_id right, id]
  | .logical left _ _ right => by rw [expr, expr_id left, expr_id right, id]
  | .var _ _ => rfl
  | .assign _ _ value => by rw [expr, expr_id value]; rfl
  | .call callee _ arguments => by rw [expr, expr_id callee, exprs_id arguments, id]
  | .get object _ => by rw [expr, expr_id object]; rfl
  | .set object _ value => by rw [expr, expr_id object, expr_id value]; rfl
  | .update object _ _ _ value => by rw [expr, expr_id object, expr_id value]; rfl
  | .this _ _ => rfl
  | .super _ _ _ => rfl
  | .function _ body => by rw [expr, code_id body, id]

theorem exprs_id : (es : List (Expr ρ)) → exprs id es = es
  | [] => rfl
  | e :: rest => by rw [exprs, expr_id e, exprs_id rest]

theorem optionalExpr_id : (e : Option (Expr ρ)) → optionalExpr id e = e
  | none => rfl
  | some e => by rw [optionalExpr, expr_id e]

theorem code_id : (c : Code ρ) → code id c = c
  | .mk params body => by
    rw [code, stmts_id body, show params.map (Name.renumber id) = params from List.map_id params]

theorem methods_id : (ms : List (Method ρ)) → methods id ms = ms
  | [] => rfl
  | .mk _ body :: rest => by rw [methods, code_id body, methods_id rest]; rfl

theorem stmt_id : (s : Stmt ρ) → stmt id s = s
  | .expression e => by rw [stmt, expr_id e]
  | .print e => by rw [stmt, expr_id e]
  | .var _ initial => by rw [stmt, optionalExpr_id initial]; rfl
  | .block body => by rw [stmt, stmts_id body]
  | .branch condition yes no => by rw [stmt, expr_id condition, stmt_id yes, optionalStmt_id no]
  | .loop condition body => by rw [stmt, expr_id condition, stmt_id body]
  | .function _ body => by rw [stmt, code_id body]; rfl
  | .ret _ value => by rw [stmt, optionalExpr_id value, id]
  | .classDef _ none declared => by rw [stmt, methods_id declared]; rfl
  | .classDef _ (some _) declared => by rw [stmt, methods_id declared]; rfl

theorem optionalStmt_id : (s : Option (Stmt ρ)) → optionalStmt id s = s
  | none => rfl
  | some s => by rw [optionalStmt, stmt_id s]

theorem stmts_id : (ss : List (Stmt ρ)) → stmts id ss = ss
  | [] => rfl
  | s :: rest => by rw [stmts, stmt_id s, stmts_id rest]

end

section
variable (g : Nat → Nat)

mutual

theorem expr_comp : (e : Expr ρ) → expr f (expr g e) = expr (f ∘ g) e
  | .literal _ => rfl
  | .grouping inner => by rw [expr, expr, expr, expr_comp inner]
  | .unary _ _ operand => by rw [expr, expr, expr, expr_comp operand, Function.comp]
  | .binary left _ _ right => by
    rw [expr, expr, expr, expr_comp left, expr_comp right, Function.comp]
  | .logical left _ _ right => by
    rw [expr, expr, expr, expr_comp left, expr_comp right, Function.comp]
  | .var _ _ => rfl
  | .assign _ _ value => by rw [expr, expr, expr, expr_comp value]; rfl
  | .call callee _ arguments => by
    rw [expr, expr, expr, expr_comp callee, exprs_comp arguments, Function.comp]
  | .get object _ => by rw [expr, expr, expr, expr_comp object]; rfl
  | .set object _ value => by rw [expr, expr, expr, expr_comp object, expr_comp value]; rfl
  | .update object _ _ _ value => by rw [expr, expr, expr, expr_comp object, expr_comp value]; rfl
  | .this _ _ => rfl
  | .super _ _ _ => rfl
  | .function _ body => by rw [expr, expr, expr, code_comp body, Function.comp]

theorem exprs_comp : (es : List (Expr ρ)) → exprs f (exprs g es) = exprs (f ∘ g) es
  | [] => rfl
  | e :: rest => by rw [exprs, exprs, exprs, expr_comp e, exprs_comp rest]

theorem optionalExpr_comp : (e : Option (Expr ρ)) →
    optionalExpr f (optionalExpr g e) = optionalExpr (f ∘ g) e
  | none => rfl
  | some e => by rw [optionalExpr, optionalExpr, optionalExpr, expr_comp e]

theorem code_comp : (c : Code ρ) → code f (code g c) = code (f ∘ g) c
  | .mk params body => by
    rw [code, code, code, stmts_comp body, List.map_map]
    rfl

theorem methods_comp : (ms : List (Method ρ)) → methods f (methods g ms) = methods (f ∘ g) ms
  | [] => rfl
  | .mk _ body :: rest => by rw [methods, methods, methods, code_comp body, methods_comp rest]; rfl

theorem stmt_comp : (s : Stmt ρ) → stmt f (stmt g s) = stmt (f ∘ g) s
  | .expression e => by rw [stmt, stmt, stmt, expr_comp e]
  | .print e => by rw [stmt, stmt, stmt, expr_comp e]
  | .var _ initial => by rw [stmt, stmt, stmt, optionalExpr_comp initial]; rfl
  | .block body => by rw [stmt, stmt, stmt, stmts_comp body]
  | .branch condition yes no => by
    rw [stmt, stmt, stmt, expr_comp condition, stmt_comp yes, optionalStmt_comp no]
  | .loop condition body => by rw [stmt, stmt, stmt, expr_comp condition, stmt_comp body]
  | .function _ body => by rw [stmt, stmt, stmt, code_comp body]; rfl
  | .ret _ value => by rw [stmt, stmt, stmt, optionalExpr_comp value, Function.comp]
  | .classDef _ none declared => by rw [stmt, stmt, stmt, methods_comp declared]; rfl
  | .classDef _ (some _) declared => by rw [stmt, stmt, stmt, methods_comp declared]; rfl

theorem optionalStmt_comp : (s : Option (Stmt ρ)) →
    optionalStmt f (optionalStmt g s) = optionalStmt (f ∘ g) s
  | none => rfl
  | some s => by rw [optionalStmt, optionalStmt, optionalStmt, stmt_comp s]

theorem stmts_comp : (ss : List (Stmt ρ)) → stmts f (stmts g ss) = stmts (f ∘ g) ss
  | [] => rfl
  | s :: rest => by rw [stmts, stmts, stmts, stmt_comp s, stmts_comp rest]

end

end

end Renumber
end LoxScript
