import LoxScript.Proofs.Surface.Reading

/-!
Declarations stand where the grammar allows them.

Whatever the tokens, if they are read without complaints, no branch of an `if` and no body of a loop
is a declaration: those stand directly in a block, in the body of a function or in the program.
-/

namespace LoxScript
namespace Nested

mutual

def expr : Expr Unit → Prop
  | .grouping inner => expr inner
  | .unary _ _ operand => expr operand
  | .binary left _ _ right => expr left ∧ expr right
  | .logical left _ _ right => expr left ∧ expr right
  | .assign _ _ value => expr value
  | .call callee _ arguments => expr callee ∧ exprs arguments
  | .get object _ => expr object
  | .set object _ value => expr object ∧ expr value
  | .update object _ _ _ value => expr object ∧ expr value
  | .function _ body => code body
  | _ => True

def exprs : List (Expr Unit) → Prop
  | [] => True
  | e :: rest => expr e ∧ exprs rest

def optionalExpr : Option (Expr Unit) → Prop
  | none => True
  | some e => expr e

def code : Code Unit → Prop
  | .mk _ body => stmts body

def methods : List (Method Unit) → Prop
  | [] => True
  | .mk _ body :: rest => code body ∧ methods rest

def stmt : Stmt Unit → Prop
  | .expression e => expr e
  | .print e => expr e
  | .var _ initial => optionalExpr initial
  | .block body => stmts body
  | .branch condition yes no =>
    expr condition ∧ (yes.declares? = none ∧ stmt yes) ∧ optionalStmt no
  | .loop condition body => expr condition ∧ body.declares? = none ∧ stmt body
  | .function _ body => code body
  | .ret _ value => optionalExpr value
  | .classDef _ _ declared => methods declared

def optionalStmt : Option (Stmt Unit) → Prop
  | none => True
  | some s => s.declares? = none ∧ stmt s

def stmts : List (Stmt Unit) → Prop
  | [] => True
  | s :: rest => stmt s ∧ stmts rest

end

end Nested

namespace Surface
open Elaboration

theorem declares_core {s : Stmt} (h : s.declares = false) : (core.stmt s).declares? = none := by
  cases s with
  | var | function | classDef => cases h
  | forLoop initial condition step body => cases initial <;> cases step <;> rfl
  | _ => rfl

theorem nested_node (op : Infix) {left right : LoxScript.Expr Unit} (line : Nat)
    (hl : Nested.expr left) (hr : Nested.expr right) : Nested.expr (op.node left line right) := by
  cases op <;> exact ⟨hl, hr⟩

theorem nested_forLoop {initial : Option (LoxScript.Stmt Unit)}
    {condition step : Option (LoxScript.Expr Unit)} {body : LoxScript.Stmt Unit}
    (hi : ∀ s ∈ initial, Nested.stmt s) (hc : Nested.optionalExpr condition)
    (hs : Nested.optionalExpr step) (hb : body.declares? = none ∧ Nested.stmt body) :
    Nested.stmt (.forLoop initial condition step body) := by
  have hcond : Nested.expr (condition.getD (.literal (.bool true))) := by
    cases condition with
    | none => trivial
    | some e => exact hc
  have hloop : Nested.stmt (.forLoop none condition step body) := by
    cases step with
    | none => exact ⟨hcond, hb⟩
    | some e => exact ⟨hcond, rfl, hb.2, hs, trivial⟩
  cases initial with
  | none => exact hloop
  | some s => exact ⟨hi s rfl, hloop, trivial⟩

mutual

theorem nested_expr : (e : Expr) → Proper.expr e → Nested.expr (core.expr e)
  | .literal _, _ => trivial
  | .grouping inner, hp => nested_expr inner hp
  | .unary _ _ operand, hp => nested_expr operand hp.2
  | .infixed left op line right, hp =>
    nested_node op line (nested_expr left hp.2.2.1) (nested_expr right hp.2.2.2)
  | .var _, _ => trivial
  | .assign _ .plain value, hp => nested_expr value hp
  | .assign _ (.compound _ _) value, hp => ⟨trivial, nested_expr value hp⟩
  | .call callee _ arguments, hp => ⟨nested_expr callee hp.2.2.1, nested_exprs arguments hp.2.2.2⟩
  | .get object _, hp => nested_expr object hp.2
  | .set object _ .plain value, hp => ⟨nested_expr object hp.2.1, nested_expr value hp.2.2⟩
  | .set object _ (.compound _ _) value, hp =>
    ⟨nested_expr object hp.2.1, nested_expr value hp.2.2⟩
  | .this _, _ => trivial
  | .super _ _, _ => trivial
  | .function _ body, hp => nested_code body hp

theorem nested_exprs : (es : List Expr) → Proper.exprs es → Nested.exprs (core.exprs es)
  | [], _ => trivial
  | e :: es, hp => ⟨nested_expr e hp.1, nested_exprs es hp.2⟩

theorem nested_optionalExpr : (o : Option Expr) → Proper.optionalExpr o →
    Nested.optionalExpr (core.optionalExpr o)
  | none, _ => trivial
  | some e, hp => nested_expr e hp

theorem nested_code : (c : Code) → Proper.code c → Nested.code (core.code c)
  | .mk _ body, hp => nested_stmts body hp.2

theorem nested_methods : (ms : List Method) → Proper.methods ms → Nested.methods (core.methods ms)
  | [], _ => trivial
  | .mk _ body :: ms, hp => ⟨nested_code body hp.1, nested_methods ms hp.2⟩

theorem nested_stmt : (s : Stmt) → Proper.stmt s → Nested.stmt (core.stmt s)
  | .expression e, hp => nested_expr e hp
  | .print e, hp => nested_expr e hp
  | .var _ initial, hp => nested_optionalExpr initial hp
  | .block body, hp => nested_stmts body hp
  | .branch condition yes no, hp => by
    obtain ⟨hc, hd, -, hy, hn⟩ := hp
    exact ⟨nested_expr condition hc, ⟨declares_core hd, nested_stmt yes hy⟩,
      nested_otherwise no hn⟩
  | .loop condition body, hp =>
    ⟨nested_expr condition hp.1, declares_core hp.2.1, nested_stmt body hp.2.2⟩
  | .function _ body, hp => nested_code body hp
  | .ret _ value, hp => nested_optionalExpr value hp
  | .classDef _ _ declared, hp => nested_methods declared hp
  | .forLoop initial condition step body, hp => by
    obtain ⟨hi, hc, hs, hd, hb⟩ := hp
    exact nested_forLoop (nested_initializer initial hi) (nested_optionalExpr condition hc)
      (nested_optionalExpr step hs) ⟨declares_core hd, nested_stmt body hb⟩

theorem nested_otherwise : (o : Option Stmt) → Proper.otherwise o →
    Nested.optionalStmt (core.optionalStmt o)
  | none, _ => trivial
  | some s, hp => ⟨declares_core hp.1, nested_stmt s hp.2⟩

theorem nested_initializer : (o : Option Stmt) → Proper.initializer o →
    ∀ s ∈ core.optionalStmt o, Nested.stmt s
  | none, _ => nofun
  | some s, hp => by
    intro s' hs'
    rw [← Option.mem_some_iff.1 hs']
    exact nested_stmt s hp.2

theorem nested_stmts : (ss : List Stmt) → Proper.stmts ss → Nested.stmts (core.stmts ss)
  | [], _ => trivial
  | s :: ss, hp => ⟨nested_stmt s hp.1, nested_stmts ss hp.2⟩

end

end Surface

theorem Grammar.program_nested {n : Nat} {ts : List Token} {P : List (Stmt Unit)}
    (h : program n ts = (P, [])) : Nested.stmts P := by
  obtain ⟨ss, rfl, hp, -⟩ := program_written h
  exact Surface.nested_stmts ss hp

end LoxScript
