import LoxScript.Proofs.Printed.Reads

/-!
Programs as they are written.

Reading replaces a `for` statement and a compound assignment to a variable by what they abbreviate.
A surface tree still has them, and a compound assignment to a property beside them.  It stands for
one way to write a program: `Printed` are its tokens, `Elaboration.core` is what they are read as,
and `Elaboration.full` has every abbreviation written out by hand.
-/

namespace LoxScript
namespace Surface

/-- How an assignment is written: with `=`, or with the symbol of an operation. -/
inductive Sign where
  | plain
  | compound (op : ArithOp) (line : Nat)
deriving Repr, DecidableEq

mutual

/-- Expressions, in which uses of names are not resolved. -/
inductive Expr : Type where
  | literal (value : Literal)
  | grouping (inner : Expr)
  | unary (op : UnaryOp) (line : Nat) (operand : Expr)
  | infixed (left : Expr) (op : Infix) (line : Nat) (right : Expr)
  | var (name : Name)
  | assign (name : Name) (sign : Sign) (value : Expr)
  | call (callee : Expr) (line : Nat) (arguments : List Expr)
  | get (object : Expr) (property : Name)
  | set (object : Expr) (property : Name) (sign : Sign) (value : Expr)
  | this (line : Nat)
  | super (line : Nat) (method : Name)
  | function (line : Nat) (code : Code)

inductive Code : Type where
  | mk (params : List Name) (body : List Stmt)

inductive Method : Type where
  | mk (name : Name) (code : Code)

inductive Stmt : Type where
  | expression (e : Expr)
  | print (e : Expr)
  | var (name : Name) (initial : Option Expr)
  | block (body : List Stmt)
  | branch (condition : Expr) (yes : Stmt) (no : Option Stmt)
  | loop (condition : Expr) (body : Stmt)
  | function (name : Name) (code : Code)
  | ret (line : Nat) (value : Option Expr)
  | classDef (name : Name) (parent : Option (Name × Unit)) (methods : List Method)
  | forLoop (initial : Option Stmt) (condition step : Option Expr) (body : Stmt)

end

/-! ### Doing without the abbreviations -/

/-- The sign that an assignment symbol on the given line is. -/
def Sign.ofSymbol (op : Option ArithOp) (line : Nat) : Sign :=
  match op with
  | none => plain
  | some op => compound op line

/-- What to put for assignments and `for` statements. -/
structure Elaboration where
  assign : Name → Sign → LoxScript.Expr Unit → LoxScript.Expr Unit
  set : LoxScript.Expr Unit → Name → Sign → LoxScript.Expr Unit → LoxScript.Expr Unit
  forLoop : Option (LoxScript.Stmt Unit) → Option (LoxScript.Expr Unit) →
    Option (LoxScript.Expr Unit) → LoxScript.Stmt Unit → LoxScript.Stmt Unit

namespace Elaboration

section
variable (E : Elaboration)

mutual

def expr : Expr → LoxScript.Expr Unit
  | .literal value => .literal value
  | .grouping inner => .grouping (expr inner)
  | .unary op line operand => .unary op line (expr operand)
  | .infixed left op line right => op.node (expr left) line (expr right)
  | .var x => .var x ()
  | .assign x sign value => E.assign x sign (expr value)
  | .call callee line arguments => .call (expr callee) line (exprs arguments)
  | .get object x => .get (expr object) x
  | .set object x sign value => E.set (expr object) x sign (expr value)
  | .this line => .this line ()
  | .super line x => .super line () x
  | .function line body => .function line (code body)

def exprs : List Expr → List (LoxScript.Expr Unit)
  | [] => []
  | e :: rest => expr e :: exprs rest

def optionalExpr : Option Expr → Option (LoxScript.Expr Unit)
  | none => none
  | some e => some (expr e)

def code : Code → LoxScript.Code Unit
  | .mk params body => .mk params (stmts body)

def methods : List Method → List (LoxScript.Method Unit)
  | [] => []
  | .mk x body :: rest => .mk x (code body) :: methods rest

def stmt : Stmt → LoxScript.Stmt Unit
  | .expression e => .expression (expr e)
  | .print e => .print (expr e)
  | .var x initial => .var x (optionalExpr initial)
  | .block body => .block (stmts body)
  | .branch condition yes no => .branch (expr condition) (stmt yes) (optionalStmt no)
  | .loop condition body => .loop (expr condition) (stmt body)
  | .function x body => .function x (code body)
  | .ret line value => .ret line (optionalExpr value)
  | .classDef x parent declared => .classDef x parent (methods declared)
  | .forLoop initial condition step body =>
    E.forLoop (optionalStmt initial) (optionalExpr condition) (optionalExpr step) (stmt body)

def optionalStmt : Option Stmt → Option (LoxScript.Stmt Unit)
  | none => none
  | some s => some (stmt s)

def stmts : List Stmt → List (LoxScript.Stmt Unit)
  | [] => []
  | s :: rest => stmt s :: stmts rest

end

end

/-! What reading puts. -/

def readAssign (x : Name) (sign : Sign) (value : LoxScript.Expr Unit) : LoxScript.Expr Unit :=
  match sign with
  | .plain => .assign x () value
  | .compound op line => .assign x () (.binary (.var x ()) (.arith op) line value)

def readSet (object : LoxScript.Expr Unit) (x : Name) (sign : Sign)
    (value : LoxScript.Expr Unit) : LoxScript.Expr Unit :=
  match sign with
  | .plain => .set object x value
  | .compound op line => .update object x op line value

/-- The program that is read. -/
def core : Elaboration := ⟨readAssign, readSet, LoxScript.Stmt.forLoop⟩

/-! What the abbreviations stand for. -/

/-- `x op= e` is `x = x op (e)`. -/
def fullAssign (x : Name) (sign : Sign) (value : LoxScript.Expr Unit) : LoxScript.Expr Unit :=
  match sign with
  | .plain => .assign x () value
  | .compound op line => .assign x () (.binary (.var x ()) (.arith op) line (.grouping value))

/-- A receiver that may as well be evaluated twice. -/
def isRepeatable {ρ : Type} : LoxScript.Expr ρ → Bool
  | .var _ _ | .this _ _ => true
  | _ => false

/-- `r.x op= e` is `r.x = r.x op (e)` if `r` is a variable or `this`. -/
def fullSet (object : LoxScript.Expr Unit) (x : Name) (sign : Sign)
    (value : LoxScript.Expr Unit) : LoxScript.Expr Unit :=
  match sign with
  | .plain => .set object x value
  | .compound op line =>
    if isRepeatable object then
      .set object x (.binary (.get object x) (.arith op) line (.grouping value))
    else
      .update object x op line value

/-- `while (c) { body step; }`, without braces if there is no step and with `true` for a missing
condition. -/
def whileLoop (condition step : Option (LoxScript.Expr Unit)) (body : LoxScript.Stmt Unit) :
    LoxScript.Stmt Unit :=
  let condition := condition.getD (.literal (.bool true))
  match step with
  | none => .loop condition body
  | some e => .loop condition (.block [body, .expression e])

/-- `{ initial while .. }`, without braces if there is no initializer. -/
def fullLoop (initial : Option (LoxScript.Stmt Unit))
    (condition step : Option (LoxScript.Expr Unit)) (body : LoxScript.Stmt Unit) :
    LoxScript.Stmt Unit :=
  match initial with
  | none => whileLoop condition step body
  | some s => .block [s, whileLoop condition step body]

/-- The program in which every abbreviation is written out. -/
def full : Elaboration := ⟨fullAssign, fullSet, fullLoop⟩

theorem fullLoop_eq (initial : Option (LoxScript.Stmt Unit))
    (condition step : Option (LoxScript.Expr Unit)) (body : LoxScript.Stmt Unit) :
    fullLoop initial condition step body = .forLoop initial condition step body := by
  cases initial <;> cases step <;> rfl

end Elaboration

/-! ### Trees that the grammar allows -/

def Expr.strength : Expr → Nat
  | assign _ _ _ | set _ _ _ _ => 1
  | infixed _ op _ _ => op.level.strength
  | unary _ _ _ => 8
  | call _ _ _ | get _ _ => 9
  | _ => 10

namespace Stmt

/-- Statements that could go on with an `else`. -/
def endsOpen : Stmt → Bool
  | branch _ _ none => true
  | branch _ _ (some no) => no.endsOpen
  | loop _ body | forLoop _ _ _ body => body.endsOpen
  | _ => false

def declares : Stmt → Bool
  | var _ _ | function _ _ | classDef _ _ _ => true
  | _ => false

/-- Statements that a `for` may start with. -/
def isInitial : Stmt → Bool
  | var _ _ | expression _ => true
  | _ => false

end Stmt

namespace Proper

mutual

def expr : Expr → Prop
  | .grouping inner => expr inner
  | .unary _ _ operand => 8 ≤ operand.strength ∧ expr operand
  | .infixed left op _ right =>
    op.level.strength ≤ left.strength ∧ op.level.strength < right.strength ∧ expr left ∧ expr right
  | .assign _ _ value => expr value
  | .call callee _ arguments =>
    9 ≤ callee.strength ∧ arguments.length ≤ Mistake.maxArguments ∧ expr callee ∧ exprs arguments
  | .get object _ => 9 ≤ object.strength ∧ expr object
  | .set object _ _ value => 9 ≤ object.strength ∧ expr object ∧ expr value
  | .function _ body => code body
  | _ => True

def exprs : List Expr → Prop
  | [] => True
  | e :: rest => expr e ∧ exprs rest

def optionalExpr : Option Expr → Prop
  | none => True
  | some e => expr e

def code : Code → Prop
  | .mk params body => params.length ≤ Mistake.maxArguments ∧ stmts body

def methods : List Method → Prop
  | [] => True
  | .mk _ body :: rest => code body ∧ methods rest

def stmt : Stmt → Prop
  | .expression e => expr e
  | .print e => expr e
  | .var _ initial => optionalExpr initial
  | .block body => stmts body
  | .branch condition yes no =>
    expr condition ∧ yes.declares = false ∧ (no.isSome → yes.endsOpen = false) ∧ stmt yes ∧
      otherwise no
  | .loop condition body => expr condition ∧ body.declares = false ∧ stmt body
  | .function _ body => code body
  | .ret _ value => optionalExpr value
  | .classDef _ _ declared => methods declared
  | .forLoop initial condition step body =>
    initializer initial ∧ optionalExpr condition ∧ optionalExpr step ∧ body.declares = false ∧
      stmt body

def otherwise : Option Stmt → Prop
  | none => True
  | some s => s.declares = false ∧ stmt s

def initializer : Option Stmt → Prop
  | none => True
  | some s => s.isInitial = true ∧ stmt s

def stmts : List Stmt → Prop
  | [] => True
  | s :: rest => stmt s ∧ stmts rest

end

end Proper

/-! ### Writing a tree out -/

namespace Printed

def sign (L : Layout) (s : Sign) (rest : List Token) : List Token :=
  match s with
  | .plain => L.symbol .equal rest
  | .compound op line => ⟨.symbol op.assignment, line⟩ :: rest

section
variable (L : Layout)

mutual

/-- An expression in front of other tokens. -/
def expr : Expr → List Token → List Token
  | .literal l, rest => L.literal l rest
  | .grouping inner, rest => L.symbol .leftParen (expr inner (L.symbol .rightParen rest))
  | .unary op line operand, rest => ⟨.symbol op.symbol, line⟩ :: expr operand rest
  | .infixed left op line right, rest => expr left (⟨op.kind, line⟩ :: expr right rest)
  | .var x, rest => x.token :: rest
  | .assign x s value, rest => x.token :: sign L s (expr value rest)
  | .call callee line arguments, rest =>
    expr callee (L.symbol .leftParen (exprs arguments (⟨.symbol .rightParen, line⟩ :: rest)))
  | .get object x, rest => expr object (L.symbol .dot (x.token :: rest))
  | .set object x s value, rest =>
    expr object (L.symbol .dot (x.token :: sign L s (expr value rest)))
  | .this line, rest => ⟨.keyword .this_, line⟩ :: rest
  | .super line x, rest => ⟨.keyword .super_, line⟩ :: L.symbol .dot (x.token :: rest)
  | .function line body, rest => ⟨.keyword .fun_, line⟩ :: code body rest

def exprs : List Expr → List Token → List Token
  | [], rest => rest
  | e :: es, rest => expr e (moreExprs es rest)

def moreExprs : List Expr → List Token → List Token
  | [], rest => rest
  | e :: es, rest => L.symbol .comma (expr e (moreExprs es rest))

def optionalExpr : Option Expr → List Token → List Token
  | none, rest => rest
  | some e, rest => expr e rest

def initial : Option Expr → List Token → List Token
  | none, rest => rest
  | some e, rest => L.symbol .equal (expr e rest)

def code : Code → List Token → List Token
  | .mk params body, rest =>
    L.symbol .leftParen (L.parameters params (L.symbol .rightParen (L.symbol .leftBrace
      (stmts body (L.symbol .rightBrace rest)))))

def methods : List Method → List Token → List Token
  | [], rest => rest
  | .mk x body :: ms, rest => x.token :: code body (methods ms rest)

def stmt : Stmt → List Token → List Token
  | .expression e, rest => expr e (L.symbol .semicolon rest)
  | .print e, rest => L.keyword .print_ (expr e (L.symbol .semicolon rest))
  | .var x value, rest => L.keyword .var_ (x.token :: initial value (L.symbol .semicolon rest))
  | .block body, rest => L.symbol .leftBrace (stmts body (L.symbol .rightBrace rest))
  | .branch condition yes no, rest =>
    L.keyword .if_ (L.symbol .leftParen (expr condition (L.symbol .rightParen
      (stmt yes (otherwise no rest)))))
  | .loop condition body, rest =>
    L.keyword .while_ (L.symbol .leftParen (expr condition (L.symbol .rightParen
      (stmt body rest))))
  | .function x body, rest => L.keyword .fun_ (x.token :: code body rest)
  | .ret line value, rest =>
    ⟨.keyword .return_, line⟩ :: optionalExpr value (L.symbol .semicolon rest)
  | .classDef x parent declared, rest =>
    L.keyword .class_ (x.token :: L.superclass parent (L.symbol .leftBrace
      (methods declared (L.symbol .rightBrace rest))))
  | .forLoop start condition step body, rest =>
    L.keyword .for_ (L.symbol .leftParen (initializer start (optionalExpr condition
      (L.symbol .semicolon (optionalExpr step (L.symbol .rightParen (stmt body rest)))))))

def otherwise : Option Stmt → List Token → List Token
  | none, rest => rest
  | some s, rest => L.keyword .else_ (stmt s rest)

/-- What a `for` starts with, and the semicolon behind it. -/
def initializer : Option Stmt → List Token → List Token
  | none, rest => L.symbol .semicolon rest
  | some s, rest => stmt s rest

def stmts : List Stmt → List Token → List Token
  | [], rest => rest
  | s :: ss, rest => stmt s (stmts ss rest)

end

end

end Printed

/-! ### What is written stands in front of the rest -/

section
variable (L : Layout)

theorem suffix_symbol (s : Symbol) {ts rest : List Token} (h : rest <:+ ts) :
    rest <:+ L.symbol s ts :=
  h.trans (List.suffix_cons _ ts)

theorem suffix_keyword (k : Keyword) {ts rest : List Token} (h : rest <:+ ts) :
    rest <:+ L.keyword k ts :=
  h.trans (List.suffix_cons _ ts)

theorem suffix_cons (t : Token) {ts rest : List Token} (h : rest <:+ ts) : rest <:+ t :: ts :=
  h.trans (List.suffix_cons t ts)

theorem suffix_literal (l : Literal) (rest : List Token) : rest <:+ L.literal l rest := by
  cases l with
  | bool b => cases b <;> exact List.suffix_cons _ rest
  | _ => exact List.suffix_cons _ rest

theorem suffix_sign (s : Sign) {ts rest : List Token} (h : rest <:+ ts) :
    rest <:+ Printed.sign L s ts := by
  cases s with
  | plain => exact suffix_symbol L .equal h
  | compound op line => exact suffix_cons _ h

theorem suffix_moreParameters (xs : List Name) (rest : List Token) :
    rest <:+ L.moreParameters xs rest := by
  induction xs with
  | nil => exact List.suffix_refl rest
  | cons x xs ih => exact suffix_symbol L .comma (suffix_cons x.token ih)

theorem suffix_parameters (xs : List Name) {ts rest : List Token} (h : rest <:+ ts) :
    rest <:+ L.parameters xs ts := by
  cases xs with
  | nil => exact h
  | cons x xs => exact suffix_cons x.token (h.trans (suffix_moreParameters L xs ts))

theorem suffix_superclass (parent : Option (Name × Unit)) {ts rest : List Token}
    (h : rest <:+ ts) : rest <:+ L.superclass parent ts := by
  cases parent with
  | none => exact h
  | some p => exact suffix_symbol L .less (suffix_cons p.1.token h)

mutual

theorem suffix_expr : (e : Expr) → {ts rest : List Token} → rest <:+ ts →
    rest <:+ Printed.expr L e ts
  | .literal l, ts, _, h => h.trans (suffix_literal L l ts)
  | .grouping inner, _, _, h =>
    suffix_symbol L .leftParen (suffix_expr inner (suffix_symbol L .rightParen h))
  | .unary _ _ operand, _, _, h => suffix_cons _ (suffix_expr operand h)
  | .infixed left _ _ right, _, _, h => suffix_expr left (suffix_cons _ (suffix_expr right h))
  | .var x, _, _, h => suffix_cons x.token h
  | .assign x s value, _, _, h => suffix_cons x.token (suffix_sign L s (suffix_expr value h))
  | .call callee _ arguments, _, _, h =>
    suffix_expr callee (suffix_symbol L .leftParen (suffix_exprs arguments (suffix_cons _ h)))
  | .get object x, _, _, h => suffix_expr object (suffix_symbol L .dot (suffix_cons x.token h))
  | .set object x s value, _, _, h =>
    suffix_expr object (suffix_symbol L .dot (suffix_cons x.token
      (suffix_sign L s (suffix_expr value h))))
  | .this _, _, _, h => suffix_cons _ h
  | .super _ x, _, _, h => suffix_cons _ (suffix_symbol L .dot (suffix_cons x.token h))
  | .function _ body, _, _, h => suffix_cons _ (suffix_code body h)

theorem suffix_exprs : (es : List Expr) → {ts rest : List Token} → rest <:+ ts →
    rest <:+ Printed.exprs L es ts
  | [], _, _, h => h
  | e :: es, _, _, h => suffix_expr e (suffix_moreExprs es h)

theorem suffix_moreExprs : (es : List Expr) → {ts rest : List Token} → rest <:+ ts →
    rest <:+ Printed.moreExprs L es ts
  | [], _, _, h => h
  | e :: es, _, _, h => suffix_symbol L .comma (suffix_expr e (suffix_moreExprs es h))

theorem suffix_optionalExpr : (o : Option Expr) → {ts rest : List Token} → rest <:+ ts →
    rest <:+ Printed.optionalExpr L o ts
  | none, _, _, h => h
  | some e, _, _, h => suffix_expr e h

theorem suffix_initial : (o : Option Expr) → {ts rest : List Token} → rest <:+ ts →
    rest <:+ Printed.initial L o ts
  | none, _, _, h => h
  | some e, _, _, h => suffix_symbol L .equal (suffix_expr e h)

theorem suffix_code : (c : Code) → {ts rest : List Token} → rest <:+ ts →
    rest <:+ Printed.code L c ts
  | .mk params body, _, _, h =>
    suffix_symbol L .leftParen (suffix_parameters L params (suffix_symbol L .rightParen
      (suffix_symbol L .leftBrace (suffix_stmts body (suffix_symbol L .rightBrace h)))))

theorem suffix_methods : (ms : List Method) → {ts rest : List Token} → rest <:+ ts →
    rest <:+ Printed.methods L ms ts
  | [], _, _, h => h
  | .mk x body :: ms, _, _, h => suffix_cons x.token (suffix_code body (suffix_methods ms h))

theorem suffix_stmt : (s : Stmt) → {ts rest : List Token} → rest <:+ ts →
    rest <:+ Printed.stmt L s ts
  | .expression e, _, _, h => suffix_expr e (suffix_symbol L .semicolon h)
  | .print e, _, _, h => suffix_keyword L .print_ (suffix_expr e (suffix_symbol L .semicolon h))
  | .var x value, _, _, h =>
    suffix_keyword L .var_ (suffix_cons x.token
      (suffix_initial value (suffix_symbol L .semicolon h)))
  | .block body, _, _, h =>
    suffix_symbol L .leftBrace (suffix_stmts body (suffix_symbol L .rightBrace h))
  | .branch condition yes no, _, _, h =>
    suffix_keyword L .if_ (suffix_symbol L .leftParen (suffix_expr condition
      (suffix_symbol L .rightParen (suffix_stmt yes (suffix_otherwise no h)))))
  | .loop condition body, _, _, h =>
    suffix_keyword L .while_ (suffix_symbol L .leftParen (suffix_expr condition
      (suffix_symbol L .rightParen (suffix_stmt body h))))
  | .function x body, _, _, h => suffix_keyword L .fun_ (suffix_cons x.token (suffix_code body h))
  | .ret _ value, _, _, h =>
    suffix_cons _ (suffix_optionalExpr value (suffix_symbol L .semicolon h))
  | .classDef x parent declared, _, _, h =>
    suffix_keyword L .class_ (suffix_cons x.token (suffix_superclass L parent
      (suffix_symbol L .leftBrace (suffix_methods declared (suffix_symbol L .rightBrace h)))))
  | .forLoop initial condition step body, _, _, h =>
    suffix_keyword L .for_ (suffix_symbol L .leftParen (suffix_initializer initial
      (suffix_optionalExpr condition (suffix_symbol L .semicolon (suffix_optionalExpr step
        (suffix_symbol L .rightParen (suffix_stmt body h)))))))

theorem suffix_otherwise : (o : Option Stmt) → {ts rest : List Token} → rest <:+ ts →
    rest <:+ Printed.otherwise L o ts
  | none, _, _, h => h
  | some s, _, _, h => suffix_keyword L .else_ (suffix_stmt s h)

theorem suffix_initializer : (o : Option Stmt) → {ts rest : List Token} → rest <:+ ts →
    rest <:+ Printed.initializer L o ts
  | none, _, _, h => suffix_symbol L .semicolon h
  | some s, _, _, h => suffix_stmt s h

theorem suffix_stmts : (ss : List Stmt) → {ts rest : List Token} → rest <:+ ts →
    rest <:+ Printed.stmts L ss ts
  | [], _, _, h => h
  | s :: ss, _, _, h => suffix_stmt s (suffix_stmts ss h)

end

end

end Surface
end LoxScript
