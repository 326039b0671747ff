import LoxScript.Binding.LocalScope
import LoxScript.Grammar.Parse

/-!
Programs written out as tokens.

A tree is written without any parentheses but those of its groupings.  The trees for which that is
enough are canonical: no operator has an operand that binds more loosely than it takes.
-/

namespace LoxScript

/-! ### How tightly an expression binds -/

def Level.strength : Level → Nat
  | or => 2
  | and => 3
  | equality => 4
  | comparison => 5
  | term => 6
  | factor => 7

/-- From assignments, which bind most loosely, to what cannot be taken apart. -/
def Expr.strength {ρ : Type} : Expr ρ → Nat
  | assign _ _ _ | set _ _ _ | update _ _ _ _ _ => 1
  | logical _ op _ _ => (Infix.logical op).level.strength
  | binary _ op _ _ => (Infix.binary op).level.strength
  | unary _ _ _ => 8
  | call _ _ _ | get _ _ => 9
  | _ => 10

/-- Statements that could go on with an `else`. -/
def Stmt.endsOpen {ρ : Type} : Stmt ρ → Bool
  | branch _ _ none => true
  | branch _ _ (some no) => no.endsOpen
  | loop _ body => body.endsOpen
  | _ => false

namespace Canonical

mutual

def expr : Expr Unit → Prop
  | .grouping inner => expr inner
  | .unary _ _ operand => 8 ≤ operand.strength ∧ expr operand
  | .binary left op _ right =>
    (Infix.binary op).level.strength ≤ left.strength ∧
      (Infix.binary op).level.strength < right.strength ∧ expr left ∧ expr right
  | .logical left op _ right =>
    (Infix.logical op).level.strength ≤ left.strength ∧
      (Infix.logical op).level.strength < right.strength ∧ expr left ∧ expr right
  | .assign _ _ value => expr value
  | .call callee _ arguments =>
    9 ≤ callee.strength ∧ arguments.length ≤ Mistake.maxArguments ∧ expr callee ∧ exprs arguments
  | .get object _ => 9 ≤ object.strength ∧ expr object
  | .set object _ value => 9 ≤ object.strength ∧ expr object ∧ expr value
  | .update object _ _ _ value => 9 ≤ object.strength ∧ expr object ∧ expr value
  | .function _ body => code body
  | _ => True

def exprs : List (Expr Unit) → Prop
  | [] => True
  | e :: rest => expr e ∧ exprs rest

def optionalExpr : Option (Expr Unit) → Prop
  | none => True
  | some e => expr e

def code : Code Unit → Prop
  | .mk params body => params.length ≤ Mistake.maxArguments ∧ stmts body

def methods : List (Method Unit) → Prop
  | [] => True
  | .mk _ body :: rest => code body ∧ methods rest

/-- Only statements that declare nothing may be branches and bodies of loops, and the first of two
branches may not take the `else` for itself. -/
def stmt : Stmt Unit → Prop
  | .expression e => expr e
  | .print e => expr e
  | .var _ initial => optionalExpr initial
  | .block body => stmts body
  | .branch condition yes no =>
    expr condition ∧ yes.declares? = none ∧ (no.isSome → yes.endsOpen = false) ∧ stmt yes ∧
      optionalStmt no
  | .loop condition body => expr condition ∧ body.declares? = none ∧ stmt body
  | .function _ body => code body
  | .ret _ value => optionalExpr value
  | .classDef _ _ declared => methods declared

def optionalStmt : Option (Stmt Unit) → Prop
  | none => True
  | some s => s.declares? = none ∧ stmt s

def stmts : List (Stmt Unit) → Prop
  | [] => True
  | s :: rest => stmt s ∧ stmts rest

end

end Canonical

/-! ### Writing a tree out -/

/-- The symbol that assigns the outcome of an operation. -/
def ArithOp.assignment : ArithOp → Symbol
  | add => .plusEqual
  | subtract => .minusEqual
  | multiply => .starEqual
  | divide => .slashEqual

/-- What a tree leaves open: the lines of the tokens that it keeps no line of, and the spelling of
its numbers.  Both may depend on the tokens behind. -/
structure Layout where
  line : List Token → Nat
  numeral : Float → List Token → String

namespace Layout
variable (L : Layout)

def symbol (s : Symbol) (rest : List Token) : List Token := ⟨.symbol s, L.line rest⟩ :: rest

def keyword (k : Keyword) (rest : List Token) : List Token := ⟨.keyword k, L.line rest⟩ :: rest

/-- A literal in front of other tokens. -/
def literal (l : Literal) (rest : List Token) : List Token :=
  match l with
  | .nil => L.keyword .nil_ rest
  | .bool true => L.keyword .true_ rest
  | .bool false => L.keyword .false_ rest
  | .number x => ⟨.number (L.numeral x rest) x, L.line rest⟩ :: rest
  | .string s => ⟨.string s, L.line rest⟩ :: rest

/-- Names, each after a comma. -/
def moreParameters : List Name → List Token → List Token
  | [], rest => rest
  | x :: xs, rest => L.symbol .comma (x.token :: moreParameters xs rest)

def parameters : List Name → List Token → List Token
  | [], rest => rest
  | x :: xs, rest => x.token :: L.moreParameters xs rest

def superclass : Option (Name × Unit) → List Token → List Token
  | none, rest => rest
  | some (x, _), rest => L.symbol .less (x.token :: rest)

mutual

/-- An expression in front of other tokens. -/
def expr : Expr Unit → List Token → List Token
  | .literal l, rest => L.literal l rest
  | .grouping inner, rest => L.symbol .leftParen (expr inner (L.symbol .rightParen rest))
  | .unary op line operand, rest => ⟨.symbol op.symbol, line⟩ :: expr operand rest
  | .binary left op line right, rest => expr left (⟨.symbol op.symbol, line⟩ :: expr right rest)
  | .logical left op line right, rest => expr left (⟨.keyword op.keyword, line⟩ :: expr right rest)
  | .var x _, rest => x.token :: rest
  | .assign x _ value, rest => x.token :: L.symbol .equal (expr value rest)
  | .call callee line arguments, rest =>
    expr callee (L.symbol .leftParen (exprs arguments (⟨.symbol .rightParen, line⟩ :: rest)))
  | .get object x, rest => expr object (L.symbol .dot (x.token :: rest))
  | .set object x value, rest =>
    expr object (L.symbol .dot (x.token :: L.symbol .equal (expr value rest)))
  | .update object x op line value, rest =>
    expr object (L.symbol .dot (x.token :: ⟨.symbol op.assignment, line⟩ :: expr value rest))
  | .this line _, rest => ⟨.keyword .this_, line⟩ :: rest
  | .super line _ x, rest => ⟨.keyword .super_, line⟩ :: L.symbol .dot (x.token :: rest)
  | .function line body, rest => ⟨.keyword .fun_, line⟩ :: code body rest

/-- Arguments. -/
def exprs : List (Expr Unit) → List Token → List Token
  | [], rest => rest
  | e :: es, rest => expr e (moreExprs es rest)

/-- Arguments, each after a comma. -/
def moreExprs : List (Expr Unit) → List Token → List Token
  | [], rest => rest
  | e :: es, rest => L.symbol .comma (expr e (moreExprs es rest))

def optionalExpr : Option (Expr Unit) → List Token → List Token
  | none, rest => rest
  | some e, rest => expr e rest

/-- The initial value of a variable. -/
def initial : Option (Expr Unit) → List Token → List Token
  | none, rest => rest
  | some e, rest => L.symbol .equal (expr e rest)

def code : Code Unit → List Token → List Token
  | .mk params body, rest =>
    L.symbol .leftParen (L.parameters params (L.symbol .rightParen (L.symbol .leftBrace
      (stmts body (L.symbol .rightBrace rest)))))

def methods : List (Method Unit) → List Token → List Token
  | [], rest => rest
  | .mk x body :: ms, rest => x.token :: code body (methods ms rest)

def stmt : Stmt Unit → List Token → List Token
  | .expression e, rest => expr e (L.symbol .semicolon rest)
  | .print e, rest => L.keyword .print_ (expr e (L.symbol .semicolon rest))
  | .var x value, rest => L.keyword .var_ (x.token :: initial value (L.symbol .semicolon rest))
  | .block body, rest => L.symbol .leftBrace (stmts body (L.symbol .rightBrace rest))
  | .branch condition yes no, rest =>
    L.keyword .if_ (L.symbol .leftParen (expr condition (L.symbol .rightParen
      (stmt yes (otherwise no rest)))))
  | .loop condition body, rest =>
    L.keyword .while_ (L.symbol .leftParen (expr condition (L.symbol .rightParen
      (stmt body rest))))
  | .function x body, rest => L.keyword .fun_ (x.token :: code body rest)
  | .ret line value, rest =>
    ⟨.keyword .return_, line⟩ :: optionalExpr value (L.symbol .semicolon rest)
  | .classDef x parent declared, rest =>
    L.keyword .class_ (x.token :: L.superclass parent (L.symbol .leftBrace
      (methods declared (L.symbol .rightBrace rest))))

/-- The second branch of an `if`. -/
def otherwise : Option (Stmt Unit) → List Token → List Token
  | none, rest => rest
  | some s, rest => L.keyword .else_ (stmt s rest)

def stmts : List (Stmt Unit) → List Token → List Token
  | [], rest => rest
  | s :: ss, rest => stmt s (stmts ss rest)

end

end Layout
end LoxScript
