import LoxScript.Token

/-!
Programs as trees.

The trees are indexed by what is known of each use of a name: `Expr Unit` after reading, and
`Expr (Option Nat)` once every use carries the number of scopes between it and its declaration, or
`none` if the name is global.  Operators, names and the other places that a complaint or a failure
may point to keep the line of their token, nothing else of it.
-/

namespace LoxScript

/-- A name, and the line on which it is written. -/
structure Name where
  text : String
  line : Nat
deriving Repr, DecidableEq, Inhabited

def Name.token (n : Name) : Token := ⟨.identifier n.text, n.line⟩

inductive ArithOp where
  | add | subtract | multiply | divide
deriving Repr, DecidableEq, Inhabited

inductive OrderOp where
  | greater | greaterEqual | less | lessEqual
deriving Repr, DecidableEq, Inhabited

/-- Operators that evaluate both operands. -/
inductive BinaryOp where
  | arith (op : ArithOp)
  | order (op : OrderOp)
  | equal
  | notEqual
deriving Repr, DecidableEq, Inhabited

/-- Operators that may leave their right operand alone. -/
inductive LogicalOp where
  | and | or
deriving Repr, DecidableEq, Inhabited

inductive UnaryOp where
  | not | negate
deriving Repr, DecidableEq, Inhabited

def ArithOp.symbol : ArithOp → Symbol
  | add => .plus
  | subtract => .minus
  | multiply => .star
  | divide => .slash

def OrderOp.symbol : OrderOp → Symbol
  | greater => .greater
  | greaterEqual => .greaterEqual
  | less => .less
  | lessEqual => .lessEqual

def BinaryOp.symbol : BinaryOp → Symbol
  | arith op => op.symbol
  | order op => op.symbol
  | equal => .equalEqual
  | notEqual => .bangEqual

def LogicalOp.keyword : LogicalOp → Keyword
  | and => .and_
  | or => .or_

def UnaryOp.symbol : UnaryOp → Symbol
  | not => .bang
  | negate => .minus

/-- A value written out in the program. -/
inductive Literal where
  | nil
  | bool (b : Bool)
  | number (x : Float)
  | string (s : String)
deriving DecidableEq, Inhabited

mutual

/-- Expressions.  A `ref` belongs to a use of the name beside it. -/
inductive Expr (ρ : Type) : Type where
  | literal (value : Literal)
  | grouping (inner : Expr ρ)
  | unary (op : UnaryOp) (line : Nat) (operand : Expr ρ)
  | binary (left : Expr ρ) (op : BinaryOp) (line : Nat) (right : Expr ρ)
  | logical (left : Expr ρ) (op : LogicalOp) (line : Nat) (right : Expr ρ)
  | var (name : Name) (ref : ρ)
  | assign (name : Name) (ref : ρ) (value : Expr ρ)
  /-- A call; the line is that of the closing parenthesis. -/
  | call (callee : Expr ρ) (line : Nat) (arguments : List (Expr ρ))
  | get (object : Expr ρ) (property : Name)
  | set (object : Expr ρ) (property : Name) (value : Expr ρ)
  /-- `object.property op= value`, which evaluates the object once. -/
  | update (object : Expr ρ) (property : Name) (op : ArithOp) (line : Nat) (value : Expr ρ)
  | this (line : Nat) (ref : ρ)
  | super (line : Nat) (ref : ρ) (method : Name)
  | function (line : Nat) (code : Code ρ)

/-- The parameters and the body of a function. -/
inductive Code (ρ : Type) : Type where
  | mk (params : List Name) (body : List (Stmt ρ))

inductive Method (ρ : Type) : Type where
  | mk (name : Name) (code : Code ρ)

inductive Stmt (ρ : Type) : Type where
  | expression (e : Expr ρ)
  | print (e : Expr ρ)
  | var (name : Name) (initial : Option (Expr ρ))
  | block (body : List (Stmt ρ))
  | branch (condition : Expr ρ) (yes : Stmt ρ) (no : Option (Stmt ρ))
  | loop (condition : Expr ρ) (body : Stmt ρ)
  | function (name : Name) (code : Code ρ)
  | ret (line : Nat) (value : Option (Expr ρ))
  | classDef (name : Name) (parent : Option (Name × ρ)) (methods : List (Method ρ))

end

namespace Code
variable {ρ : Type}

def params : Code ρ → List Name
  | mk params _ => params

def body : Code ρ → List (Stmt ρ)
  | mk _ body => body

end Code

namespace Method
variable {ρ : Type}

def name : Method ρ → Name
  | mk name _ => name

def code : Method ρ → Code ρ
  | mk _ code => code

end Method

instance {ρ : Type} : Inhabited (Expr ρ) := ⟨.literal .nil⟩
instance {ρ : Type} : Inhabited (Code ρ) := ⟨.mk [] []⟩
instance {ρ : Type} : Inhabited (Stmt ρ) := ⟨.block []⟩

end LoxScript
