import LoxScript.Number.Display
import LoxScript.Syntax
import LoxScript.Text.Quoted

/-!
Programs as indented outlines.

Every statement and every expression has one line, and its parts follow it one step further in.  The
second branch of a conditional is announced by a line of its own at the depth of the conditional; a
superclass stands in the line of its class.
-/

namespace LoxScript

/-- A line of an outline, and how many steps it is indented. -/
structure OutlineLine where
  depth : Nat
  text : String
deriving Repr, DecidableEq, Inhabited

namespace OutlineLine

def render (l : OutlineLine) : String :=
  String.join (List.replicate l.depth "  ") ++ l.text ++ "\n"

end OutlineLine

namespace Literal

def outline : Literal → String
  | nil => "nil"
  | bool true => "true"
  | bool false => "false"
  | number x => Number.display x
  | string s => quoted s

end Literal

namespace Outline
variable {ρ : Type}

def nameList (names : List Name) : String :=
  ", ".intercalate (names.map (·.text))

mutual

def ofExpr (depth : Nat) : Expr ρ → List OutlineLine
  | .literal value => [⟨depth, "Literal(" ++ value.outline ++ ")"⟩]
  | .grouping inner => ⟨depth, "Grouping"⟩ :: ofExpr (depth + 1) inner
  | .unary op _ operand => ⟨depth, "Unary " ++ op.symbol.text⟩ :: ofExpr (depth + 1) operand
  | .binary left op _ right =>
    ⟨depth, "Binary " ++ op.symbol.text⟩ :: (ofExpr (depth + 1) left ++ ofExpr (depth + 1) right)
  | .logical left op _ right =>
    ⟨depth, "Logical " ++ op.keyword.text⟩ :: (ofExpr (depth + 1) left ++ ofExpr (depth + 1) right)
  | .var name _ => [⟨depth, "Variable " ++ name.text⟩]
  | .assign name _ value => ⟨depth, "Assign " ++ name.text⟩ :: ofExpr (depth + 1) value
  | .call callee _ arguments =>
    ⟨depth, "Call"⟩ :: (ofExpr (depth + 1) callee ++ ofExprs (depth + 1) arguments)
  | .get object property => ⟨depth, "Get ." ++ property.text⟩ :: ofExpr (depth + 1) object
  | .set object property value =>
    ⟨depth, "Set ." ++ property.text⟩ :: (ofExpr (depth + 1) object ++ ofExpr (depth + 1) value)
  | .update object property op _ value =>
    ⟨depth, "Set ." ++ property.text ++ " " ++ op.symbol.text ++ "="⟩ ::
      (ofExpr (depth + 1) object ++ ofExpr (depth + 1) value)
  | .this _ _ => [⟨depth, "This"⟩]
  | .super _ _ method => [⟨depth, "Super ." ++ method.text⟩]
  | .function _ code => ofCode depth "FunctionExpr" code

def ofExprs (depth : Nat) : List (Expr ρ) → List OutlineLine
  | [] => []
  | e :: rest => ofExpr depth e ++ ofExprs depth rest

def ofOptionalExpr (depth : Nat) : Option (Expr ρ) → List OutlineLine
  | none => []
  | some e => ofExpr depth e

/-- A function under the given heading, to which its parameters are added. -/
def ofCode (depth : Nat) (heading : String) : Code ρ → List OutlineLine
  | .mk params body => ⟨depth, heading ++ "(" ++ nameList params ++ ")"⟩ :: ofStmts (depth + 1) body

def ofMethods (depth : Nat) : List (Method ρ) → List OutlineLine
  | [] => []
  | .mk name code :: rest => ofCode depth ("Function " ++ name.text) code ++ ofMethods depth rest

def ofStmt (depth : Nat) : Stmt ρ → List OutlineLine
  | .expression e => ⟨depth, "ExprStmt"⟩ :: ofExpr (depth + 1) e
  | .print e => ⟨depth, "Print"⟩ :: ofExpr (depth + 1) e
  | .var name initial => ⟨depth, "Var " ++ name.text⟩ :: ofOptionalExpr (depth + 1) initial
  | .block body => ⟨depth, "Block"⟩ :: ofStmts (depth + 1) body
  | .branch condition yes no =>
    ⟨depth, "If"⟩ :: (ofExpr (depth + 1) condition ++ ofStmt (depth + 1) yes ++ ofElse depth no)
  | .loop condition body =>
    ⟨depth, "While"⟩ :: (ofExpr (depth + 1) condition ++ ofStmt (depth + 1) body)
  | .function name code => ofCode depth ("Function " ++ name.text) code
  | .ret _ value => ⟨depth, "Return"⟩ :: ofOptionalExpr (depth + 1) value
  | .classDef name parent methods =>
    let heading := match parent with
      | none => "Class " ++ name.text
      | some (parent, _) => "Class " ++ name.text ++ " < " ++ parent.text
    ⟨depth, heading⟩ :: ofMethods (depth + 1) methods

def ofElse (depth : Nat) : Option (Stmt ρ) → List OutlineLine
  | none => []
  | some s => ⟨depth, "Else"⟩ :: ofStmt (depth + 1) s

def ofStmts (depth : Nat) : List (Stmt ρ) → List OutlineLine
  | [] => []
  | s :: rest => ofStmt depth s ++ ofStmts depth rest

end

/-- The outline of a whole program. -/
def ofProgram (statements : List (Stmt ρ)) : List OutlineLine :=
  ⟨0, "Program"⟩ :: ofStmts 1 statements

def render (lines : List OutlineLine) : String :=
  String.join (lines.map (·.render))

end Outline
end LoxScript
