import LoxScript.Syntax

/-!
How tightly operators bind.
-/

namespace LoxScript

/-- Classes of operators that associate to the left, from the loosest to the tightest. -/
inductive Level where
  | or | and | equality | comparison | term | factor
deriving Repr, DecidableEq, Inhabited

/-- An operator between two operands. -/
inductive Infix where
  | binary (op : BinaryOp)
  | logical (op : LogicalOp)
deriving Repr, DecidableEq, Inhabited

namespace Level

/-- The next level, to which the operands of this one belong; the operands of factors are unary. -/
def tighter? : Level → Option Level
  | or => some and
  | and => some equality
  | equality => some comparison
  | comparison => some term
  | term => some factor
  | factor => none

/-- How many levels there are from this one to the tightest, this one included. -/
def height : Level → Nat
  | or => 6
  | and => 5
  | equality => 4
  | comparison => 3
  | term => 2
  | factor => 1

theorem height_tighter {l t : Level} (h : l.tighter? = some t) : t.height < l.height := by
  cases l <;> simp [tighter?] at h <;> subst h <;> decide

theorem height_pos (l : Level) : 0 < l.height := by cases l <;> decide

theorem height_le (l : Level) : l.height ≤ 6 := by cases l <;> decide

end Level

namespace Infix
variable {ρ : Type}

def node (op : Infix) (left : Expr ρ) (line : Nat) (right : Expr ρ) : Expr ρ :=
  match op with
  | binary op => .binary left op line right
  | logical op => .logical left op line right

def level : Infix → Level
  | logical .or => .or
  | logical .and => .and
  | binary .equal | binary .notEqual => .equality
  | binary (.order _) => .comparison
  | binary (.arith .add) | binary (.arith .subtract) => .term
  | binary (.arith .multiply) | binary (.arith .divide) => .factor

def ofKind? : TokenKind → Option Infix
  | .keyword .or_ => some (logical .or)
  | .keyword .and_ => some (logical .and)
  | .symbol .equalEqual => some (binary .equal)
  | .symbol .bangEqual => some (binary .notEqual)
  | .symbol .greater => some (binary (.order .greater))
  | .symbol .greaterEqual => some (binary (.order .greaterEqual))
  | .symbol .less => some (binary (.order .less))
  | .symbol .lessEqual => some (binary (.order .lessEqual))
  | .symbol .plus => some (binary (.arith .add))
  | .symbol .minus => some (binary (.arith .subtract))
  | .symbol .star => some (binary (.arith .multiply))
  | .symbol .slash => some (binary (.arith .divide))
  | _ => none

/-- The operator of the given level that a token is, if it is one. -/
def atLevel? (l : Level) (kind : TokenKind) : Option Infix :=
  (ofKind? kind).filter fun op => op.level = l

end Infix
end LoxScript
