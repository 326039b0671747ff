import LoxScript.Grammar.Level
import LoxScript.Grammar.Parsed

/-!
Reading programs from tokens by recursive descent.

There is a reader for each phrase of the grammar.  A reader is given the tokens from its phrase on
and answers the phrase and the tokens after it.  `endLine` is the line of the end of the input, for
complaints about a missing rest.  The readers call each other with fewer tokens, or with the same
tokens and a phrase further down in the grammar, and end for that reason.

A `for` statement and a compound assignment to a variable are read as what they abbreviate.
-/

namespace LoxScript

/-- What an assignment symbol does to the old value: nothing for `=`, an operation for the others. -/
def Symbol.assignment? : Symbol → Option (Option ArithOp)
  | equal => some none
  | plusEqual => some (some .add)
  | minusEqual => some (some .subtract)
  | starEqual => some (some .multiply)
  | slashEqual => some (some .divide)
  | _ => none

/-- The assignment of a value to what was read as an expression; `none` if that is no place to
assign to. -/
def Expr.assignment? (target : Expr Unit) (op : Option ArithOp) (line : Nat) (value : Expr Unit) :
    Option (Expr Unit) :=
  match target, op with
  | var x ref, none => some (assign x ref value)
  | var x ref, some op => some (assign x ref (binary target (.arith op) line value))
  | get object property, none => some (set object property value)
  | get object property, some op => some (update object property op line value)
  | _, _ => none

/-- A `for` statement as the `while` statement it abbreviates. -/
def Stmt.forLoop (initial : Option (Stmt Unit)) (condition step : Option (Expr Unit))
    (body : Stmt Unit) : Stmt Unit :=
  let body := match step with
    | some e => block [body, expression e]
    | none => body
  let loop := loop (condition.getD (.literal (.bool true))) body
  match initial with
  | some s => block [s, loop]
  | none => loop

namespace Grammar
open Parsed

/-- Parameters, each but the first after a comma; `count` come before them. -/
def parameterList (endLine count : Nat) : (ts : List Token) → Parsed true ts (List Name)
  | ⟨.identifier text, line⟩ :: rest =>
    let excess := if count < Mistake.maxArguments then []
      else [Mistake.tooManyParameters.report endLine (⟨.identifier text, line⟩ :: rest)]
    match rest with
    | ⟨.symbol .comma, _⟩ :: rest =>
      (behind <| behind <|
        (parameterList endLine (count + 1) rest).map (⟨text, line⟩ :: ·)).after excess
    | rest => (behind <| done [⟨text, line⟩] rest).after excess
  | ts =>
    let excess := if count < Mistake.maxArguments then []
      else [Mistake.tooManyParameters.report endLine ts]
    (fail .parameterName endLine ts).after excess

/-- The parameters before a closing parenthesis. -/
def parameters (endLine : Nat) : (ts : List Token) → Parsed false ts (List Name)
  | ⟨.symbol .rightParen, line⟩ :: rest => done [] (⟨.symbol .rightParen, line⟩ :: rest)
  | ts => (parameterList endLine 0 ts).weaken

/-- The superclass in a class declaration, if one is named. -/
def superclass (endLine : Nat) : (ts : List Token) → Parsed false ts (Option (Name × Unit))
  | ⟨.symbol .less, _⟩ :: rest =>
    weaken <| behind <| (name .superclassName endLine rest).map fun n => some (n, ())
  | ts => done none ts

section
variable (endLine : Nat)

mutual

/-- An expression: an assignment, or operands and operators. -/
def expression (ts : List Token) : Parsed true ts (Expr Unit) :=
  (infixed .or ts).andThen fun
    | target, ⟨.symbol s, line⟩ :: rest, _ =>
      match s.assignment? with
      | none => done target (⟨.symbol s, line⟩ :: rest)
      | some op =>
        weaken <| behind <| (expression rest).andThen fun value rest _ =>
          match target.assignment? op line value with
          | some e => done e rest
          | none =>
            (done target rest).after
              [.atToken ⟨.symbol s, line⟩ Mistake.assignmentTarget.message]
    | target, rest, _ => done target rest
termination_by 20 * ts.length + 15
decreasing_by all_goals grind [Level.height, Level.height_tighter, Level.height_le]

/-- Operands of the given level and the operators between them. -/
def infixed (level : Level) (ts : List Token) : Parsed true ts (Expr Unit) :=
  (operand level ts).andThen fun left rest _ => infixTail level left rest
termination_by 20 * ts.length + 2 * level.height + 2
decreasing_by all_goals grind [Level.height, Level.height_tighter, Level.height_le]

/-- The operators of the given level that follow an operand, each with its right operand. -/
def infixTail (level : Level) (left : Expr Unit) :
    (ts : List Token) → Parsed false ts (Expr Unit)
  | [] => done left []
  | t :: rest =>
    match Infix.atLevel? level t.kind with
    | none => done left (t :: rest)
    | some op =>
      weaken <| behind <| (operand level rest).andThen fun right rest _ =>
        infixTail level (op.node left t.line right) rest
termination_by ts => 20 * ts.length + 2 * level.height + 2
decreasing_by all_goals grind [Level.height, Level.height_tighter, Level.height_le]

/-- What stands between the operators of the given level. -/
def operand (level : Level) (ts : List Token) : Parsed true ts (Expr Unit) :=
  match _h : level.tighter? with
  | some level => infixed level ts
  | none => unary ts
termination_by 20 * ts.length + 2 * level.height + 1
decreasing_by
  · have := Level.height_tighter _h; omega
  · have := level.height_pos; omega

def unary : (ts : List Token) → Parsed true ts (Expr Unit)
  | ⟨.symbol .bang, line⟩ :: rest => behind <| (unary rest).map (.unary .not line)
  | ⟨.symbol .minus, line⟩ :: rest => behind <| (unary rest).map (.unary .negate line)
  | ts => call ts
termination_by ts => 20 * ts.length + 2
decreasing_by all_goals grind [Level.height, Level.height_tighter, Level.height_le]

/-- A primary expression and the calls and property accesses behind it. -/
def call (ts : List Token) : Parsed true ts (Expr Unit) :=
  (primary ts).andThen fun callee rest _ => callTail callee rest
termination_by 20 * ts.length + 1
decreasing_by all_goals grind [Level.height, Level.height_tighter, Level.height_le]

def callTail (callee : Expr Unit) : (ts : List Token) → Parsed false ts (Expr Unit)
  | ⟨.symbol .leftParen, _⟩ :: rest =>
    weaken <| behind <| (arguments rest).andThen fun args rest _ =>
    (symbol .rightParen .argumentsEnd endLine rest).andThen fun line rest _ =>
    callTail (.call callee line args) rest
  | ⟨.symbol .dot, _⟩ :: rest =>
    weaken <| behind <| (name .propertyName endLine rest).andThen fun property rest _ =>
    callTail (.get callee property) rest
  | ts => done callee ts
termination_by ts => 20 * ts.length
decreasing_by all_goals grind [Level.height, Level.height_tighter, Level.height_le]

/-- The arguments before a closing parenthesis. -/
def arguments : (ts : List Token) → Parsed false ts (List (Expr Unit))
  | ⟨.symbol .rightParen, line⟩ :: rest => done [] (⟨.symbol .rightParen, line⟩ :: rest)
  | ts => (argumentList 0 ts).weaken
termination_by ts => 20 * ts.length + 17
decreasing_by all_goals grind [Level.height, Level.height_tighter, Level.height_le]

/-- Arguments, each but the first after a comma; `count` come before them. -/
def argumentList (count : Nat) (ts : List Token) : Parsed true ts (List (Expr Unit)) :=
  let excess := if count < Mistake.maxArguments then []
    else [Mistake.tooManyArguments.report endLine ts]
  ((expression ts).andThen fun
    | arg, ⟨.symbol .comma, _⟩ :: rest, _ =>
      weaken <| behind <| (argumentList (count + 1) rest).map (arg :: ·)
    | arg, rest, _ => done [arg] rest).after excess
termination_by 20 * ts.length + 16
decreasing_by all_goals grind [Level.height, Level.height_tighter, Level.height_le]

def primary : (ts : List Token) → Parsed true ts (Expr Unit)
  | ⟨.keyword .false_, _⟩ :: rest => behind <| done (.literal (.bool false)) rest
  | ⟨.keyword .true_, _⟩ :: rest => behind <| done (.literal (.bool true)) rest
  | ⟨.keyword .nil_, _⟩ :: rest => behind <| done (.literal .nil) rest
  | ⟨.number _ value, _⟩ :: rest => behind <| done (.literal (.number value)) rest
  | ⟨.string text, _⟩ :: rest => behind <| done (.literal (.string text)) rest
  | ⟨.keyword .super_, line⟩ :: rest =>
    behind <| (symbol .dot .superDot endLine rest).andThen fun _ rest _ =>
    (name .superMethod endLine rest).map (.super line ())
  | ⟨.keyword .this_, line⟩ :: rest => behind <| done (.this line ()) rest
  | ⟨.identifier text, line⟩ :: rest => behind <| done (.var ⟨text, line⟩ ()) rest
  | ⟨.keyword .fun_, line⟩ :: rest => behind <| (code .function rest).map (.function line)
  | ⟨.symbol .leftParen, _⟩ :: rest =>
    behind <| (expression rest).andThen fun inner rest _ =>
    (symbol .rightParen .groupingEnd endLine rest).map fun _ => .grouping inner
  | ts => fail .expression endLine ts
termination_by ts => 20 * ts.length
decreasing_by all_goals grind [Level.height, Level.height_tighter, Level.height_le]

/-- The parameters and the body of a function. -/
def code (kind : CodeKind) (ts : List Token) : Parsed true ts (Code Unit) :=
  (symbol .leftParen (.parametersStart kind) endLine ts).andThen fun _ rest _ =>
  (parameters endLine rest).andThen fun params rest _ =>
  (symbol .rightParen .parametersEnd endLine rest).andThen fun _ rest _ =>
  (symbol .leftBrace (.codeBodyStart kind) endLine rest).andThen fun _ rest _ =>
  (block rest).map (.mk params)
termination_by 20 * ts.length
decreasing_by all_goals grind [Level.height, Level.height_tighter, Level.height_le]

/-- Declarations up to a closing brace. -/
def block : (ts : List Token) → Parsed true ts (List (Stmt Unit))
  | ⟨.symbol .rightBrace, _⟩ :: rest => behind <| done [] rest
  | [] => fail .blockEnd endLine []
  | t :: rest =>
    match declaration t rest with
    | ⟨stmt, rest', shrinks, notes⟩ =>
      (((block rest').map (stmt.toList ++ ·)).within shrinks).after notes
termination_by ts => 20 * ts.length + 20
decreasing_by all_goals grind [Level.height, Level.height_tighter, Level.height_le]

/-- One declaration or statement, which starts with the token `t`. -/
def declaration (t : Token) (rest : List Token) : Recovered (t :: rest) :=
  recover <| match t, rest with
    | ⟨.keyword .class_, _⟩, rest => behind <| classDeclaration rest
    | ⟨.keyword .fun_, _⟩, ⟨.identifier text, line⟩ :: rest =>
      behind <| behind <| (code .function rest).map (.function ⟨text, line⟩)
    | ⟨.keyword .var_, _⟩, rest => behind <| varDeclaration rest
    | t, rest => statement (t :: rest)
termination_by 20 * rest.length + 39
decreasing_by all_goals grind [Level.height, Level.height_tighter, Level.height_le]

def classDeclaration (ts : List Token) : Parsed true ts (Stmt Unit) :=
  (name .className endLine ts).andThen fun className rest _ =>
  (superclass endLine rest).andThen fun parent rest _ =>
  (symbol .leftBrace .classBodyStart endLine rest).andThen fun _ rest _ =>
  (methods rest).map (.classDef className parent)
termination_by 20 * ts.length
decreasing_by all_goals grind [Level.height, Level.height_tighter, Level.height_le]

/-- Methods up to a closing brace. -/
def methods : (ts : List Token) → Parsed true ts (List (Method Unit))
  | ⟨.symbol .rightBrace, _⟩ :: rest => behind <| done [] rest
  | [] => fail .classBodyEnd endLine []
  | ts =>
    (name (.codeName .method) endLine ts).andThen fun methodName rest _ =>
    (code .method rest).andThen fun body rest _ =>
    (methods rest).map (.mk methodName body :: ·)
termination_by ts => 20 * ts.length
decreasing_by all_goals grind [Level.height, Level.height_tighter, Level.height_le]

/-- A variable declaration behind its `var`. -/
def varDeclaration (ts : List Token) : Parsed true ts (Stmt Unit) :=
  (name .variableName endLine ts).andThen fun
    | x, ⟨.symbol .equal, _⟩ :: rest, _ =>
      behind <| (expression rest).andThen fun value rest _ =>
      (symbol .semicolon .variableEnd endLine rest).map fun _ => .var x (some value)
    | x, rest, _ => (symbol .semicolon .variableEnd endLine rest).map fun _ => .var x none
termination_by 20 * ts.length
decreasing_by all_goals grind [Level.height, Level.height_tighter, Level.height_le]

/-- An expression, unless the next token is the given symbol. -/
def expressionUnless (stop : Symbol) (ts : List Token) : Parsed false ts (Option (Expr Unit)) :=
  match ts.head? with
  | some ⟨.symbol s, _⟩ => if s = stop then done none ts else ((expression ts).map some).weaken
  | _ => ((expression ts).map some).weaken
termination_by 20 * ts.length + 16
decreasing_by all_goals grind [Level.height, Level.height_tighter, Level.height_le]

def expressionStatement (ts : List Token) : Parsed true ts (Stmt Unit) :=
  (expression ts).andThen fun e rest _ =>
  (symbol .semicolon .expressionEnd endLine rest).map fun _ => .expression e
termination_by 20 * ts.length + 16
decreasing_by all_goals grind [Level.height, Level.height_tighter, Level.height_le]

/-- What a `for` statement starts with. -/
def initializer : (ts : List Token) → Parsed true ts (Option (Stmt Unit))
  | ⟨.symbol .semicolon, _⟩ :: rest => behind <| done none rest
  | ⟨.keyword .var_, _⟩ :: rest => behind <| (varDeclaration rest).map some
  | ts => (expressionStatement ts).map some
termination_by ts => 20 * ts.length + 17
decreasing_by all_goals grind [Level.height, Level.height_tighter, Level.height_le]

def statement : (ts : List Token) → Parsed true ts (Stmt Unit)
  | ⟨.keyword .for_, _⟩ :: rest =>
    behind <| (symbol .leftParen .forStart endLine rest).andThen fun _ rest _ =>
    (initializer rest).andThen fun initial rest _ =>
    (expressionUnless .semicolon rest).andThen fun condition rest _ =>
    (symbol .semicolon .forConditionEnd endLine rest).andThen fun _ rest _ =>
    (expressionUnless .rightParen rest).andThen fun step rest _ =>
    (symbol .rightParen .forEnd endLine rest).andThen fun _ rest _ =>
    (statement rest).map (.forLoop initial condition step)
  | ⟨.keyword .if_, _⟩ :: rest =>
    behind <| (symbol .leftParen .ifStart endLine rest).andThen fun _ rest _ =>
    (expression rest).andThen fun condition rest _ =>
    (symbol .rightParen .ifEnd endLine rest).andThen fun _ rest _ =>
    (statement rest).andThen fun
      | yes, ⟨.keyword .else_, _⟩ :: rest, _ =>
        weaken <| behind <| (statement rest).map fun no => .branch condition yes (some no)
      | yes, rest, _ => done (.branch condition yes none) rest
  | ⟨.keyword .print_, _⟩ :: rest =>
    behind <| (expression rest).andThen fun e rest _ =>
    (symbol .semicolon .printEnd endLine rest).map fun _ => .print e
  | ⟨.keyword .return_, line⟩ :: rest =>
    behind <| (expressionUnless .semicolon rest).andThen fun value rest _ =>
    (symbol .semicolon .returnEnd endLine rest).map fun _ => .ret line value
  | ⟨.keyword .while_, _⟩ :: rest =>
    behind <| (symbol .leftParen .whileStart endLine rest).andThen fun _ rest _ =>
    (expression rest).andThen fun condition rest _ =>
    (symbol .rightParen .whileEnd endLine rest).andThen fun _ rest _ =>
    (statement rest).map (.loop condition)
  | ⟨.symbol .leftBrace, _⟩ :: rest => behind <| (block rest).map .block
  | ts => expressionStatement ts
termination_by ts => 20 * ts.length + 18
decreasing_by all_goals grind [Level.height, Level.height_tighter, Level.height_le]

end

/-- A block goes on with a declaration. -/
theorem block_cons {t : Token} {rest : List Token} (h : t.kind ≠ .symbol .rightBrace) :
    block endLine (t :: rest) =
      (((block endLine (declaration endLine t rest).rest).map
        ((declaration endLine t rest).statement.toList ++ ·)).within
          (declaration endLine t rest).shrinks).after (declaration endLine t rest).notes := by
  rw [block.eq_def]
  obtain ⟨kind, line⟩ := t
  cases kind with
  | symbol s =>
    cases s with
    | rightBrace => exact absurd rfl h
    | _ => rfl
  | _ => rfl

/-- Declarations up to the end of the input. -/
def program : List Token → List (Stmt Unit) × List Diagnostic
  | [] => ([], [])
  | t :: rest =>
    match declaration endLine t rest with
    | ⟨stmt, rest, _, notes⟩ =>
      let more := program rest
      (stmt.toList ++ more.1, notes ++ more.2)
termination_by ts => ts.length
decreasing_by grind

end
end Grammar
end LoxScript
