import LoxScript.Grammar.Parse
import LoxScript.Proofs.Cursor.Entries

/-!
Reading programs by a position in the list of tokens.

The readers are those of the grammar, told by what they look at: each looks at the next entry to
decide how to go on, takes entries, and looks back at an entry that it has taken.  Their last
argument limits how far they are nested, the rounds of a loop included.
-/

namespace LoxScript
namespace Cursor

section
variable {α : Type}

def isIdentifier : TokenKind → Bool
  | .identifier _ => true
  | _ => false

/-- Is it a value as it is written, other than a reserved word? -/
def isLiteral : TokenKind → Bool
  | .number _ _ | .string _ => true
  | _ => false

/-- What is done to the old value, if the entry is an assignment symbol. -/
def Entry.assignment? (e : Entry) : Option (Option ArithOp) :=
  match e.kind? with
  | some (.symbol s) => s.assignment?
  | _ => none

def isAssignment : TokenKind → Bool
  | .symbol s => s.assignment?.isSome
  | _ => false

def acceptSymbol (s : Symbol) : Reader Bool := accept fun kind => kind = .symbol s

def acceptKeyword (k : Keyword) : Reader Bool := accept fun kind => kind = .keyword k

def looksAtSymbol (s : Symbol) : Reader Bool := looksAt fun kind => kind = .symbol s

/-- The line of a symbol that must come next. -/
def symbol (s : Symbol) (m : Mistake) : Reader Nat :=
  return (← expect (fun kind => kind = .symbol s) m).line

/-- A name that must come next. -/
def name (m : Mistake) : Reader Name := return (← expect isIdentifier m).name

/-- Does a function with a name come next? -/
def looksAtFunction : Reader Bool := do
  if ← looksAt fun kind => kind = .keyword .fun_ then
    return (← peekAt 1).kind?.any isIdentifier
  else
    return false

/-- Does the end of a sequence of statements or of methods come next? -/
def looksAtEnd : Reader Bool := do
  if ← looksAtSymbol .rightBrace then return true else atEof

/-- The operator between two operands, with its line. -/
def Entry.node (e : Entry) (level : Level) (left right : Expr Unit) : Expr Unit :=
  match e.kind?.bind (Infix.atLevel? level) with
  | some op => op.node left e.line right
  | none => left

/-- The superclass in a class declaration, if one is named. -/
def superclass : Reader (Option (Name × Unit)) := do
  if ← acceptSymbol .less then
    let _ ← name .superclassName
    return some ((← previous).name, ())
  else
    return none

/-- Complains if there are too many of something. -/
def complainFrom (count : Nat) (m : Mistake) : Reader Unit :=
  if count < Mistake.maxArguments then return () else complain m

/-- Parameters, each but the first after a comma; `count` come before them. -/
def parameterList (count : Nat) : Nat → Reader (List Name)
  | 0 => unfinished
  | fuel + 1 => do
    complainFrom count .tooManyParameters
    let x ← name .parameterName
    if ← acceptSymbol .comma then
      return x :: (← parameterList (count + 1) fuel)
    else
      return [x]

def parameters (fuel : Nat) : Reader (List Name) := do
  if ← looksAtSymbol .rightParen then return [] else parameterList 0 fuel

end

mutual

def expression : Nat → Reader (Expr Unit)
  | 0 => unfinished
  | fuel + 1 => do
    let target ← infixed .or fuel
    if ← accept isAssignment then
      let operator ← previous
      let value ← expression fuel
      match operator.assignment?.bind (target.assignment? · operator.line value) with
      | some e => return e
      | none =>
        note .assignmentTarget operator
        return target
    else
      return target

def infixed (level : Level) : Nat → Reader (Expr Unit)
  | 0 => unfinished
  | fuel + 1 => do
    let left ← operand level fuel
    infixTail level left fuel

def infixTail (level : Level) (left : Expr Unit) : Nat → Reader (Expr Unit)
  | 0 => unfinished
  | fuel + 1 => do
    if ← accept fun kind => (Infix.atLevel? level kind).isSome then
      let operator ← previous
      let right ← operand level fuel
      infixTail level (operator.node level left right) fuel
    else
      return left

def operand (level : Level) : Nat → Reader (Expr Unit)
  | 0 => unfinished
  | fuel + 1 =>
    match level.tighter? with
    | some level => infixed level fuel
    | none => unary fuel

def unary : Nat → Reader (Expr Unit)
  | 0 => unfinished
  | fuel + 1 => do
    if ← acceptSymbol .bang then
      let operator ← previous
      return .unary .not operator.line (← unary fuel)
    else if ← acceptSymbol .minus then
      let operator ← previous
      return .unary .negate operator.line (← unary fuel)
    else
      call fuel

def call : Nat → Reader (Expr Unit)
  | 0 => unfinished
  | fuel + 1 => do
    let callee ← primary fuel
    callTail callee fuel

def callTail (callee : Expr Unit) : Nat → Reader (Expr Unit)
  | 0 => unfinished
  | fuel + 1 => do
    if ← acceptSymbol .leftParen then
      let args ← arguments fuel
      let line ← symbol .rightParen .argumentsEnd
      callTail (.call callee line args) fuel
    else if ← acceptSymbol .dot then
      let property ← name .propertyName
      callTail (.get callee property) fuel
    else
      return callee

def arguments : Nat → Reader (List (Expr Unit))
  | 0 => unfinished
  | fuel + 1 => do
    if ← looksAtSymbol .rightParen then return [] else argumentList 0 fuel

/-- Arguments, each but the first after a comma; `count` come before them. -/
def argumentList (count : Nat) : Nat → Reader (List (Expr Unit))
  | 0 => unfinished
  | fuel + 1 => do
    complainFrom count .tooManyArguments
    let arg ← expression fuel
    if ← acceptSymbol .comma then
      return arg :: (← argumentList (count + 1) fuel)
    else
      return [arg]

def primary : Nat → Reader (Expr Unit)
  | 0 => unfinished
  | fuel + 1 => do
    if ← acceptKeyword .false_ then
      return .literal (.bool false)
    else if ← acceptKeyword .true_ then
      return .literal (.bool true)
    else if ← acceptKeyword .nil_ then
      return .literal .nil
    else if ← accept isLiteral then
      return .literal (← previous).literal
    else if ← acceptKeyword .super_ then
      let keyword ← previous
      let _ ← symbol .dot .superDot
      return .super keyword.line () (← name .superMethod)
    else if ← acceptKeyword .this_ then
      return .this (← previous).line ()
    else if ← accept isIdentifier then
      return .var (← previous).name ()
    else if ← acceptKeyword .fun_ then
      let keyword ← previous
      return .function keyword.line (← code .function fuel)
    else if ← acceptSymbol .leftParen then
      let inner ← expression fuel
      let _ ← symbol .rightParen .groupingEnd
      return .grouping inner
    else
      error .expression

/-- The parameters and the body of a function. -/
def code (kind : CodeKind) : Nat → Reader (Code Unit)
  | 0 => unfinished
  | fuel + 1 => do
    let _ ← symbol .leftParen (.parametersStart kind)
    let params ← parameters fuel
    let _ ← symbol .rightParen .parametersEnd
    let _ ← symbol .leftBrace (.codeBodyStart kind)
    return .mk params (← block fuel)

/-- Declarations up to a closing brace. -/
def block : Nat → Reader (List (Stmt Unit))
  | 0 => unfinished
  | fuel + 1 => do
    if ← looksAtEnd then
      let _ ← symbol .rightBrace .blockEnd
      return []
    else
      let stmt ← declaration fuel
      return stmt.toList ++ (← block fuel)

/-- A declaration or a statement; nothing if it had to be recovered from a mistake. -/
def declaration : Nat → Reader (Option (Stmt Unit))
  | 0 => unfinished
  | fuel + 1 => recovering fuel do
    if ← acceptKeyword .class_ then
      classDeclaration fuel
    else if ← looksAtFunction then
      let _ ← advance
      let x ← name (.codeName .function)
      return .function x (← code .function fuel)
    else if ← acceptKeyword .var_ then
      varDeclaration fuel
    else
      statement fuel

def classDeclaration : Nat → Reader (Stmt Unit)
  | 0 => unfinished
  | fuel + 1 => do
    let x ← name .className
    let parent ← superclass
    let _ ← symbol .leftBrace .classBodyStart
    return .classDef x parent (← methods fuel)

/-- Methods up to a closing brace. -/
def methods : Nat → Reader (List (Method Unit))
  | 0 => unfinished
  | fuel + 1 => do
    if ← looksAtEnd then
      let _ ← symbol .rightBrace .classBodyEnd
      return []
    else
      let x ← name (.codeName .method)
      let body ← code .method fuel
      return .mk x body :: (← methods fuel)

def varDeclaration : Nat → Reader (Stmt Unit)
  | 0 => unfinished
  | fuel + 1 => do
    let x ← name .variableName
    if ← acceptSymbol .equal then
      let value ← expression fuel
      let _ ← symbol .semicolon .variableEnd
      return .var x (some value)
    else
      let _ ← symbol .semicolon .variableEnd
      return .var x none

/-- An expression, unless the given symbol comes next. -/
def expressionUnless (stop : Symbol) : Nat → Reader (Option (Expr Unit))
  | 0 => unfinished
  | fuel + 1 => do
    if ← looksAtSymbol stop then return none else return some (← expression fuel)

def expressionStatement : Nat → Reader (Stmt Unit)
  | 0 => unfinished
  | fuel + 1 => do
    let e ← expression fuel
    let _ ← symbol .semicolon .expressionEnd
    return .expression e

/-- What a `for` statement starts with. -/
def initializer : Nat → Reader (Option (Stmt Unit))
  | 0 => unfinished
  | fuel + 1 => do
    if ← acceptSymbol .semicolon then
      return none
    else if ← acceptKeyword .var_ then
      return some (← varDeclaration fuel)
    else
      return some (← expressionStatement fuel)

def statement : Nat → Reader (Stmt Unit)
  | 0 => unfinished
  | fuel + 1 => do
    if ← acceptKeyword .for_ then
      let _ ← symbol .leftParen .forStart
      let initial ← initializer fuel
      let condition ← expressionUnless .semicolon fuel
      let _ ← symbol .semicolon .forConditionEnd
      let step ← expressionUnless .rightParen fuel
      let _ ← symbol .rightParen .forEnd
      return .forLoop initial condition step (← statement fuel)
    else if ← acceptKeyword .if_ then
      let _ ← symbol .leftParen .ifStart
      let condition ← expression fuel
      let _ ← symbol .rightParen .ifEnd
      let yes ← statement fuel
      if ← acceptKeyword .else_ then
        return .branch condition yes (some (← statement fuel))
      else
        return .branch condition yes none
    else if ← acceptKeyword .print_ then
      let e ← expression fuel
      let _ ← symbol .semicolon .printEnd
      return .print e
    else if ← acceptKeyword .return_ then
      let keyword ← previous
      let value ← expressionUnless .semicolon fuel
      let _ ← symbol .semicolon .returnEnd
      return .ret keyword.line value
    else if ← acceptKeyword .while_ then
      let _ ← symbol .leftParen .whileStart
      let condition ← expression fuel
      let _ ← symbol .rightParen .whileEnd
      return .loop condition (← statement fuel)
    else if ← acceptSymbol .leftBrace then
      return .block (← block fuel)
    else
      expressionStatement fuel

end

/-- Declarations up to the end of the input. -/
def program : Nat → Reader (List (Stmt Unit))
  | 0 => unfinished
  | fuel + 1 => do
    if ← atEof then
      return []
    else
      let stmt ← declaration fuel
      return stmt.toList ++ (← program fuel)

end Cursor
end LoxScript
