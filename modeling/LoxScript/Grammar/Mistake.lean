import LoxScript.Diagnostic

/-!
What can be wrong with a sequence of tokens.
-/

namespace LoxScript

/-- What is declared: the word used for it in complaints. -/
inductive CodeKind where
  | function | method
deriving Repr, DecidableEq, Inhabited

def CodeKind.noun : CodeKind → String
  | function => "function"
  | method => "method"

/-- The ways in which a program can break the grammar. -/
inductive Mistake where
  | className | superclassName | classBodyStart | classBodyEnd
  | codeName (kind : CodeKind) | parametersStart (kind : CodeKind) | codeBodyStart (kind : CodeKind)
  | parameterName | parametersEnd | tooManyParameters
  | variableName | variableEnd
  | forStart | forConditionEnd | forEnd
  | ifStart | ifEnd | whileStart | whileEnd
  | printEnd | returnEnd | blockEnd | expressionEnd
  | assignmentTarget | propertyName | argumentsEnd | tooManyArguments
  | superDot | superMethod | groupingEnd | expression
deriving Repr, DecidableEq, Inhabited

namespace Mistake

/-- A function takes at most this many parameters, a call this many arguments. -/
def maxArguments : Nat := 255

def message : Mistake → String
  | className => "Expect class name."
  | superclassName => "Expect superclass name."
  | classBodyStart => "Expect '\x7b' before class body."
  | classBodyEnd => "Expect '\x7d' after class body."
  | codeName kind => "Expect " ++ kind.noun ++ " name."
  | parametersStart kind => "Expect '(' after " ++ kind.noun ++ " name."
  | codeBodyStart kind => "Expect '\x7b' before " ++ kind.noun ++ " body."
  | parameterName => "Expect parameter name."
  | parametersEnd => "Expect ')' after parameters."
  | tooManyParameters => "Can't have more than " ++ toString maxArguments ++ " parameters."
  | variableName => "Expect variable name."
  | variableEnd => "Expect ';' after variable declaration."
  | forStart => "Expect '(' after 'for'."
  | forConditionEnd => "Expect ';' after loop condition."
  | forEnd => "Expect ')' after for clauses."
  | ifStart => "Expect '(' after 'if'."
  | ifEnd => "Expect ')' after if condition."
  | whileStart => "Expect '(' after 'while'."
  | whileEnd => "Expect ')' after condition."
  | printEnd => "Expect ';' after value."
  | returnEnd => "Expect ';' after return value."
  | blockEnd => "Expect '\x7d' after block."
  | expressionEnd => "Expect ';' after expression."
  | assignmentTarget => "Invalid assignment target."
  | propertyName => "Expect property name after '.'."
  | argumentsEnd => "Expect ')' after arguments."
  | tooManyArguments => "Can't have more than " ++ toString maxArguments ++ " arguments."
  | superDot => "Expect '.' after 'super'."
  | superMethod => "Expect superclass method name."
  | groupingEnd => "Expect ')' after expression."
  | expression => "Expect expression."

/-- The complaint about the next token, or about the end of the input on line `endLine`. -/
def report (m : Mistake) (endLine : Nat) : List Token → Diagnostic
  | [] => .atEnd endLine m.message
  | t :: _ => .atToken t m.message

end Mistake
end LoxScript
