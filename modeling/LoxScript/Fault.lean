import LoxScript.Syntax

/-!
What can go wrong while a program runs.
-/

namespace LoxScript

/-- The reasons for which running a program fails. -/
inductive Fault where
  | operandNotNumber
  | operandsNotNumbers
  | operandsNotAddable
  | divisionByZero
  | undefinedVariable (x : String)
  | undefinedProperty (x : String)
  | noProperties
  | noFields
  | notCallable
  | wrongArity (expected got : Nat)
  | stackOverflow
  | superclassNotClass
deriving Repr, DecidableEq, Inhabited

def Fault.message : Fault → String
  | operandNotNumber => "Operand must be a number."
  | operandsNotNumbers => "Operands must be numbers."
  | operandsNotAddable => "Operands must be two numbers or two strings."
  | divisionByZero => "Cannot divide by 0."
  | undefinedVariable x => "Undefined variable '" ++ x ++ "'."
  | undefinedProperty x => "Undefined property '" ++ x ++ "'."
  | noProperties => "Only instances have properties."
  | noFields => "Only instances have fields."
  | notCallable => "Can only call functions and classes."
  | wrongArity expected got =>
    "Expected " ++ toString expected ++ " arguments but got " ++ toString got ++ "."
  | stackOverflow => "Stack overflow."
  | superclassNotClass => "Superclass must be a class."

/-- A failure, and the token that it is blamed on. -/
structure RuntimeError where
  fault : Fault
  token : Token
deriving DecidableEq, Inhabited

end LoxScript
