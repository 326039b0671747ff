import LoxScript.Token

/-!
Complaints about a program text that has not run.

A diagnostic has a line, a place on it and a message.  The place is the text written right after the
word `Error`: nothing, ` at end`, or ` at` and the quoted lexeme.
-/

namespace LoxScript

/-- A complaint about a program text. -/
structure Diagnostic where
  line : Nat
  place : String
  message : String
deriving Repr, DecidableEq, Inhabited

namespace Diagnostic

/-- A complaint about a line as a whole. -/
def onLine (line : Nat) (message : String) : Diagnostic :=
  { line, place := "", message }

/-- A complaint that the text stops too early. -/
def atEnd (line : Nat) (message : String) : Diagnostic :=
  { line, place := " at end", message }

def atLexeme (line : Nat) (lexeme message : String) : Diagnostic :=
  { line, place := " at '" ++ lexeme ++ "'", message }

def atToken (t : Token) (message : String) : Diagnostic :=
  atLexeme t.line t.lexeme message

/-- The complaint as one line of output. -/
def format (d : Diagnostic) : String :=
  "[line " ++ toString d.line ++ "] Error" ++ d.place ++ ": " ++ d.message

end Diagnostic
end LoxScript
