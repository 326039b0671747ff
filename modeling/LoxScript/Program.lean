import LoxScript.Grammar.Parse
import LoxScript.Token.Scan

/-!
Reading a program text.
-/

namespace LoxScript

/-- What was read from a text: the statements that are well formed, and every complaint, those about
characters before those about tokens. -/
structure Reading where
  statements : List (Stmt Unit)
  diagnostics : List Diagnostic

def Reading.ofText (source : String) : Reading :=
  let scan := Scan.ofText source
  let parsed := Grammar.program scan.endLine scan.tokens
  { statements := parsed.1, diagnostics := scan.diagnostics ++ parsed.2 }

end LoxScript
