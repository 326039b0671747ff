import LoxScript.Session
import LoxScript.Text.Lines

/-!
What an editor is told about a program text.
-/

namespace LoxScript

/-- A place in a text, both numbers counted from zero. -/
structure Position where
  line : Nat
  character : Nat
deriving Repr, DecidableEq, Inhabited

/-- A complaint as an editor shows it. -/
structure Marker where
  start : Position
  stop : Position
  message : String
deriving Repr, DecidableEq, Inhabited

namespace Marker

/-- A complaint marks its whole line, and says after its message where on the line it lies. -/
def ofDiagnostic (lines : List (List Char)) (d : Diagnostic) : Marker :=
  let line := d.line - 1
  let width := (lines[line]?.map List.length).getD 0
  let place := d.place.trimAscii.toString
  { start := ⟨line, 0⟩
    stop := ⟨line, width⟩
    message := if d.place.isEmpty then d.message else d.message ++ " (" ++ place ++ ")" }

/-- All markers of a text. -/
def ofText (source : String) : List Marker :=
  (check source).map (ofDiagnostic (Lines.split source))

end Marker
end LoxScript
