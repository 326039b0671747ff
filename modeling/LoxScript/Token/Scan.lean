import LoxScript.Diagnostic
import LoxScript.Token.Segment

/-!
Tokens and complaints with their lines.

A line number is one more than the number of newlines up to the end of the text it is given to, so a
string that spans lines is placed on its last one.
-/

namespace LoxScript

namespace Segment

def newlines (s : Segment) : Nat := s.text.count '\n'

def token? : Segment → Option TokenKind
  | token kind => some kind
  | _ => none

/-- What is wrong with a segment that is no part of the language. -/
def complaint? : Segment → Option String
  | unexpected _ => some "Unexpected character."
  | unterminatedString _ => some "Unterminated string."
  | unterminatedComment _ => some "Unterminated block comment."
  | _ => none

end Segment

/-- The tokens of a text, the number of its last line, and what is wrong with it. -/
structure Scan where
  tokens : List Token
  endLine : Nat
  diagnostics : List Diagnostic
deriving DecidableEq, Inhabited

namespace Scan

/-- Places segments, of which the first starts on the given line. -/
def place (line : Nat) : List Segment → Scan
  | [] => { tokens := [], endLine := line, diagnostics := [] }
  | s :: rest =>
    let last := line + s.newlines
    let more := place last rest
    { tokens := (s.token?.map (Token.mk · last)).toList ++ more.tokens
      endLine := more.endLine
      diagnostics := (s.complaint?.map (Diagnostic.onLine last)).toList ++ more.diagnostics }

def ofText (source : String) : Scan :=
  place 1 (segments source.toList)

end Scan
end LoxScript
