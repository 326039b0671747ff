/-!
Values of configuration documents, and why there may be none.
-/

namespace LoxScript
namespace Toml

/-- A value in a document.  Of dates and times only their being there is kept. -/
inductive Value where
  | boolean (b : Bool)
  | integer (n : Int)
  | float (x : Float)
  | string (s : String)
  | moment
  | array (items : List Value)
  | table (entries : List (String × Value))
deriving Inhabited

/-- Why a text is not read as a document. -/
inductive Fault where
  | malformed
  /-- An integer in base ten with more digits than are read. -/
  | integerTooLong
deriving Repr, DecidableEq, Inhabited

/-- Zero and whatever is empty count as false. -/
def Value.isTruthy : Value → Bool
  | boolean b => b
  | integer n => n ≠ 0
  | float x => x != 0
  | string s => !s.isEmpty
  | moment => true
  | array items => !items.isEmpty
  | table entries => !entries.isEmpty

end Toml
end LoxScript
