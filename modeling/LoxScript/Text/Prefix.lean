import LoxScript.Shrinks

/-!
Reading the front of a text.

`Prefix strict cs α` is what was read from the text `cs`: a value, and the characters that come after
it, which are fewer if `strict`.  A reader returns it in an `Option`, or in another monad that says
more about what is wrong with the text.
-/

namespace LoxScript

/-- A value read from the front of the text `cs`, and the rest.  If `strict`, the value takes at
least one character. -/
structure Prefix (strict : Bool) (cs : List Char) (α : Type) where
  value : α
  rest : List Char
  shrinks : Shrinks strict rest cs

namespace Prefix
variable {m : Type → Type} [Monad m] {a b : Bool} {cs : List Char} {α β : Type}

/-- A value that takes no character. -/
def done (value : α) (cs : List Char) : m (Prefix false cs α) := pure ⟨value, cs, .refl cs⟩

/-- What was read from one character more, which was taken before. -/
def behind {c : Char} (p : m (Prefix a cs α)) : m (Prefix true (c :: cs) α) := do
  let q ← p
  return ⟨q.value, q.rest, q.shrinks.cons c⟩

def weaken (p : m (Prefix a cs α)) : m (Prefix false cs α) := do
  let q ← p
  return ⟨q.value, q.rest, q.shrinks.weaken⟩

def map (p : m (Prefix a cs α)) (f : α → β) : m (Prefix a cs β) := do
  let q ← p
  return ⟨f q.value, q.rest, q.shrinks⟩

/-- Goes on with what is left. -/
def andThen (p : m (Prefix a cs α))
    (next : α → (rest : List Char) → Shrinks a rest cs → m (Prefix b rest β)) :
    m (Prefix (a || b) cs β) := do
  let q ← p
  let r ← next q.value q.rest q.shrinks
  return ⟨r.value, r.rest, q.shrinks.trans r.shrinks⟩

/-- One character of a class. -/
def char (p : Char → Bool) : (cs : List Char) → Option (Prefix true cs Char)
  | [] => none
  | c :: rest => if p c then behind (done c rest) else none

theorem dropWhile_shrinks (p : Char → Bool) (cs : List Char) :
    Shrinks false (cs.dropWhile p) cs :=
  .of_le (List.dropWhile_sublist p).length_le

theorem drop_shrinks (n : Nat) (cs : List Char) : Shrinks false (cs.drop n) cs :=
  .of_le (List.drop_sublist n cs).length_le

/-- As many characters of a class as there are. -/
def run (p : Char → Bool) (cs : List Char) : Prefix false cs (List Char) :=
  ⟨cs.takeWhile p, cs.dropWhile p, dropWhile_shrinks p cs⟩

/-- One or more characters of a class. -/
def run1 (p : Char → Bool) (cs : List Char) : Option (Prefix true cs (List Char)) :=
  andThen (char p cs) fun c rest _ => map (some (run p rest)) (c :: ·)

/-- The given number of characters, or all if there are fewer. -/
def take (n : Nat) (cs : List Char) : Prefix false cs (List Char) :=
  ⟨cs.take n, cs.drop n, drop_shrinks n cs⟩

/-- The given text, which is not empty. -/
def text (first : Char) : List Char → (cs : List Char) → Option (Prefix true cs Unit)
  | [], cs => map (char (· == first) cs) fun _ => ()
  | second :: more, cs => andThen (char (· == first) cs) fun _ rest _ => text second more rest

end Prefix
end LoxScript
