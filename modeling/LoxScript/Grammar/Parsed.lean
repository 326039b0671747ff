import LoxScript.Grammar.Mistake
import LoxScript.Shrinks
import LoxScript.Syntax

/-!
Outcomes of reading part of a program.

`Parsed strict ts α` is what comes of reading from the tokens `ts`: a value and the tokens left, or a
failure that has left the rest to be recovered from.  How far the tokens have become fewer is part of
the outcome, so that a reader built from readers ends because each of its steps says that it has
made progress.
-/

namespace LoxScript

/-- The outcome of reading a value from the tokens `ts`, with the complaints made on the way.  If
`strict`, the value takes at least one token.  A failure is always complained about. -/
inductive Parsed (strict : Bool) (ts : List Token) (α : Type) : Type where
  | ok (value : α) (rest : List Token) (shrinks : Shrinks strict rest ts) (notes : List Diagnostic)
  | failed (rest : List Token) (shrinks : Shrinks false rest ts) (notes : List Diagnostic)
      (complained : notes ≠ [])

namespace Parsed
variable {a b : Bool} {ts : List Token} {α β : Type}

/-- A value that takes no token. -/
def done (value : α) (ts : List Token) : Parsed false ts α := ok value ts (.refl ts) []

/-- A failure at the first of the given tokens. -/
def fail (mistake : Mistake) (endLine : Nat) (ts : List Token) : Parsed a ts α :=
  failed ts (.refl ts) [mistake.report endLine ts] (List.cons_ne_nil _ _)

/-- Puts earlier complaints in front. -/
def after (earlier : List Diagnostic) : Parsed a ts α → Parsed a ts α
  | ok value rest shrinks notes => ok value rest shrinks (earlier ++ notes)
  | failed rest shrinks notes complained =>
    failed rest shrinks (earlier ++ notes) (List.append_ne_nil_of_right_ne_nil _ complained)

/-- The outcome of reading from one token more, which was taken before. -/
def behind {t : Token} : Parsed a ts α → Parsed true (t :: ts) α
  | ok value rest shrinks notes => ok value rest (shrinks.cons t) notes
  | failed rest shrinks notes complained => failed rest (shrinks.cons t) notes complained

def weaken : Parsed a ts α → Parsed false ts α
  | ok value rest shrinks notes => ok value rest shrinks.weaken notes
  | failed rest shrinks notes complained => failed rest shrinks notes complained

/-- The outcome of reading from more tokens, of which others were taken before. -/
def within {all : List Token} (h : Shrinks b ts all) : Parsed a ts α → Parsed b all α
  | ok value rest shrinks notes => ok value rest (h.then_le shrinks) notes
  | failed rest shrinks notes complained =>
    failed rest (h.weaken.then_le shrinks) notes complained

/-- Goes on with what is left after a value. -/
def andThen (p : Parsed a ts α)
    (next : α → (rest : List Token) → Shrinks a rest ts → Parsed b rest β) :
    Parsed (a || b) ts β :=
  match p with
  | failed rest shrinks notes complained => failed rest shrinks notes complained
  | ok value rest shrinks notes =>
    match next value rest shrinks with
    | ok value' rest' shrinks' notes' => ok value' rest' (shrinks.trans shrinks') (notes ++ notes')
    | failed rest' shrinks' notes' complained =>
      failed rest' (shrinks.trans shrinks').weaken (notes ++ notes')
        (List.append_ne_nil_of_right_ne_nil _ complained)

def map (f : α → β) : Parsed a ts α → Parsed a ts β
  | ok value rest shrinks notes => ok (f value) rest shrinks notes
  | failed rest shrinks notes complained => failed rest shrinks notes complained

/-- Takes the given symbol and answers its line. -/
def symbol (s : Symbol) (mistake : Mistake) (endLine : Nat) : (ts : List Token) → Parsed true ts Nat
  | [] => fail mistake endLine []
  | t :: rest =>
    if t.kind = .symbol s then behind (done t.line rest) else fail mistake endLine (t :: rest)

/-- Takes a name. -/
def name (mistake : Mistake) (endLine : Nat) : (ts : List Token) → Parsed true ts Name
  | ⟨.identifier text, line⟩ :: rest => behind (done ⟨text, line⟩ rest)
  | ts => fail mistake endLine ts

end Parsed

/-- What reading one declaration leaves of the tokens `ts`: a statement, unless it was given up, and
fewer tokens in either case. -/
structure Recovered (ts : List Token) where
  statement : Option (Stmt Unit)
  rest : List Token
  shrinks : Shrinks true rest ts
  notes : List Diagnostic

/-- Skips to the next place where a statement may begin: behind a semicolon or in front of a word
that starts one.  `last` is the token skipped before. -/
def skipStatement (last : Token) : List Token → List Token
  | [] => []
  | t :: rest =>
    if last.kind = .symbol .semicolon ∨ t.kind.startsStatement then t :: rest
    else skipStatement t rest

/-- Recovers from a failure at the first of the given tokens, which is given up. -/
def synchronize : List Token → List Token
  | [] => []
  | t :: rest => skipStatement t rest

theorem length_skipStatement_le (last : Token) (ts : List Token) :
    (skipStatement last ts).length ≤ ts.length := by
  fun_induction skipStatement last ts with
  | case1 => exact Nat.le_refl _
  | case2 => exact Nat.le_refl _
  | case3 _ t rest _ ih => exact Nat.le_succ_of_le ih

/-- Recovery gives up a token if there is one. -/
theorem synchronize_shrinks {t : Token} {rest ts : List Token} (h : Shrinks false rest (t :: ts)) :
    Shrinks true (synchronize rest) (t :: ts) := by
  cases rest with
  | nil => exact .of_lt (Nat.succ_pos _)
  | cons u rest => exact .of_lt (Nat.lt_of_le_of_lt (length_skipStatement_le u rest) h.le)

def Parsed.recover {t : Token} {ts : List Token} :
    Parsed true (t :: ts) (Stmt Unit) → Recovered (t :: ts)
  | ok value rest shrinks notes => { statement := some value, rest, shrinks, notes }
  | failed rest shrinks notes _ =>
    { statement := none, rest := synchronize rest, shrinks := synchronize_shrinks shrinks, notes }

end LoxScript
