import LoxScript.Grammar.Parsed

/-!
Reading from a list by a position in it.

The tokens are followed in the list by an entry for the end of the input.  A reader is given the
list and a position, and looks at entries near it.  What may go wrong is kept apart: a mistake in
the text, which is complained about and may be recovered from, an entry that the list does not have,
and too little fuel for the calls that are nested.
-/

namespace LoxScript
namespace Cursor

/-- An element of the list: a token, or the end of the input on its line. -/
inductive Entry where
  | token (t : Token)
  | eof (line : Nat)

/-- The tokens, and the end of the input behind them: the last entry is the only one of its kind. -/
def entries (tokens : List Token) (endLine : Nat) : List Entry :=
  tokens.map .token ++ [.eof endLine]

namespace Entry

def kind? : Entry → Option TokenKind
  | token t => some t.kind
  | eof _ => none

def line : Entry → Nat
  | token t => t.line
  | eof line => line

def lexeme : Entry → String
  | token t => t.lexeme
  | eof _ => ""

/-- What is written there, as a name. -/
def name (e : Entry) : Name := ⟨e.lexeme, e.line⟩

/-- What the entry denotes if it is written as a value. -/
def literal : Entry → Literal
  | token ⟨.number _ value, _⟩ => .number value
  | token ⟨.string text, _⟩ => .string text
  | _ => .nil

/-- The complaint about the entry. -/
def report (m : Mistake) : Entry → Diagnostic
  | token t => .atToken t m.message
  | eof line => .atEnd line m.message

end Entry

/-- What becomes of reading from a position: a value, or a mistake to recover from, each with the
position then and the complaints made; an entry that is not there; or too little fuel. -/
inductive Outcome (α : Type) where
  | value (v : α) (position : Nat) (notes : List Diagnostic)
  | mistaken (position : Nat) (notes : List Diagnostic)
  | astray
  | unfinished

/-- Reads from a list, at a position in it. -/
def Reader (α : Type) : Type := List Entry → Nat → Outcome α

/-- Puts earlier complaints in front. -/
def Outcome.after {α : Type} (earlier : List Diagnostic) : Outcome α → Outcome α
  | value v position notes => value v position (earlier ++ notes)
  | mistaken position notes => mistaken position (earlier ++ notes)
  | astray => astray
  | unfinished => unfinished

instance : Monad Reader where
  pure v := fun _ p => .value v p []
  bind x next := fun entries p =>
    match x entries p with
    | .value v p notes => (next v entries p).after notes
    | .mistaken p notes => .mistaken p notes
    | .astray => .astray
    | .unfinished => .unfinished

section
variable {α : Type}

def unfinished : Reader α := fun _ _ => .unfinished

/-- Gives up, after a complaint. -/
def giveUp : Reader α := fun _ p => .mistaken p []

/-- The entry so many places further on; behind the end of the list it is the last one. -/
def peekAt (offset : Nat) : Reader Entry := fun entries p =>
  match entries[p + offset]? with
  | some e => .value e p []
  | none =>
    match entries.getLast? with
    | some e => .value e p []
    | none => .astray

def peek : Reader Entry := peekAt 0

/-- The entry before.  There is none at the beginning. -/
def previous : Reader Entry := fun entries p =>
  match p with
  | 0 => .astray
  | q + 1 =>
    match entries[q]? with
    | some e => .value e p []
    | none => .astray

/-- Takes an entry.  The end of the input is never passed. -/
def advance : Reader Entry := fun entries p =>
  match entries[p]? with
  | some (.token t) => .value (.token t) (p + 1) []
  | some (.eof line) => .value (.eof line) p []
  | none => .astray

def note (m : Mistake) (e : Entry) : Reader Unit := fun _ p => .value () p [e.report m]

/-- Complains about the next entry and goes on. -/
def complain (m : Mistake) : Reader Unit := do note m (← peek)

/-- Complains about the next entry and gives up. -/
def error (m : Mistake) : Reader α := do
  complain m
  giveUp

def atEof : Reader Bool := return (← peek).kind?.isNone

/-- Is the next entry a token of such a kind? -/
def looksAt (is : TokenKind → Bool) : Reader Bool := return (← peek).kind?.any is

/-- Takes a token of such a kind if it is next. -/
def accept (is : TokenKind → Bool) : Reader Bool := do
  if ← looksAt is then
    let _ ← advance
    return true
  else
    return false

def expect (is : TokenKind → Bool) (m : Mistake) : Reader Entry := do
  if ← looksAt is then
    advance
  else
    error m

/-- Skips tokens up to a place where a statement may begin. -/
def skip : Nat → Reader Unit
  | 0 => unfinished
  | fuel + 1 => do
    if ← atEof then
      return ()
    else if (← previous).kind? = some (.symbol .semicolon) then
      return ()
    else if ← looksAt TokenKind.startsStatement then
      return ()
    else
      let _ ← advance
      skip fuel

/-- Gives up the next token and goes on where a statement may begin. -/
def synchronize (fuel : Nat) : Reader Unit := do
  let _ ← advance
  skip fuel

/-- Recovers from mistakes, with nothing to show for it. -/
def recovering (fuel : Nat) (x : Reader α) : Reader (Option α) := fun entries p =>
  match x entries p with
  | .value v p notes => .value (some v) p notes
  | .mistaken p notes =>
    ((do synchronize fuel; return none : Reader (Option α)) entries p).after notes
  | .astray => .astray
  | .unfinished => .unfinished

end

/-! ### Where a reader stands -/

/-- At this position, these tokens are to come. -/
def At (tokens : List Token) (p : Nat) (ts : List Token) : Prop :=
  ∃ before, tokens = before ++ ts ∧ before.length = p

section
variable {tokens ts : List Token} {n p : Nat} {t : Token} {α β : Type}

theorem At.start (tokens : List Token) : At tokens 0 tokens := ⟨[], rfl, rfl⟩

theorem At.succ (h : At tokens p (t :: ts)) : At tokens (p + 1) ts := by
  obtain ⟨before, rfl, rfl⟩ := h
  exact ⟨before ++ [t], (List.append_cons before t ts), List.length_append⟩

theorem At.length_eq (h : At tokens p ts) : p + ts.length = tokens.length := by
  obtain ⟨before, rfl, rfl⟩ := h
  exact List.length_append.symm

theorem At.le (h : At tokens p ts) : p ≤ tokens.length := h.length_eq ▸ Nat.le_add_right p _

theorem At.of_le (h : p ≤ tokens.length) : At tokens p (tokens.drop p) :=
  ⟨tokens.take p, (List.take_append_drop p tokens).symm, List.length_take_of_le h⟩

/-- The entry at the first of the tokens. -/
def entryOf (n : Nat) : List Token → Entry
  | [] => .eof n
  | t :: _ => .token t

theorem At.getElem? (h : At tokens p ts) : (entries tokens n)[p]? = some (entryOf n ts) := by
  obtain ⟨before, rfl, rfl⟩ := h
  unfold entries
  rw [List.map_append, List.append_assoc,
    List.getElem?_append_right (Nat.le_of_eq (List.length_map _)), List.length_map, Nat.sub_self]
  cases ts <;> rfl

theorem peekAt_one (h : At tokens p (t :: ts)) :
    peekAt 1 (entries tokens n) p = .value (entryOf n ts) p [] := by
  unfold peekAt
  rw [h.succ.getElem?]

theorem peek_eq (h : At tokens p ts) :
    peek (entries tokens n) p = .value (entryOf n ts) p [] := by
  unfold peek peekAt
  rw [Nat.add_zero, h.getElem?]

theorem report_entryOf (m : Mistake) (ts : List Token) :
    (entryOf n ts).report m = m.report n ts := by
  cases ts <;> rfl

theorem Outcome.after_nil (o : Outcome α) : o.after [] = o := by cases o <;> rfl

/-! What the first of two readers comes to, one after the other. -/

theorem bind_of_value {x : Reader α} {next : α → Reader β} {l : List Entry} {v : α} {q : Nat}
    {notes : List Diagnostic} (h : x l p = .value v q notes) :
    (x >>= next) l p = (next v l q).after notes := by
  show (match x l p with
    | .value v p notes => (next v l p).after notes
    | .mistaken p notes => .mistaken p notes
    | .astray => .astray
    | .unfinished => .unfinished) = _
  rw [h]

theorem bind_of_value_nil {x : Reader α} {next : α → Reader β} {l : List Entry} {v : α} {q : Nat}
    (h : x l p = .value v q []) : (x >>= next) l p = next v l q := by
  rw [bind_of_value h, Outcome.after_nil]

theorem bind_of_mistaken {x : Reader α} {next : α → Reader β} {l : List Entry} {q : Nat}
    {notes : List Diagnostic} (h : x l p = .mistaken q notes) :
    (x >>= next) l p = .mistaken q notes := by
  show (match x l p with
    | .value v p notes => (next v l p).after notes
    | .mistaken p notes => .mistaken p notes
    | .astray => .astray
    | .unfinished => .unfinished) = _
  rw [h]

theorem previous_eq (h : At tokens p (t :: ts)) :
    previous (entries tokens n) (p + 1) = .value (.token t) (p + 1) [] := by
  show (match (entries tokens n)[p]? with
    | some e => Outcome.value e (p + 1) []
    | none => .astray) = _
  rw [h.getElem?]
  rfl

theorem advance_cons (h : At tokens p (t :: ts)) :
    advance (entries tokens n) p = .value (.token t) (p + 1) [] := by
  unfold advance
  rw [h.getElem?]
  rfl

theorem advance_nil (h : At tokens p []) :
    advance (entries tokens n) p = .value (.eof n) p [] := by
  unfold advance
  rw [h.getElem?]
  rfl

theorem complain_eq (h : At tokens p ts) (m : Mistake) :
    complain m (entries tokens n) p = .value () p [m.report n ts] := by
  unfold complain
  rw [bind_of_value_nil (peek_eq h)]
  simp only [note, report_entryOf]

theorem error_eq (h : At tokens p ts) (m : Mistake) :
    (error m : Reader α) (entries tokens n) p = .mistaken p [m.report n ts] := by
  unfold error
  rw [bind_of_value (complain_eq h m)]
  rfl

theorem atEof_eq (h : At tokens p ts) :
    atEof (entries tokens n) p = .value ts.isEmpty p [] := by
  unfold atEof
  rw [bind_of_value_nil (peek_eq h)]
  cases ts <;> rfl

theorem looksAt_eq (h : At tokens p ts) (is : TokenKind → Bool) :
    looksAt is (entries tokens n) p = .value (ts.head?.any fun t => is t.kind) p [] := by
  unfold looksAt
  rw [bind_of_value_nil (peek_eq h)]
  cases ts <;> rfl

/-- The next token, if there is one, is of none of the kinds. -/
def Misses (is : TokenKind → Bool) (ts : List Token) : Prop :=
  (ts.head?.any fun t => is t.kind) = false

section
variable {is : TokenKind → Bool}

theorem looksAt_misses (h : At tokens p ts) (hm : Misses is ts) :
    looksAt is (entries tokens n) p = .value false p [] := by
  rw [looksAt_eq h is, hm]

theorem looksAt_cons (h : At tokens p (t :: ts)) (ht : is t.kind = true) :
    looksAt is (entries tokens n) p = .value true p [] := by
  rw [looksAt_eq h is, List.head?_cons, Option.any_some, ht]

theorem accept_misses (h : At tokens p ts) (hm : Misses is ts) :
    accept is (entries tokens n) p = .value false p [] := by
  unfold accept
  rw [bind_of_value_nil (looksAt_misses h hm)]
  rfl

theorem accept_cons (h : At tokens p (t :: ts)) (ht : is t.kind = true) :
    accept is (entries tokens n) p = .value true (p + 1) [] := by
  unfold accept
  rw [bind_of_value_nil (looksAt_cons h ht), if_pos rfl, bind_of_value_nil (advance_cons h)]
  rfl

theorem expect_misses (h : At tokens p ts) (hm : Misses is ts) (m : Mistake) :
    expect is m (entries tokens n) p = .mistaken p [m.report n ts] := by
  unfold expect
  rw [bind_of_value_nil (looksAt_misses h hm)]
  exact error_eq h m

theorem expect_cons (h : At tokens p (t :: ts)) (ht : is t.kind = true) (m : Mistake) :
    expect is m (entries tokens n) p = .value (.token t) (p + 1) [] := by
  unfold expect
  rw [bind_of_value_nil (looksAt_cons h ht)]
  exact advance_cons h

end

/-- No token of the kind comes next. -/
theorem misses_of {kind : TokenKind} (h : ∀ line rest, ts = ⟨kind, line⟩ :: rest → False) :
    Misses (fun k => k = kind) ts := by
  cases ts with
  | nil => rfl
  | cons t rest => exact decide_eq_false fun ht => h t.line rest (by rw [← ht])

/-! ### Recovery -/

/-- What is skipped depends on the token taken last. -/
theorem skip_eq {fuel : Nat} (h : At tokens p (t :: ts)) (hfuel : ts.length < fuel) :
    ∃ q, At tokens q (skipStatement t ts) ∧
      skip fuel (entries tokens n) (p + 1) = .value () q [] := by
  induction fuel generalizing p t ts with
  | zero => exact absurd hfuel (Nat.not_lt_zero _)
  | succ fuel ih =>
    have hat := h.succ
    rw [skip, bind_of_value_nil (atEof_eq hat)]
    cases ts with
    | nil => exact ⟨p + 1, hat, rfl⟩
    | cons u ts =>
      rw [skipStatement, List.isEmpty_cons, if_neg Bool.false_ne_true,
        bind_of_value_nil (previous_eq h)]
      have hlast : (Entry.token t).kind? = some (.symbol .semicolon) ↔
          t.kind = .symbol .semicolon := Option.some_inj
      by_cases hsemicolon : t.kind = .symbol .semicolon
      · rw [if_pos (hlast.2 hsemicolon), if_pos (.inl hsemicolon)]
        exact ⟨p + 1, hat, rfl⟩
      · rw [if_neg fun h => hsemicolon (hlast.1 h)]
        by_cases hstarts : u.kind.startsStatement = true
        · rw [bind_of_value_nil (looksAt_cons hat hstarts), if_pos (.inr hstarts)]
          exact ⟨p + 1, hat, rfl⟩
        · have hm : Misses TokenKind.startsStatement (u :: ts) := Bool.eq_false_iff.2 hstarts
          rw [bind_of_value_nil (looksAt_misses hat hm), if_neg Bool.false_ne_true,
            if_neg (not_or_intro hsemicolon hstarts), bind_of_value_nil (advance_cons hat)]
          exact ih hat (Nat.lt_of_succ_lt_succ hfuel)

theorem synchronize_eq {fuel : Nat} (h : At tokens p ts) (hfuel : ts.length < fuel) :
    ∃ q, At tokens q (LoxScript.synchronize ts) ∧
      synchronize fuel (entries tokens n) p = .value () q [] := by
  unfold synchronize
  cases ts with
  | nil =>
    obtain ⟨fuel, rfl⟩ := Nat.exists_eq_add_one.2 hfuel
    refine ⟨p, h, ?_⟩
    rw [bind_of_value_nil (advance_nil h), skip, bind_of_value_nil (atEof_eq h)]
    rfl
  | cons t ts =>
    rw [bind_of_value_nil (advance_cons h)]
    exact skip_eq h (Nat.lt_of_succ_lt hfuel)

end
end Cursor
end LoxScript
