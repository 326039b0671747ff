import LoxScript.Token

/-!
Source text as a sequence of segments.

`segments` cuts a text from left to right into blanks, comments, tokens and mistakes, without gap or
overlap: the texts of the segments, put together again, are the source.  Each step takes the longest
segment that starts at the current character, and leaves a rest that is no longer than what followed
that character, so the cutting ends.
-/

namespace LoxScript

/-- A piece of source text. -/
inductive Segment where
  | blank (c : Char)
  | newline
  | lineComment (body : List Char)
  | blockComment (body : List Char)
  | token (kind : TokenKind)
  | unexpected (c : Char)
  | unterminatedString (body : List Char)
  | unterminatedComment (body : List Char)
deriving DecidableEq, Inhabited

namespace Segment

def isDigit (c : Char) : Bool := '0' ≤ c && c ≤ '9'

/-- The characters that may begin a name. -/
def isLetter (c : Char) : Bool :=
  ('a' ≤ c && c ≤ 'z') || ('A' ≤ c && c ≤ 'Z') || c == '_'

def isWordChar (c : Char) : Bool := isLetter c || isDigit c

/-- The source text that a segment covers. -/
def text : Segment → List Char
  | blank c => [c]
  | newline => ['\n']
  | lineComment body => '/' :: '/' :: body
  | blockComment body => '/' :: '*' :: (body ++ ['*', '/'])
  | token kind => kind.lexeme.toList
  | unexpected c => [c]
  | unterminatedString body => '"' :: body
  | unterminatedComment body => '/' :: '*' :: body

/-- Splits before the first `*/`, which is dropped; `none` if there is none. -/
def untilCommentEnd : List Char → Option (List Char × List Char)
  | [] => none
  | '*' :: '/' :: rest => some ([], rest)
  | c :: rest => (untilCommentEnd rest).map fun (body, after) => (c :: body, after)

/-- A numeral with these digits before and after the point. -/
def numeral (whole fraction : List Char) : TokenKind :=
  let digits := (whole ++ fraction).foldl (fun n c => 10 * n + (c.toNat - '0'.toNat)) 0
  let text := if fraction.isEmpty then whole else whole ++ '.' :: fraction
  .number (String.ofList text) (Float.ofScientific digits true fraction.length)

/-- The kind of a word: a reserved word if it is spelled like one, else a name. -/
def word (text : String) : TokenKind :=
  match Keyword.ofText? text with
  | some k => .keyword k
  | none => .identifier text

/-- The segment that starts with a slash, given what follows the slash. -/
def ofSlash : List Char → Segment × List Char
  | '/' :: rest => (lineComment (rest.takeWhile (· != '\n')), rest.dropWhile (· != '\n'))
  | '*' :: rest =>
    match untilCommentEnd rest with
    | some (body, after) => (blockComment body, after)
    | none => (unterminatedComment rest, [])
  | '=' :: rest => (token (.symbol .slashEqual), rest)
  | rest => (token (.symbol .slash), rest)

/-- The segment that starts with a double quote, given what follows the quote. -/
def ofQuote (rest : List Char) : Segment × List Char :=
  let body := rest.takeWhile (· != '"')
  match rest.dropWhile (· != '"') with
  | [] => (unterminatedString body, [])
  | _ :: after => (token (.string (String.ofList body)), after)

/-- The numeral that starts with the digit `c`.  A point belongs to it only if a digit follows. -/
def ofDigit (c : Char) (rest : List Char) : Segment × List Char :=
  let whole := c :: rest.takeWhile isDigit
  match rest.dropWhile isDigit with
  | '.' :: d :: after =>
    if isDigit d then
      (token (numeral whole (d :: after.takeWhile isDigit)), after.dropWhile isDigit)
    else
      (token (numeral whole []), '.' :: d :: after)
  | after => (token (numeral whole []), after)

/-- The segment that starts with the character `c`, and the text after it. -/
def first (c : Char) (rest : List Char) : Segment × List Char :=
  match Symbol.alone? c with
  | some s => (token (.symbol s), rest)
  | none =>
    match Symbol.extensible? c with
    | some (plain, extended) =>
      match rest with
      | '=' :: after => (token (.symbol extended), after)
      | _ => (token (.symbol plain), rest)
    | none =>
      if c = '/' then ofSlash rest
      else if c = ' ' ∨ c = '\r' ∨ c = '\t' then (blank c, rest)
      else if c = '\n' then (newline, rest)
      else if c = '"' then ofQuote rest
      else if isDigit c then ofDigit c rest
      else if isLetter c then
        (token (word (String.ofList (c :: rest.takeWhile isWordChar))),
          rest.dropWhile isWordChar)
      else (unexpected c, rest)

theorem length_dropWhile_le (p : Char → Bool) (cs : List Char) :
    (cs.dropWhile p).length ≤ cs.length :=
  (List.dropWhile_sublist p).length_le

theorem untilCommentEnd_eq {cs body after : List Char} (h : untilCommentEnd cs = some (body, after)) :
    cs = body ++ '*' :: '/' :: after := by
  fun_induction untilCommentEnd cs generalizing body after with
  | case1 => simp at h
  | case2 => simp at h; simp [h]
  | case3 c rest _ ih =>
    obtain ⟨⟨b, a⟩, hb, hab⟩ := Option.map_eq_some_iff.1 h
    simp only [Prod.mk.injEq] at hab
    obtain ⟨rfl, rfl⟩ := hab
    simp [ih hb]

theorem length_ofSlash_le (rest : List Char) : (ofSlash rest).2.length ≤ rest.length := by
  unfold ofSlash
  split
  · have := length_dropWhile_le (· != '\n') ‹List Char›
    simp only [List.length_cons]; omega
  · split
    · have := untilCommentEnd_eq ‹_›
      simp only [this, List.length_cons, List.length_append]; omega
    · simp
  · simp
  · simp

theorem length_ofQuote_le (rest : List Char) : (ofQuote rest).2.length ≤ rest.length := by
  have := length_dropWhile_le (· != '"') rest
  unfold ofQuote
  split
  · simp
  · simp_all; omega

theorem length_ofDigit_le (c : Char) (rest : List Char) :
    (ofDigit c rest).2.length ≤ rest.length := by
  have h := length_dropWhile_le isDigit rest
  unfold ofDigit
  split
  · rename_i d after heq
    have := length_dropWhile_le isDigit after
    simp only [heq, List.length_cons] at h
    split <;> simp only [List.length_cons] <;> omega
  · exact h

theorem length_first_le (c : Char) (rest : List Char) : (first c rest).2.length ≤ rest.length := by
  unfold first
  repeat' split
  all_goals simp [length_ofSlash_le, length_ofQuote_le, length_ofDigit_le, length_dropWhile_le]

end Segment

/-- Cuts a text into segments. -/
def segments : List Char → List Segment
  | [] => []
  | c :: rest => (Segment.first c rest).1 :: segments (Segment.first c rest).2
termination_by cs => cs.length
decreasing_by
  have := Segment.length_first_le c rest
  simp only [List.length_cons]; omega

end LoxScript
