import LoxScript.Proofs.Joined.Text

/-!
What the pieces of a text may be.

It is said of the piece and of the text behind it, without a word on how the pieces are found: which
characters it is made of, and that nothing longer of its sort starts at the same place.  For each
sort of token, being the longest is the same as being followed by a character that stops it.
-/

namespace LoxScript
namespace Segment

/-! ### What a piece may be -/

/-- The text has the property, and no longer text that starts at the same place has it. -/
structure Longest (P : List Char → Prop) (lexeme rest : List Char) : Prop where
  holds : P lexeme
  longest : ∀ more, more ≠ [] → more <+: rest → ¬ P (lexeme ++ more)

def IsSymbol (cs : List Char) : Prop := ∃ s : Symbol, s.text.toList = cs

def IsDigits (cs : List Char) : Prop := cs ≠ [] ∧ ∀ c ∈ cs, isDigit c = true

/-- Digits, or digits on both sides of a point. -/
def IsNumeral (cs : List Char) : Prop :=
  IsDigits cs ∨ ∃ whole fraction, IsDigits whole ∧ IsDigits fraction ∧ cs = whole ++ '.' :: fraction

/-- Letters and digits, a letter first. -/
def IsWord : List Char → Prop
  | [] => False
  | c :: rest => isLetter c = true ∧ ∀ d ∈ rest, isWordChar d = true

/-- The character may stand between tokens. -/
def IsBlank (c : Char) : Prop := c = ' ' ∨ c = '\r' ∨ c = '\t'

/-- No piece but a mistake starts with the character. -/
def IsForeign (c : Char) : Prop :=
  ¬ IsBlank c ∧ c ≠ '\n' ∧ c ≠ '"' ∧ isDigit c = false ∧ isLetter c = false ∧
    ∀ s : Symbol, s.text.toList.head? ≠ some c

/-- The piece may stand in front of the rest of a text. -/
def Fits : Segment → List Char → Prop
  | blank c, _ => IsBlank c
  | newline, _ => True
  | lineComment body, rest => '\n' ∉ body ∧ (rest = [] ∨ rest.head? = some '\n')
  -- the comment ends with the first `*/` behind its first two characters
  | blockComment body, _ => ¬ ['*', '/'] <:+: body ++ ['*']
  -- a slash may also open a comment
  | token (.symbol s), rest =>
    Longest IsSymbol s.text.toList rest ∧
      (s = .slash → rest.head? ≠ some '/' ∧ rest.head? ≠ some '*')
  | token (.number text value), rest =>
    Longest IsNumeral text.toList rest ∧
      ∃ whole fraction, IsDigits whole ∧ (∀ d ∈ fraction, isDigit d = true) ∧
        TokenKind.number text value = numeral whole fraction
  | token (.identifier name), rest =>
    Longest IsWord name.toList rest ∧ ∀ k ∈ Keyword.all, k.text ≠ name
  | token (.keyword k), rest => Longest IsWord k.text.toList rest
  | token (.string text), _ => '"' ∉ text.toList
  | unexpected c, _ => IsForeign c
  | unterminatedString body, rest => '"' ∉ body ∧ rest = []
  | unterminatedComment body, rest => ¬ ['*', '/'] <:+: body ∧ rest = []

/-! ### Runs of characters -/

section
variable {α : Type} {p : α → Bool} {body rest : List α}

/-- A run that ends where its elements end. -/
theorem span_eq (hbody : ∀ c ∈ body, p c = true) (hrest : ∀ c, rest.head? = some c → p c = false) :
    (body ++ rest).takeWhile p = body ∧ (body ++ rest).dropWhile p = rest := by
  rw [List.takeWhile_append_of_pos hbody, List.dropWhile_append_of_pos hbody]
  cases rest with
  | nil => simp
  | cons c rest =>
    have hc : p c = false := hrest c rfl
    simp [hc]

/-- Such a run can be told from what is behind it. -/
theorem append_inj_of_span {body' rest' : List α} (hbody : ∀ c ∈ body, p c = true)
    (hrest : ∀ c, rest.head? = some c → p c = false) (hbody' : ∀ c ∈ body', p c = true)
    (hrest' : ∀ c, rest'.head? = some c → p c = false) (h : body ++ rest = body' ++ rest') :
    body = body' ∧ rest = rest' := by
  obtain ⟨ht, hr⟩ := span_eq hbody hrest
  obtain ⟨ht', hr'⟩ := span_eq hbody' hrest'
  rw [h] at ht hr
  exact ⟨ht.symm.trans ht', hr.symm.trans hr'⟩

end

section
variable {p : Char → Bool} {body rest : List Char}

theorem of_mem_takeWhile {c : Char} (h : c ∈ body.takeWhile p) : p c = true := by
  induction body with
  | nil => cases h
  | cons d body ih =>
    by_cases hd : p d = true
    · rw [List.takeWhile_cons, if_pos hd] at h
      rcases List.mem_cons.1 h with rfl | h
      · exact hd
      · exact ih h
    · rw [List.takeWhile_cons, if_neg hd] at h
      cases h

theorem prefix_of_head {c : Char} (h : rest.head? = some c) : [c] <+: rest := by
  cases rest with
  | nil => cases h
  | cons d rest =>
    cases h
    exact ⟨rest, rfl⟩

theorem head?_dropWhile {c : Char} (h : (body.dropWhile p).head? = some c) : p c = false := by
  have hnot := List.head?_dropWhile_not p body
  rw [h] at hnot
  simpa using hnot

end

/-! ### Symbols -/

theorem isSymbol_cons {c : Char} {more : List Char} :
    IsSymbol (c :: more) ↔
      (more = [] ∧ ((Symbol.alone? c).isSome ∨ (Symbol.extensible? c).isSome ∨ c = '/')) ∨
      (more = ['='] ∧ ((Symbol.extensible? c).isSome ∨ c = '/')) := by
  constructor
  · rintro ⟨s, hs⟩
    cases s <;> cases hs <;> decide
  · rintro (⟨rfl, h | h | rfl⟩ | ⟨rfl, h | rfl⟩)
    · obtain ⟨s, hs⟩ := Option.isSome_iff_exists.1 h
      exact ⟨s, Symbol.text_of_alone? hs⟩
    · obtain ⟨⟨plain, extended⟩, hs⟩ := Option.isSome_iff_exists.1 h
      exact ⟨plain, (Symbol.text_of_extensible? hs).1⟩
    · exact ⟨.slash, rfl⟩
    · obtain ⟨⟨plain, extended⟩, hs⟩ := Option.isSome_iff_exists.1 h
      exact ⟨extended, (Symbol.text_of_extensible? hs).2⟩
    · exact ⟨.slashEqual, rfl⟩

/-- A symbol is one that stands alone, the plain or the extended one of two, or made of a slash. -/
theorem symbol_cases (s : Symbol) :
    (∃ c, Symbol.alone? c = some s) ∨ (∃ c extended, Symbol.extensible? c = some (s, extended)) ∨
      (∃ c plain, Symbol.extensible? c = some (plain, s)) ∨ s = .slash ∨ s = .slashEqual := by
  cases s with
  | leftParen => exact .inl ⟨'(', rfl⟩
  | rightParen => exact .inl ⟨')', rfl⟩
  | leftBrace => exact .inl ⟨'{', rfl⟩
  | rightBrace => exact .inl ⟨'}', rfl⟩
  | comma => exact .inl ⟨',', rfl⟩
  | dot => exact .inl ⟨'.', rfl⟩
  | semicolon => exact .inl ⟨';', rfl⟩
  | minus => exact .inr (.inl ⟨'-', _, rfl⟩)
  | minusEqual => exact .inr (.inr (.inl ⟨'-', _, rfl⟩))
  | plus => exact .inr (.inl ⟨'+', _, rfl⟩)
  | plusEqual => exact .inr (.inr (.inl ⟨'+', _, rfl⟩))
  | slash => exact .inr (.inr (.inr (.inl rfl)))
  | slashEqual => exact .inr (.inr (.inr (.inr rfl)))
  | star => exact .inr (.inl ⟨'*', _, rfl⟩)
  | starEqual => exact .inr (.inr (.inl ⟨'*', _, rfl⟩))
  | bang => exact .inr (.inl ⟨'!', _, rfl⟩)
  | bangEqual => exact .inr (.inr (.inl ⟨'!', _, rfl⟩))
  | equal => exact .inr (.inl ⟨'=', _, rfl⟩)
  | equalEqual => exact .inr (.inr (.inl ⟨'=', _, rfl⟩))
  | greater => exact .inr (.inl ⟨'>', _, rfl⟩)
  | greaterEqual => exact .inr (.inr (.inl ⟨'>', _, rfl⟩))
  | less => exact .inr (.inl ⟨'<', _, rfl⟩)
  | lessEqual => exact .inr (.inr (.inl ⟨'<', _, rfl⟩))

/-! ### Characters of names and numerals -/

theorem ne_of_isWordChar {c : Char} (h : isWordChar c = true) {d : Char}
    (hd : isWordChar d = false) : c ≠ d := by
  intro heq
  rw [heq, hd] at h
  cases h

theorem isWordChar_of_isDigit {c : Char} (h : isDigit c = true) : isWordChar c = true := by
  simp [isWordChar, h]

theorem isWordChar_of_isLetter {c : Char} (h : isLetter c = true) : isWordChar c = true := by
  simp [isWordChar, h]

/-- A letter is no digit. -/
theorem isDigit_of_isLetter {c : Char} (h : isLetter c = true) : isDigit c = false := by
  simp only [isLetter, isDigit, Bool.or_eq_true, Bool.and_eq_true, decide_eq_true_eq, beq_iff_eq,
    Bool.and_eq_false_iff, decide_eq_false_iff_not, Char.le_def] at h ⊢
  rcases h with (⟨h, -⟩ | ⟨h, -⟩) | rfl
  · exact .inr fun h' => absurd (UInt32.le_trans h h') (by decide)
  · exact .inr fun h' => absurd (UInt32.le_trans h h') (by decide)
  · exact .inr (by decide)

theorem alone?_of_isWordChar {c : Char} (h : isWordChar c = true) : Symbol.alone? c = none := by
  unfold Symbol.alone?
  split
  all_goals first | rfl | exact absurd h (by decide)

theorem extensible?_of_isWordChar {c : Char} (h : isWordChar c = true) :
    Symbol.extensible? c = none := by
  unfold Symbol.extensible?
  split
  all_goals first | rfl | exact absurd h (by decide)

theorem not_isBlank_of_isWordChar {c : Char} (h : isWordChar c = true) : ¬ IsBlank c := by
  rintro (hc | hc | hc)
  · exact ne_of_isWordChar h (by decide) hc
  · exact ne_of_isWordChar h (by decide) hc
  · exact ne_of_isWordChar h (by decide) hc

theorem first_of_isWordChar {c : Char} (h : isWordChar c = true) (rest : List Char) :
    first c rest =
      if isDigit c then ofDigit c rest
      else if isLetter c then
        (token (word (String.ofList (c :: rest.takeWhile isWordChar))), rest.dropWhile isWordChar)
      else (unexpected c, rest) := by
  have hslash : c ≠ '/' := ne_of_isWordChar h (by decide)
  have hnewline : c ≠ '\n' := ne_of_isWordChar h (by decide)
  have hquote : c ≠ '"' := ne_of_isWordChar h (by decide)
  have hblank : ¬ (c = ' ' ∨ c = '\r' ∨ c = '\t') := not_isBlank_of_isWordChar h
  unfold first
  rw [alone?_of_isWordChar h]
  dsimp only
  rw [extensible?_of_isWordChar h]
  dsimp only
  rw [if_neg hslash, if_neg hblank, if_neg hnewline, if_neg hquote]

theorem first_of_isDigit {c : Char} (h : isDigit c = true) (rest : List Char) :
    first c rest = ofDigit c rest := by
  rw [first_of_isWordChar (isWordChar_of_isDigit h), if_pos h]

theorem first_of_isLetter {c : Char} (h : isLetter c = true) (rest : List Char) :
    first c rest =
      (token (word (String.ofList (c :: rest.takeWhile isWordChar))), rest.dropWhile isWordChar) := by
  have hdigit := isDigit_of_isLetter h
  rw [first_of_isWordChar (isWordChar_of_isLetter h), if_neg (by simp [hdigit]), if_pos h]

/-! ### Comments -/

/-- The body of a comment, which ends with the first `*/`. -/
theorem untilCommentEnd_of_not_infix {body : List Char} (h : ¬ ['*', '/'] <:+: body ++ ['*'])
    (rest : List Char) : untilCommentEnd (body ++ '*' :: '/' :: rest) = some (body, rest) := by
  induction body with
  | nil => rfl
  | cons c body ih =>
    have hbody : ¬ ['*', '/'] <:+: body ++ ['*'] := fun hi => h (hi.trans (List.suffix_cons c _).isInfix)
    have hne : ∀ after, c = '*' → body ++ '*' :: '/' :: rest = '/' :: after → False := by
      rintro after rfl heq
      cases body with
      | nil => cases heq
      | cons d body =>
        cases heq
        exact h ⟨[], body ++ ['*'], rfl⟩
    rw [List.cons_append, untilCommentEnd, ih hbody]
    · rfl
    · exact hne

theorem untilCommentEnd_eq_none {cs : List Char} :
    untilCommentEnd cs = none ↔ ¬ ['*', '/'] <:+: cs := by
  fun_induction untilCommentEnd cs with
  | case1 => simp
  | case2 rest =>
    simp only [reduceCtorEq, false_iff, Classical.not_not]
    exact ⟨[], rest, rfl⟩
  | case3 c rest hne ih =>
    rw [Option.map_eq_none_iff, ih, List.infix_cons_iff, not_or]
    refine ⟨fun h => ⟨?_, h⟩, fun h => h.2⟩
    rintro ⟨after, hafter⟩
    obtain ⟨rfl, hrest⟩ := List.cons.inj hafter
    exact hne after rfl hrest.symm

/-- What comes before the first `*/` holds no other, not even together with the star. -/
theorem not_infix_of_untilCommentEnd {cs body after : List Char}
    (h : untilCommentEnd cs = some (body, after)) : ¬ ['*', '/'] <:+: body ++ ['*'] := by
  fun_induction untilCommentEnd cs generalizing body after with
  | case1 => cases h
  | case2 rest =>
    cases h
    decide
  | case3 c rest hne ih =>
    obtain ⟨⟨b, a⟩, hb, hab⟩ := Option.map_eq_some_iff.1 h
    cases hab
    rw [List.cons_append, List.infix_cons_iff, not_or]
    refine ⟨?_, ih hb⟩
    rintro ⟨more, hmore⟩
    obtain ⟨rfl, hbody⟩ := List.cons.inj hmore
    have hrest := untilCommentEnd_eq hb
    cases b with
    | nil => cases hbody
    | cons d b =>
      cases hbody
      exact hne _ rfl hrest

/-! ### Numerals -/

section
variable {whole fraction rest : List Char}

/-- A numeral is divided by its only point. -/
theorem append_dot_inj {whole' fraction' : List Char} (h : ∀ c ∈ whole, isDigit c = true)
    (h' : ∀ c ∈ whole', isDigit c = true) {d : Char} (hd : isDigit d = false)
    (heq : whole ++ d :: fraction = whole' ++ '.' :: fraction') :
    whole = whole' ∧ d :: fraction = '.' :: fraction' := by
  have hhead : ∀ c, (d :: fraction).head? = some c → isDigit c = false := by
    rintro c ⟨⟩
    exact hd
  have hhead' : ∀ c, ('.' :: fraction').head? = some c → isDigit c = false := by
    rintro c ⟨⟩
    rfl
  exact append_inj_of_span h hhead h' hhead' heq

theorem IsDigits.append (h : IsDigits whole) {c : Char} (hc : isDigit c = true) :
    IsDigits (whole ++ [c]) := by
  refine ⟨by simp, fun d hd => ?_⟩
  rcases List.mem_append.1 hd with hd | hd
  · exact h.2 d hd
  · rw [List.mem_singleton.1 hd]
    exact hc

theorem longest_whole (h : IsDigits whole) :
    Longest IsNumeral whole rest ↔
      (∀ c, rest.head? = some c → isDigit c = false) ∧
        ∀ d after, rest = '.' :: d :: after → isDigit d = false := by
  constructor
  · rintro ⟨-, hlong⟩
    refine ⟨fun c hc => Bool.eq_false_iff.2 fun hdigit => ?_,
      fun d after hrest => Bool.eq_false_iff.2 fun hdigit => ?_⟩
    · exact hlong [c] (by simp) (prefix_of_head hc) (.inl (h.append hdigit))
    · refine hlong ['.', d] (by simp) ⟨after, hrest.symm⟩ (.inr ⟨whole, [d], h, ?_, rfl⟩)
      exact ⟨by simp, by simpa using hdigit⟩
  · rintro ⟨hhead, hdot⟩
    refine ⟨.inl h, fun more hmore hprefix hnumeral => ?_⟩
    obtain ⟨c, m, rfl⟩ := List.exists_cons_of_ne_nil hmore
    obtain ⟨after, rfl⟩ := hprefix
    have hc : isDigit c = false := hhead c rfl
    rcases hnumeral with hall | ⟨whole', fraction', hwhole', hfraction', heq⟩
    · have := hall.2 c (by simp)
      rw [hc] at this
      cases this
    · obtain ⟨-, hm⟩ := append_dot_inj h.2 hwhole'.2 hc heq
      cases hm
      obtain ⟨d, ds, rfl⟩ := List.exists_cons_of_ne_nil hfraction'.1
      have hd := hfraction'.2 d List.mem_cons_self
      rw [hdot d (ds ++ after) rfl] at hd
      cases hd

theorem longest_fraction (h : IsDigits whole) (hf : IsDigits fraction) :
    Longest IsNumeral (whole ++ '.' :: fraction) rest ↔
      ∀ c, rest.head? = some c → isDigit c = false := by
  constructor
  · rintro ⟨-, hlong⟩ c hc
    refine Bool.eq_false_iff.2 fun hdigit => ?_
    refine hlong [c] (by simp) (prefix_of_head hc)
      (.inr ⟨whole, fraction ++ [c], h, hf.append hdigit, ?_⟩)
    simp
  · intro hhead
    refine ⟨.inr ⟨whole, fraction, h, hf, rfl⟩, fun more hmore hprefix hnumeral => ?_⟩
    obtain ⟨c, m, rfl⟩ := List.exists_cons_of_ne_nil hmore
    obtain ⟨after, rfl⟩ := hprefix
    have hc : isDigit c = false := hhead c rfl
    rw [List.append_assoc, List.cons_append] at hnumeral
    rcases hnumeral with hall | ⟨whole', fraction', hwhole', hfraction', heq⟩
    · exact absurd (hall.2 '.' (by simp)) (by decide)
    · obtain ⟨-, hm⟩ := append_dot_inj h.2 hwhole'.2 rfl heq
      cases hm
      have := hfraction'.2 c (by simp)
      rw [hc] at this
      cases this

theorem toList_numeral_whole (whole : List Char) :
    (numeral whole []).lexeme.toList = whole := by
  simp [numeral, TokenKind.lexeme]

theorem toList_numeral_fraction (whole : List Char) (hf : fraction ≠ []) :
    (numeral whole fraction).lexeme.toList = whole ++ '.' :: fraction := by
  simp [numeral, TokenKind.lexeme, hf]

theorem ofDigit_whole {c : Char} {ds : List Char} (hds : ∀ d ∈ ds, isDigit d = true)
    (hhead : ∀ d, rest.head? = some d → isDigit d = false)
    (hdot : ∀ d after, rest = '.' :: d :: after → isDigit d = false) :
    ofDigit c (ds ++ rest) = (token (numeral (c :: ds) []), rest) := by
  obtain ⟨ht, hr⟩ := span_eq hds hhead
  unfold ofDigit
  rw [ht, hr]
  dsimp only
  split
  · rename_i d after
    rw [if_neg (by simp [hdot d after rfl])]
  · rfl

theorem ofDigit_fraction {c e : Char} {ds es : List Char} (hds : ∀ d ∈ ds, isDigit d = true)
    (hes : ∀ d ∈ e :: es, isDigit d = true)
    (hhead : ∀ d, rest.head? = some d → isDigit d = false) :
    ofDigit c (ds ++ '.' :: e :: es ++ rest) = (token (numeral (c :: ds) (e :: es)), rest) := by
  have he : isDigit e = true := hes e List.mem_cons_self
  have hdot : ∀ d, ('.' :: e :: (es ++ rest)).head? = some d → isDigit d = false := by
    rintro d ⟨⟩
    rfl
  obtain ⟨ht, hr⟩ := span_eq hds hdot
  obtain ⟨ht', hr'⟩ := span_eq (fun d hd => hes d (List.mem_cons_of_mem e hd)) hhead
  unfold ofDigit
  rw [List.append_assoc, List.cons_append, List.cons_append, ht, hr]
  show (if isDigit e = true then _ else _) = _
  rw [if_pos he, ht', hr']

end

/-! ### Words -/

theorem longest_word {c : Char} {ds rest : List Char} :
    Longest IsWord (c :: ds) rest ↔
      isLetter c = true ∧ (∀ d ∈ ds, isWordChar d = true) ∧
        ∀ d, rest.head? = some d → isWordChar d = false := by
  constructor
  · rintro ⟨⟨hc, hds⟩, hlong⟩
    refine ⟨hc, hds, fun d hd => Bool.eq_false_iff.2 fun hword => ?_⟩
    refine hlong [d] (by simp) (prefix_of_head hd) ⟨hc, fun e he => ?_⟩
    rcases List.mem_append.1 he with he | he
    · exact hds e he
    · rw [List.mem_singleton.1 he]
      exact hword
  · rintro ⟨hc, hds, hhead⟩
    refine ⟨⟨hc, hds⟩, fun more hmore hprefix hword => ?_⟩
    obtain ⟨d, m, rfl⟩ := List.exists_cons_of_ne_nil hmore
    obtain ⟨after, rfl⟩ := hprefix
    have hd : isWordChar d = true := hword.2 d (by simp)
    rw [hhead d rfl] at hd
    cases hd

theorem ofText?_eq_none {w : String} :
    Keyword.ofText? w = none ↔ ∀ k ∈ Keyword.all, k.text ≠ w := by
  simp [Keyword.ofText?]

theorem ofText?_text (k : Keyword) : Keyword.ofText? k.text = some k := by
  cases k <;> decide

end Segment
end LoxScript
