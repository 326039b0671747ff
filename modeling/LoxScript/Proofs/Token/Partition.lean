import LoxScript.Proofs.Token.Piece

/-!
Texts as rows of pieces.

There is one way only to cut a text into pieces that fit what follows them, and the scanner finds
it.  The tokens and the complaints of a text are those of its pieces, each on the line on which its
piece ends.
-/

namespace LoxScript
namespace Segment

/-! ### The first piece of a text -/

/-- The piece that is taken first fits what is left. -/
theorem fits_ofSlash (rest : List Char) : (ofSlash rest).1.Fits (ofSlash rest).2 := by
  unfold ofSlash
  split
  · rename_i rest
    refine ⟨fun h => ?_, ?_⟩
    · have := of_mem_takeWhile h
      simp at this
    · cases hd : rest.dropWhile (· != '\n') with
      | nil => exact .inl rfl
      | cons d after =>
        have hhead : (rest.dropWhile (· != '\n')).head? = some d := by
          rw [hd]
          rfl
        have hd' : d = '\n' := by simpa using head?_dropWhile hhead
        exact .inr (congrArg some hd')
  · split
    · exact not_infix_of_untilCommentEnd ‹_›
    · exact ⟨untilCommentEnd_eq_none.1 ‹_›, rfl⟩
  · refine ⟨⟨⟨_, rfl⟩, fun more hmore _ h => ?_⟩, nofun⟩
    rcases isSymbol_cons.1 h with ⟨h, -⟩ | ⟨h, -⟩
    · cases h
    · exact hmore (List.cons.inj h).2
  · rename_i hslash hstar hequal
    refine ⟨⟨⟨_, rfl⟩, fun more hmore hprefix h => ?_⟩, fun _ => ⟨fun h => ?_, fun h => ?_⟩⟩
    · rcases isSymbol_cons.1 h with ⟨h, -⟩ | ⟨h, -⟩
      · exact hmore h
      · obtain ⟨after, rfl⟩ := hprefix
        exact hequal after (by rw [show more = ['='] from h]; rfl)
    · obtain ⟨after, hafter⟩ := prefix_of_head h
      exact hslash after hafter.symm
    · obtain ⟨after, hafter⟩ := prefix_of_head h
      exact hstar after hafter.symm

theorem fits_ofQuote (rest : List Char) : (ofQuote rest).1.Fits (ofQuote rest).2 := by
  have hbody : '"' ∉ rest.takeWhile (· != '"') := by
    intro h
    have := of_mem_takeWhile h
    simp at this
  unfold ofQuote
  split
  · exact ⟨hbody, rfl⟩
  · show '"' ∉ (String.ofList _).toList
    rw [String.toList_ofList]
    exact hbody

theorem fits_ofDigit {c : Char} (hc : isDigit c = true) (rest : List Char) :
    (ofDigit c rest).1.Fits (ofDigit c rest).2 := by
  have hds : ∀ d ∈ rest.takeWhile isDigit, isDigit d = true := fun _ => of_mem_takeWhile
  have hwhole : IsDigits (c :: rest.takeWhile isDigit) := by
    refine ⟨by simp, fun d hd => ?_⟩
    rcases List.mem_cons.1 hd with rfl | hd
    · exact hc
    · exact hds d hd
  have hhead : ∀ d, (rest.dropWhile isDigit).head? = some d → isDigit d = false :=
    fun _ => head?_dropWhile
  unfold ofDigit
  split
  · rename_i d after hrest
    split
    · rename_i hd
      have hfraction : IsDigits (d :: after.takeWhile isDigit) := by
        refine ⟨by simp, fun e he => ?_⟩
        rcases List.mem_cons.1 he with rfl | he
        · exact hd
        · exact of_mem_takeWhile he
      refine ⟨?_, _, _, hwhole, hfraction.2, rfl⟩
      have htext := toList_numeral_fraction (c :: rest.takeWhile isDigit) hfraction.1
      rw [show (String.ofList _).toList = _ from htext, longest_fraction hwhole hfraction]
      exact fun _ => head?_dropWhile
    · rename_i hd
      refine ⟨?_, _, _, hwhole, by simp, rfl⟩
      have htext := toList_numeral_whole (c :: rest.takeWhile isDigit)
      rw [show (String.ofList _).toList = _ from htext, longest_whole hwhole]
      refine ⟨?_, fun e after' h => ?_⟩
      · rintro e ⟨⟩
        rfl
      · cases h
        simpa using hd
  · rename_i hdot
    refine ⟨?_, _, _, hwhole, by simp, rfl⟩
    have htext := toList_numeral_whole (c :: rest.takeWhile isDigit)
    rw [show (String.ofList _).toList = _ from htext, longest_whole hwhole]
    exact ⟨hhead, fun d after h => absurd h (hdot d after)⟩

theorem fits_word {c : Char} (hc : isLetter c = true) (rest : List Char) :
    (token (word (String.ofList (c :: rest.takeWhile isWordChar)))).Fits
      (rest.dropWhile isWordChar) := by
  have hlongest : Longest IsWord (c :: rest.takeWhile isWordChar) (rest.dropWhile isWordChar) :=
    longest_word.2 ⟨hc, fun _ => of_mem_takeWhile, fun _ => head?_dropWhile⟩
  unfold word
  split
  · rename_i k hk
    have htext : k.text = String.ofList (c :: rest.takeWhile isWordChar) :=
      Keyword.text_of_ofText? hk
    show Longest IsWord k.text.toList _
    rw [htext, String.toList_ofList]
    exact hlongest
  · rename_i hk
    refine ⟨?_, ofText?_eq_none.1 hk⟩
    rw [String.toList_ofList]
    exact hlongest

theorem fits_alone {c : Char} {s : Symbol} (h : Symbol.alone? c = some s) (rest : List Char) :
    (token (.symbol s)).Fits rest := by
  have htext := Symbol.text_of_alone? h
  have hnone : Symbol.extensible? c = none ∧ c ≠ '/' ∧ s ≠ .slash := by
    unfold Symbol.alone? at h
    split at h <;> cases h <;> decide
  refine ⟨⟨⟨s, rfl⟩, fun more hmore _ hsymbol => ?_⟩, fun hs => absurd hs hnone.2.2⟩
  rw [htext] at hsymbol
  rcases isSymbol_cons.1 hsymbol with ⟨h, -⟩ | ⟨-, h | h⟩
  · exact hmore h
  · rw [hnone.1] at h
    cases h
  · exact hnone.2.1 h

theorem fits_plain {c : Char} {s extended : Symbol}
    (h : Symbol.extensible? c = some (s, extended)) {rest : List Char}
    (hrest : ∀ after, rest ≠ '=' :: after) : (token (.symbol s)).Fits rest := by
  have htext := (Symbol.text_of_extensible? h).1
  have hslash : s ≠ .slash := by
    unfold Symbol.extensible? at h
    split at h <;> cases h <;> decide
  refine ⟨⟨⟨s, rfl⟩, fun more hmore hprefix hsymbol => ?_⟩, fun hs => absurd hs hslash⟩
  rw [htext] at hsymbol
  rcases isSymbol_cons.1 hsymbol with ⟨h, -⟩ | ⟨h, -⟩
  · exact hmore h
  · obtain ⟨after, rfl⟩ := hprefix
    rw [show more = ['='] from h] at hrest
    exact hrest after rfl

theorem fits_extended {c : Char} {plain s : Symbol}
    (h : Symbol.extensible? c = some (plain, s)) (rest : List Char) :
    (token (.symbol s)).Fits rest := by
  have htext := (Symbol.text_of_extensible? h).2
  have hslash : s ≠ .slash := by
    unfold Symbol.extensible? at h
    split at h <;> cases h <;> decide
  refine ⟨⟨⟨s, rfl⟩, fun more hmore _ hsymbol => ?_⟩, fun hs => absurd hs hslash⟩
  rw [htext] at hsymbol
  rcases isSymbol_cons.1 hsymbol with ⟨h, -⟩ | ⟨h, -⟩
  · cases h
  · exact hmore (List.cons.inj h).2

theorem fits_first (c : Char) (rest : List Char) : (first c rest).1.Fits (first c rest).2 := by
  unfold first
  split
  · exact fits_alone ‹_› rest
  · rename_i halone
    split
    · split
      · exact fits_extended ‹_› _
      · exact fits_plain ‹_› ‹_›
    · rename_i hextensible
      by_cases hslash : c = '/'
      · rw [if_pos hslash]
        exact fits_ofSlash rest
      rw [if_neg hslash]
      by_cases hblank : c = ' ' ∨ c = '\r' ∨ c = '\t'
      · rw [if_pos hblank]
        exact hblank
      rw [if_neg hblank]
      by_cases hnewline : c = '\n'
      · rw [if_pos hnewline]
        trivial
      rw [if_neg hnewline]
      by_cases hquote : c = '"'
      · rw [if_pos hquote]
        exact fits_ofQuote rest
      rw [if_neg hquote]
      by_cases hdigit : isDigit c = true
      · rw [if_pos hdigit]
        exact fits_ofDigit hdigit rest
      rw [if_neg hdigit]
      by_cases hletter : isLetter c = true
      · rw [if_pos hletter]
        exact fits_word hletter rest
      rw [if_neg hletter]
      refine ⟨hblank, hnewline, hquote, by simpa using hdigit, by simpa using hletter, ?_⟩
      intro s hs
      obtain ⟨more, hmore⟩ := prefix_of_head hs
      have hsymbol : IsSymbol (c :: more) := ⟨s, hmore.symm⟩
      rw [isSymbol_cons, halone, hextensible] at hsymbol
      simp [hslash] at hsymbol

/-! ### Only the first piece fits -/

theorem first_slash (rest : List Char) : first '/' rest = ofSlash rest := rfl

theorem first_quote (rest : List Char) : first '"' rest = ofQuote rest := rfl

theorem first_of_symbol {s : Symbol} {rest : List Char} (h : (token (.symbol s)).Fits rest)
    {c : Char} {cs : List Char} (heq : s.text.toList ++ rest = c :: cs) :
    first c cs = (token (.symbol s), rest) := by
  obtain ⟨⟨-, hlong⟩, hcomment⟩ := h
  rcases symbol_cases s with ⟨d, hs⟩ | ⟨d, extended, hs⟩ | ⟨d, plain, hs⟩ | rfl | rfl
  · rw [Symbol.text_of_alone? hs, List.singleton_append] at heq
    obtain ⟨rfl, rfl⟩ := List.cons.inj heq
    unfold first
    rw [hs]
  · obtain ⟨htext, hextended⟩ := Symbol.text_of_extensible? hs
    rw [htext] at heq hlong
    rw [List.singleton_append] at heq
    obtain ⟨rfl, rfl⟩ := List.cons.inj heq
    have hnone : Symbol.alone? d = none := by
      unfold Symbol.extensible? at hs
      split at hs <;> cases hs <;> rfl
    unfold first
    rw [hnone]
    dsimp only
    rw [hs]
    dsimp only
    split
    · rename_i after
      exact absurd ⟨extended, hextended⟩ (hlong ['='] (by simp) ⟨after, rfl⟩)
    · rfl
  · rw [(Symbol.text_of_extensible? hs).2] at heq
    obtain ⟨rfl, rfl⟩ := List.cons.inj heq
    have hnone : Symbol.alone? d = none := by
      unfold Symbol.extensible? at hs
      split at hs <;> cases hs <;> rfl
    unfold first
    rw [hnone]
    dsimp only
    rw [hs]
    rfl
  · have heq : '/' :: rest = c :: cs := heq
    obtain ⟨rfl, rfl⟩ := List.cons.inj heq
    obtain ⟨hslash, hstar⟩ := hcomment rfl
    rw [first_slash]
    unfold ofSlash
    split
    · exact absurd rfl hslash
    · exact absurd rfl hstar
    · rename_i after _
      exact absurd ⟨.slashEqual, rfl⟩ (hlong ['='] (by simp) ⟨after, rfl⟩)
    · rfl
  · obtain ⟨rfl, rfl⟩ := List.cons.inj heq
    rfl

theorem first_of_number {text : String} {value : Float} {rest : List Char}
    (h : (token (.number text value)).Fits rest) {c : Char} {cs : List Char}
    (heq : text.toList ++ rest = c :: cs) : first c cs = (token (.number text value), rest) := by
  obtain ⟨hlong, whole, fraction, hwhole, hfraction, hnumeral⟩ := h
  have htext : text.toList = (numeral whole fraction).lexeme.toList := by
    rw [← hnumeral]
    rfl
  obtain ⟨d, ds, rfl⟩ := List.exists_cons_of_ne_nil hwhole.1
  have hds : ∀ e ∈ ds, isDigit e = true := fun e he => hwhole.2 e (List.mem_cons_of_mem d he)
  rw [hnumeral]
  cases fraction with
  | nil =>
    rw [toList_numeral_whole] at htext
    rw [htext] at heq hlong
    obtain ⟨hhead, hdot⟩ := (longest_whole hwhole).1 hlong
    obtain ⟨rfl, rfl⟩ := List.cons.inj heq
    rw [first_of_isDigit (hwhole.2 d List.mem_cons_self)]
    exact ofDigit_whole hds hhead hdot
  | cons e es =>
    rw [toList_numeral_fraction _ (List.cons_ne_nil e es)] at htext
    rw [htext] at heq hlong
    have hhead := (longest_fraction hwhole ⟨List.cons_ne_nil e es, hfraction⟩).1 hlong
    obtain ⟨rfl, rfl⟩ := List.cons.inj heq
    rw [first_of_isDigit (hwhole.2 d List.mem_cons_self)]
    exact ofDigit_fraction hds hfraction hhead

theorem first_of_word {w : String} {rest : List Char} (h : Longest IsWord w.toList rest) {c : Char}
    {cs : List Char} (heq : w.toList ++ rest = c :: cs) :
    first c cs = (token (word w), rest) := by
  generalize hw : w.toList = ws at h heq
  cases ws with
  | nil => exact absurd h.holds id
  | cons d ds =>
    obtain ⟨hd, hds, hhead⟩ := longest_word.1 h
    rw [List.cons_append] at heq
    obtain ⟨rfl, rfl⟩ := List.cons.inj heq
    obtain ⟨ht, hr⟩ := span_eq hds hhead
    rw [first_of_isLetter hd, ht, hr, ← hw, String.ofList_toList]

theorem word_of_identifier {x : String} (h : ∀ k ∈ Keyword.all, k.text ≠ x) :
    word x = .identifier x := by
  unfold word
  rw [ofText?_eq_none.2 h]

theorem word_of_keyword (k : Keyword) : word k.text = .keyword k := by
  unfold word
  rw [ofText?_text]

theorem first_of_isForeign {c : Char} (h : IsForeign c) (rest : List Char) :
    first c rest = (unexpected c, rest) := by
  obtain ⟨hblank, hnewline, hquote, hdigit, hletter, hsymbol⟩ := h
  have hnone : ¬ IsSymbol [c] := by
    rintro ⟨s, hs⟩
    exact hsymbol s (by rw [hs]; rfl)
  rw [isSymbol_cons] at hnone
  simp only [true_and, false_and, or_false, not_or, Option.not_isSome_iff_eq_none,
    reduceCtorEq] at hnone
  obtain ⟨halone, hextensible, hslash⟩ := hnone
  have hblank : ¬ (c = ' ' ∨ c = '\r' ∨ c = '\t') := hblank
  unfold first
  rw [halone]
  dsimp only
  rw [hextensible]
  dsimp only
  rw [if_neg hslash, if_neg hblank, if_neg hnewline, if_neg hquote, if_neg (by simp [hdigit]),
    if_neg (by simp [hletter])]

theorem quoted_span {body rest : List Char} (h : '"' ∉ body)
    (hrest : ∀ c, rest.head? = some c → c = '"') :
    (body ++ rest).takeWhile (· != '"') = body ∧ (body ++ rest).dropWhile (· != '"') = rest := by
  refine span_eq (fun c hc => ?_) fun c hc => ?_
  · have hne : c ≠ '"' := fun heq => h (heq ▸ hc)
    simpa using hne
  · simp [hrest c hc]

theorem first_of_fits {s : Segment} {rest : List Char} (h : s.Fits rest) {c : Char}
    {cs : List Char} (heq : s.text ++ rest = c :: cs) : first c cs = (s, rest) := by
  cases s with
  | blank d =>
    obtain ⟨rfl, rfl⟩ := List.cons.inj heq
    rcases h with rfl | rfl | rfl <;> rfl
  | newline =>
    obtain ⟨rfl, rfl⟩ := List.cons.inj heq
    rfl
  | lineComment body =>
    have heq : '/' :: '/' :: (body ++ rest) = c :: cs := heq
    obtain ⟨rfl, rfl⟩ := List.cons.inj heq
    obtain ⟨hbody, hrest⟩ := h
    have hspan : (body ++ rest).takeWhile (· != '\n') = body ∧
        (body ++ rest).dropWhile (· != '\n') = rest := by
      refine span_eq (fun c hc => ?_) fun c hc => ?_
      · have hne : c ≠ '\n' := fun heq => hbody (heq ▸ hc)
        simpa using hne
      · rcases hrest with rfl | hrest
        · cases hc
        · rw [hrest] at hc
          cases hc
          rfl
    show (lineComment _, _) = _
    rw [hspan.1, hspan.2]
  | blockComment body =>
    have htext : (blockComment body).text ++ rest = '/' :: '*' :: (body ++ '*' :: '/' :: rest) := by
      simp [Segment.text]
    rw [htext] at heq
    obtain ⟨rfl, rfl⟩ := List.cons.inj heq
    rw [first_slash, ofSlash, untilCommentEnd_of_not_infix h rest]
  | token kind =>
    cases kind with
    | symbol s => exact first_of_symbol h heq
    | keyword k => rw [first_of_word h heq, word_of_keyword]
    | identifier x => rw [first_of_word h.1 heq, word_of_identifier h.2]
    | number text value => exact first_of_number h heq
    | string text =>
      have hbody : '"' ∉ text.toList := h
      have htext : (token (.string text)).text ++ rest = '"' :: (text.toList ++ '"' :: rest) := by
        simp [Segment.text, TokenKind.lexeme]
      rw [htext] at heq
      obtain ⟨rfl, rfl⟩ := List.cons.inj heq
      obtain ⟨ht, hr⟩ := @quoted_span text.toList ('"' :: rest) hbody (by rintro c ⟨⟩; rfl)
      rw [first_quote]
      unfold ofQuote
      rw [ht, hr]
      dsimp only
      rw [String.ofList_toList]
  | unexpected d =>
    obtain ⟨rfl, rfl⟩ := List.cons.inj heq
    exact first_of_isForeign h rest
  | unterminatedString body =>
    obtain ⟨hbody, rfl⟩ := h
    have heq : '"' :: (body ++ []) = c :: cs := heq
    obtain ⟨rfl, rfl⟩ := List.cons.inj heq
    obtain ⟨ht, hr⟩ := @quoted_span body [] hbody (by simp)
    rw [first_quote]
    unfold ofQuote
    rw [ht, hr]
  | unterminatedComment body =>
    obtain ⟨hbody, rfl⟩ := h
    rw [List.append_nil] at heq
    obtain ⟨rfl, rfl⟩ := List.cons.inj heq
    rw [first_slash, ofSlash, untilCommentEnd_eq_none.2 hbody]

end Segment

/-! ### Whole texts -/

/-- The text cut into pieces, each of which fits what follows it. -/
inductive Cut : List Char → List Segment → Prop
  | nil : Cut [] []
  | cons {s : Segment} {rest : List Char} {ss : List Segment} :
      s.Fits rest → Cut rest ss → Cut (s.text ++ rest) (s :: ss)

theorem Segment.text_ne_nil {s : Segment} {rest : List Char} (h : s.Fits rest) : s.text ≠ [] := by
  cases s with
  | token kind =>
    cases kind with
    | symbol s => cases s <;> decide
    | keyword k => cases k <;> decide
    | identifier x =>
      intro hx
      exact absurd (hx ▸ h.1.holds : Segment.IsWord []) id
    | number text value =>
      intro htext
      obtain ⟨⟨hholds, -⟩, -⟩ := h
      rw [show text.toList = [] from htext] at hholds
      rcases hholds with hdigits | ⟨_, _, _, _, hnil⟩
      · exact hdigits.1 rfl
      · simp at hnil
    | string text => simp [Segment.text, TokenKind.lexeme]
  | _ => simp [Segment.text]

/-- There is one way to cut a text, the scanner's. -/
theorem cut_iff {cs : List Char} {ss : List Segment} : Cut cs ss ↔ ss = segments cs := by
  constructor
  · intro h
    induction h with
    | nil => rw [segments]
    | @cons s rest ss hs _ ih =>
      obtain ⟨c, ds, hds⟩ := List.exists_cons_of_ne_nil
        (List.append_ne_nil_of_left_ne_nil (Segment.text_ne_nil hs) rest)
      rw [hds, segments, Segment.first_of_fits hs hds, ← ih]
  · rintro rfl
    fun_induction segments cs with
    | case1 => exact .nil
    | case2 c rest ih =>
      have hcut := Cut.cons (Segment.fits_first c rest) ih
      rwa [Segment.text_first] at hcut

/-- A string or a comment that is not closed takes all that is left. -/
theorem Cut.closed {cs : List Char} {ss : List Segment} (h : Cut cs ss) :
    ∀ s ∈ ss.dropLast, s.complaint? = none ∨ ∃ c, s = .unexpected c := by
  induction h with
  | nil => simp
  | @cons s rest ss hs hcut ih =>
    cases hcut with
    | nil => simp
    | @cons s' rest' ss' hs' hcut' =>
      have hrest : s'.text ++ rest' ≠ [] :=
        List.append_ne_nil_of_left_ne_nil (Segment.text_ne_nil hs') rest'
      intro t ht
      rw [List.dropLast_cons_cons, List.mem_cons] at ht
      rcases ht with rfl | ht
      · cases t with
        | unexpected c => exact .inr ⟨c, rfl⟩
        | unterminatedString body => exact absurd hs.2 hrest
        | unterminatedComment body => exact absurd hs.2 hrest
        | _ => exact .inl rfl
      · exact ih t ht

/-- Pieces, each with the text from the beginning up to its end. -/
def Segment.ends (before : List Char) : List Segment → List (Segment × List Char)
  | [] => []
  | s :: ss => (s, before ++ s.text) :: ends (before ++ s.text) ss

/-- The number of the line on which a text ends. -/
def lastLine (cs : List Char) : Nat := 1 + cs.count '\n'

theorem lastLine_append (before : List Char) (s : Segment) :
    lastLine (before ++ s.text) = lastLine before + s.newlines := by
  unfold lastLine Segment.newlines
  rw [List.count_append]
  omega

theorem Scan.place_eq (before : List Char) (ss : List Segment) :
    Scan.place (lastLine before) ss =
      { tokens := (Segment.ends before ss).filterMap fun p => p.1.token?.map (⟨·, lastLine p.2⟩)
        endLine := lastLine (before ++ ss.flatMap Segment.text)
        diagnostics := (Segment.ends before ss).filterMap fun p =>
          p.1.complaint?.map (Diagnostic.onLine (lastLine p.2)) } := by
  induction ss generalizing before with
  | nil => simp [place, Segment.ends]
  | cons s ss ih =>
    rw [place, ← lastLine_append, ih]
    simp only [Segment.ends, List.filterMap_cons, List.flatMap_cons, List.append_assoc]
    cases s.token? <;> cases s.complaint? <;> rfl

/-- A text is cut, in one way only, into pieces that fit; put together again they are the text.  Its
tokens are those of the pieces, and its complaints those about pieces, in their order, each with
the number of newlines up to the end of the piece, plus one.  All pieces but the last are closed. -/
theorem Scan.ofText_cut (source : String) :
    ∃ ss : List Segment, (∀ ss', Cut source.toList ss' ↔ ss' = ss) ∧
      ss.flatMap Segment.text = source.toList ∧
      (∀ s ∈ ss.dropLast, s.complaint? = none ∨ ∃ c, s = .unexpected c) ∧
      (ofText source).tokens =
        (Segment.ends [] ss).filterMap (fun p => p.1.token?.map (⟨·, lastLine p.2⟩)) ∧
      (ofText source).diagnostics = (Segment.ends [] ss).filterMap (fun p =>
        p.1.complaint?.map (Diagnostic.onLine (lastLine p.2))) ∧
      (ofText source).endLine = lastLine source.toList := by
  have hplace := Scan.place_eq [] (segments source.toList)
  have htext := text_segments source.toList
  rw [List.nil_append, htext] at hplace
  have hscan : ofText source = place (lastLine []) (segments source.toList) := rfl
  have hcut : Cut source.toList (segments source.toList) := cut_iff.2 rfl
  refine ⟨segments source.toList, fun ss' => cut_iff, htext, hcut.closed, ?_⟩
  rw [hscan, hplace]
  exact ⟨rfl, rfl, rfl⟩

end LoxScript
