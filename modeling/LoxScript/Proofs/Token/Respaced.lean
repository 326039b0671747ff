import LoxScript.Proofs.Token.Partition

/-!
Tokens with other gaps between them.

A string ends with its quote, and no other token goes on over a space.  So a token that is taken out
of a text still fits if a space follows it, and the tokens of any text, written one after the other
with gaps that begin with a space, are read as they were.
-/

namespace LoxScript
namespace Segment

/-! ### Tokens in front of a space -/

/-- A character between tokens: a blank or a newline. -/
def IsSpace (c : Char) : Prop := IsBlank c ∨ c = '\n'

/-- The text is empty, or it begins with a space. -/
def Breaks (rest : List Char) : Prop := ∀ c, rest.head? = some c → IsSpace c

theorem not_isSpace_of_isWordChar {c : Char} (h : isWordChar c = true) : ¬ IsSpace c := by
  rintro (hc | hc)
  · exact not_isBlank_of_isWordChar h hc
  · exact ne_of_isWordChar h (by decide) hc

theorem not_isSpace_of_symbol (s : Symbol) : ∀ c ∈ s.text.toList, ¬ IsSpace c := by
  unfold IsSpace IsBlank
  cases s <;> simp [Symbol.text]

theorem IsSymbol.not_isSpace {cs : List Char} (h : IsSymbol cs) : ∀ c ∈ cs, ¬ IsSpace c := by
  obtain ⟨s, rfl⟩ := h
  exact not_isSpace_of_symbol s

theorem IsDigits.not_isSpace {cs : List Char} (h : IsDigits cs) : ∀ c ∈ cs, ¬ IsSpace c :=
  fun c hc => not_isSpace_of_isWordChar (isWordChar_of_isDigit (h.2 c hc))

theorem IsNumeral.not_isSpace {cs : List Char} (h : IsNumeral cs) : ∀ c ∈ cs, ¬ IsSpace c := by
  rcases h with hdigits | ⟨whole, fraction, hwhole, hfraction, rfl⟩
  · exact hdigits.not_isSpace
  · intro c hc
    rcases List.mem_append.1 hc with hc | hc
    · exact hwhole.not_isSpace c hc
    · rcases List.mem_cons.1 hc with rfl | hc
      · unfold IsSpace IsBlank
        decide
      · exact hfraction.not_isSpace c hc

theorem IsWord.not_isSpace {cs : List Char} (h : IsWord cs) : ∀ c ∈ cs, ¬ IsSpace c := by
  cases cs with
  | nil => nofun
  | cons d ds =>
    intro c hc
    rcases List.mem_cons.1 hc with rfl | hc
    · exact not_isSpace_of_isWordChar (isWordChar_of_isLetter h.1)
    · exact not_isSpace_of_isWordChar (h.2 c hc)

/-- A text of characters other than spaces ends where a space begins. -/
theorem Longest.of_breaks {P : List Char → Prop} {lexeme rest rest' : List Char}
    (h : Longest P lexeme rest) (hP : ∀ cs, P cs → ∀ c ∈ cs, ¬ IsSpace c) (hrest : Breaks rest') :
    Longest P lexeme rest' := by
  refine ⟨h.holds, fun more hmore hprefix hlonger => ?_⟩
  obtain ⟨c, more, rfl⟩ := List.exists_cons_of_ne_nil hmore
  obtain ⟨after, rfl⟩ := hprefix
  exact hP _ hlonger c (by simp) (hrest c rfl)

/-- A token that fits somewhere fits in front of a space. -/
theorem Fits.of_breaks {kind : TokenKind} {rest rest' : List Char} (h : (token kind).Fits rest)
    (hrest : Breaks rest') : (token kind).Fits rest' := by
  cases kind with
  | symbol s =>
    refine ⟨h.1.of_breaks (fun _ => IsSymbol.not_isSpace) hrest, fun _ => ⟨?_, ?_⟩⟩
    · intro hslash
      exact absurd (hrest '/' hslash) (by unfold IsSpace IsBlank; decide)
    · intro hstar
      exact absurd (hrest '*' hstar) (by unfold IsSpace IsBlank; decide)
  | keyword k => exact Longest.of_breaks h (fun _ => IsWord.not_isSpace) hrest
  | identifier x => exact ⟨h.1.of_breaks (fun _ => IsWord.not_isSpace) hrest, h.2⟩
  | number text value => exact ⟨h.1.of_breaks (fun _ => IsNumeral.not_isSpace) hrest, h.2⟩
  | string text => exact h

/-- A kind of token that can be read from some text. -/
def IsReadable (kind : TokenKind) : Prop := ∃ rest, (token kind).Fits rest

end Segment

open Segment

theorem Cut.isReadable {cs : List Char} {ss : List Segment} (h : Cut cs ss) :
    ∀ kind ∈ ss.filterMap Segment.token?, IsReadable kind := by
  induction h with
  | nil => simp
  | @cons s rest ss hs _ ih =>
    intro kind hkind
    obtain ⟨t, ht, htoken⟩ := List.mem_filterMap.1 hkind
    rcases List.mem_cons.1 ht with rfl | ht
    · cases t with
      | token kind' =>
        cases htoken
        exact ⟨rest, hs⟩
      | _ => cases htoken
    · exact ih kind (List.mem_filterMap.2 ⟨t, ht, htoken⟩)

/-! ### Gaps -/

/-- Spaces and complete comments.  A line comment is complete with its newline, and the other kind
ends with the first `*/` behind its first two characters. -/
inductive Gap : List Char → Prop
  | nil : Gap []
  | space {c : Char} {gap : List Char} : IsSpace c → Gap gap → Gap (c :: gap)
  | lineComment {body gap : List Char} :
      '\n' ∉ body → Gap gap → Gap ('/' :: '/' :: (body ++ '\n' :: gap))
  | blockComment {body gap : List Char} :
      ¬ ['*', '/'] <:+: body ++ ['*'] → Gap gap → Gap ('/' :: '*' :: (body ++ '*' :: '/' :: gap))

/-- A gap that begins with a space. -/
structure Separator (gap : List Char) : Prop where
  isGap : Gap gap
  ne_nil : gap ≠ []
  breaks : Breaks gap

theorem Separator.breaks_append {gap : List Char} (h : Separator gap) (text : List Char) :
    Breaks (gap ++ text) := by
  obtain ⟨c, gap, rfl⟩ := List.exists_cons_of_ne_nil h.ne_nil
  exact h.breaks

/-- The pieces of a gap are no tokens and no mistakes. -/
theorem Gap.cut {gap text : List Char} {ss : List Segment} (h : Gap gap) (hcut : Cut text ss) :
    ∃ ps, Cut (gap ++ text) (ps ++ ss) ∧ ∀ p ∈ ps, p.token? = none ∧ p.complaint? = none := by
  induction h with
  | nil => exact ⟨[], hcut, nofun⟩
  | @space c gap hc _ ih =>
    obtain ⟨ps, hps, hnone⟩ := ih
    rcases hc with hc | rfl
    · exact ⟨.blank c :: ps, .cons (s := .blank c) hc hps,
        by simpa [token?, complaint?] using hnone⟩
    · exact ⟨.newline :: ps, .cons (s := .newline) trivial hps,
        by simpa [token?, complaint?] using hnone⟩
  | @lineComment body gap hbody _ ih =>
    obtain ⟨ps, hps, hnone⟩ := ih
    have hnewline : Cut ('\n' :: (gap ++ text)) (.newline :: (ps ++ ss)) :=
      .cons (s := .newline) trivial hps
    have hcomment := Cut.cons (s := .lineComment body) ⟨hbody, .inr rfl⟩ hnewline
    refine ⟨.lineComment body :: .newline :: ps, ?_, by simpa [token?, complaint?] using hnone⟩
    simpa [Segment.text] using hcomment
  | @blockComment body gap hbody _ ih =>
    obtain ⟨ps, hps, hnone⟩ := ih
    have hcomment := Cut.cons (s := .blockComment body) hbody hps
    refine ⟨.blockComment body :: ps, ?_, by simpa [token?, complaint?] using hnone⟩
    simpa [Segment.text] using hcomment

/-! ### Tokens and gaps -/

/-- The texts in their order, with a separator between each two of them. -/
inductive Spaced : List (List Char) → List Char → Prop
  | nil : Spaced [] []
  | last (cs : List Char) : Spaced [cs] cs
  | cons {cs ds sep text : List Char} {more : List (List Char)} :
      Separator sep → Spaced (ds :: more) text → Spaced (cs :: ds :: more) (cs ++ (sep ++ text))

/-- Tokens in front of spaces are the pieces of the text that are tokens. -/
theorem Spaced.cut {kinds : List TokenKind} {text : List Char}
    (h : Spaced (kinds.map (·.lexeme.toList)) text) (hkinds : ∀ kind ∈ kinds, IsReadable kind) :
    ∃ ss, Cut text ss ∧ ss.filterMap Segment.token? = kinds ∧ ∀ s ∈ ss, s.complaint? = none := by
  induction kinds generalizing text with
  | nil =>
    cases h
    exact ⟨[], .nil, rfl, nofun⟩
  | cons kind more ih =>
    obtain ⟨rest, hfits⟩ := hkinds kind List.mem_cons_self
    cases more with
    | nil =>
      cases h
      have hbreaks : Breaks [] := nofun
      have hcut := Cut.cons (hfits.of_breaks hbreaks) .nil
      rw [List.append_nil] at hcut
      exact ⟨_, hcut, rfl, by simp [complaint?]⟩
    | cons kind' more =>
      cases h with
      | @cons _ _ sep text _ hsep htext =>
        obtain ⟨ss, hcut, htokens, hcomplaints⟩ :=
          ih htext fun k hk => hkinds k (List.mem_cons_of_mem _ hk)
        obtain ⟨ps, hgap, hnone⟩ := hsep.isGap.cut hcut
        have hbreaks : Breaks (sep ++ text) := hsep.breaks_append text
        refine ⟨_, .cons (hfits.of_breaks hbreaks) hgap, ?_, ?_⟩
        · have hps : ps.filterMap Segment.token? = [] :=
            List.filterMap_eq_nil_iff.2 fun p hp => (hnone p hp).1
          simp only [List.filterMap_cons, token?, List.filterMap_append, hps, htokens,
            List.nil_append]
        · intro s hs
          rcases List.mem_cons.1 hs with rfl | hs
          · rfl
          · rcases List.mem_append.1 hs with hs | hs
            · exact (hnone s hs).2
            · exact hcomplaints s hs

theorem separator_cons {c : Char} {gap : List Char} (hc : IsSpace c) (hgap : Gap gap) :
    Separator (c :: gap) :=
  ⟨.space hc hgap, List.cons_ne_nil _ _, by rintro _ ⟨⟩; exact hc⟩

theorem spaced_intercalate (texts : List (List Char)) : Spaced texts ([' '].intercalate texts) := by
  induction texts with
  | nil => exact .nil
  | cons cs more ih =>
    cases more with
    | nil =>
      rw [List.intercalate_singleton]
      exact .last cs
    | cons ds more =>
      rw [List.intercalate_cons_cons, List.append_assoc]
      exact .cons (separator_cons (.inl (.inl rfl)) .nil) ih

namespace Scan

theorem kinds_place (line : Nat) (ss : List Segment) :
    (place line ss).tokens.map Token.kind = ss.filterMap Segment.token? := by
  induction ss generalizing line with
  | nil => rfl
  | cons s ss ih =>
    rw [place, List.map_append, ih, List.filterMap_cons]
    cases s.token? <;> rfl

theorem diagnostics_place {line : Nat} {ss : List Segment} (h : ∀ s ∈ ss, s.complaint? = none) :
    (place line ss).diagnostics = [] := by
  induction ss generalizing line with
  | nil => rfl
  | cons s ss ih =>
    rw [place, h s List.mem_cons_self, ih fun t ht => h t (List.mem_cons_of_mem s ht)]
    rfl

/-- The text is read as tokens of these kinds, without complaints; behind them comes the end of the
text on its last line. -/
structure ReadsAs (text : String) (kinds : List TokenKind) : Prop where
  kinds : (ofText text).tokens.map Token.kind = kinds
  diagnostics : (ofText text).diagnostics = []
  endLine : (ofText text).endLine = lastLine text.toList

theorem readsAs_of_spaced {kinds : List TokenKind} {text : String}
    (h : Spaced (kinds.map (·.lexeme.toList)) text.toList)
    (hkinds : ∀ kind ∈ kinds, IsReadable kind) : ReadsAs text kinds := by
  obtain ⟨ss, hcut, htokens, hcomplaints⟩ := h.cut hkinds
  obtain rfl := cut_iff.1 hcut
  have hplace := Scan.place_eq [] (segments text.toList)
  refine ⟨?_, diagnostics_place hcomplaints, ?_⟩
  · rw [ofText, kinds_place, htokens]
  · rw [ofText, show 1 = lastLine [] from rfl, hplace, List.nil_append, text_segments]

theorem isReadable (source : String) :
    ∀ kind ∈ (ofText source).tokens.map Token.kind, IsReadable kind := by
  rw [ofText, kinds_place]
  exact (cut_iff.2 rfl).isReadable

/-- The tokens of any text, also of one that is complained about, are read again from their lexemes,
whether there is one blank between each two of them or another separator. -/
theorem lexemes_readAgain (source : String) :
    ReadsAs (" ".intercalate ((ofText source).tokens.map Token.lexeme))
        ((ofText source).tokens.map Token.kind) ∧
      ∀ text : String, Spaced ((ofText source).tokens.map (·.lexeme.toList)) text.toList →
        ReadsAs text ((ofText source).tokens.map Token.kind) := by
  have hgeneral : ∀ text : String, Spaced ((ofText source).tokens.map (·.lexeme.toList))
      text.toList → ReadsAs text ((ofText source).tokens.map Token.kind) := by
    intro text htext
    refine readsAs_of_spaced ?_ (isReadable source)
    rwa [List.map_map]
  refine ⟨hgeneral _ ?_, hgeneral⟩
  rw [String.toList_intercalate, List.map_map]
  exact spaced_intercalate _

/-- A text with a mistake in its middle and a string that is not closed at its end.  Between its
tokens come a blank, a line comment, a comment that starts like one, and one that ends right
away. -/
theorem lexemes_readAgain_comments :
    Spaced ((ofText "1.5.x/@\"//\" \"").tokens.map (·.lexeme.toList))
        "1.5 .\t//.\nx /*/*/\n/ /**/\"//\"".toList ∧
      ReadsAs "1.5 .\t//.\nx /*/*/\n/ /**/\"//\""
        ((ofText "1.5.x/@\"//\" \"").tokens.map Token.kind) := by
  have hlexemes : (ofText "1.5.x/@\"//\" \"").tokens.map (·.lexeme.toList) =
      ["1.5".toList, ".".toList, "x".toList, "/".toList, "\"//\"".toList] := by
    with_unfolding_all rfl
  have hblank : IsSpace ' ' := .inl (.inl rfl)
  have htab : IsSpace '\t' := .inl (.inr (.inr rfl))
  have hnewline : IsSpace '\n' := .inr rfl
  have hline : Gap "//.\n".toList := by
    have hbody : '\n' ∉ ['.'] := by decide
    exact .lineComment hbody .nil
  have hslash : Gap "/*/*/\n".toList := by
    have hbody : ¬ ['*', '/'] <:+: ['/'] ++ ['*'] := by decide
    exact .blockComment hbody (.space hnewline .nil)
  have hempty : Gap "/**/".toList := by
    have hbody : ¬ ['*', '/'] <:+: [] ++ ['*'] := by decide
    exact .blockComment hbody .nil
  have hspaced : Spaced ((ofText "1.5.x/@\"//\" \"").tokens.map (·.lexeme.toList))
      "1.5 .\t//.\nx /*/*/\n/ /**/\"//\"".toList := by
    rw [hlexemes]
    exact .cons (separator_cons hblank .nil) (.cons (separator_cons htab hline)
      (.cons (separator_cons hblank hslash) (.cons (separator_cons hblank hempty) (.last _))))
  exact ⟨hspaced, (lexemes_readAgain _).2 _ hspaced⟩

end Scan
end LoxScript
