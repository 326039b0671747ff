import LoxScript.Token.Scan

/-!
Two texts, joined by a newline.

Nothing that the scanner takes goes on over a newline, except strings and block comments.  If the
first text leaves none of these open, the joined text is cut into the pieces of the first text, the
newline, and the pieces of the second.
-/

namespace LoxScript

namespace Segment

theorem takeWhile_seam {p : Char → Bool} (hp : p '\n' = false) (cs ds : List Char) :
    (cs ++ '\n' :: ds).takeWhile p = cs.takeWhile p := by
  induction cs with
  | nil => simp [hp]
  | cons c cs ih =>
    rw [List.cons_append, List.takeWhile_cons, List.takeWhile_cons, ih]

theorem dropWhile_seam {p : Char → Bool} (hp : p '\n' = false) (cs ds : List Char) :
    (cs ++ '\n' :: ds).dropWhile p = cs.dropWhile p ++ '\n' :: ds := by
  induction cs with
  | nil => simp [hp]
  | cons c cs ih =>
    rw [List.cons_append, List.dropWhile_cons, List.dropWhile_cons, ih]
    split <;> rfl

/-- What stops at a character of the first text does not depend on the second one. -/
theorem span_append {p : Char → Bool} {cs rest : List Char} {c : Char}
    (h : cs.dropWhile p = c :: rest) (ds : List Char) :
    (cs ++ ds).takeWhile p = cs.takeWhile p ∧ (cs ++ ds).dropWhile p = c :: (rest ++ ds) := by
  induction cs with
  | nil => cases h
  | cons d cs ih =>
    rw [List.cons_append, List.takeWhile_cons, List.takeWhile_cons, List.dropWhile_cons]
    rw [List.dropWhile_cons] at h
    split at h
    · rename_i hd
      obtain ⟨ht, hr⟩ := ih h
      rw [if_pos hd, if_pos hd, if_pos hd, ht, hr]
      exact ⟨rfl, rfl⟩
    · rename_i hd
      cases h
      rw [if_neg hd, if_neg hd, if_neg hd]
      exact ⟨rfl, rfl⟩

theorem untilCommentEnd_append {cs body after : List Char}
    (h : untilCommentEnd cs = some (body, after)) (ds : List Char) :
    untilCommentEnd (cs ++ ds) = some (body, after ++ ds) := by
  fun_induction untilCommentEnd cs generalizing body after with
  | case1 => cases h
  | case2 rest =>
    cases h
    rfl
  | case3 c rest hne ih =>
    obtain ⟨⟨b, a⟩, hb, hab⟩ := Option.map_eq_some_iff.1 h
    cases hab
    have hb' := ih hb
    rw [List.cons_append, untilCommentEnd, hb']
    · rfl
    · intro rest' hc hr
      subst hc
      cases rest with
      | nil => cases hb
      | cons d rest =>
        cases hr
        exact hne rest rfl rfl

/-- A piece with a rest to which the second text is added. -/
def join (r : Segment × List Char) (ds : List Char) : Segment × List Char :=
  (r.1, r.2 ++ '\n' :: ds)

theorem ofSlash_other {c : Char} (h₁ : c ≠ '/') (h₂ : c ≠ '*') (h₃ : c ≠ '=') (rest : List Char) :
    ofSlash (c :: rest) = (token (.symbol .slash), c :: rest) := by
  unfold ofSlash
  split
  · rename_i h
    exact absurd (List.cons.inj h).1 h₁
  · rename_i h
    exact absurd (List.cons.inj h).1 h₂
  · rename_i h
    exact absurd (List.cons.inj h).1 h₃
  · rfl

theorem ofSlash_join {cs : List Char} (h : (ofSlash cs).1.complaint? = none) (ds : List Char) :
    ofSlash (cs ++ '\n' :: ds) = join (ofSlash cs) ds := by
  cases cs with
  | nil => rfl
  | cons c rest =>
    by_cases h₁ : c = '/'
    · subst h₁
      simp only [List.cons_append, ofSlash, join, takeWhile_seam, dropWhile_seam, bne_self_eq_false]
    by_cases h₂ : c = '*'
    · subst h₂
      simp only [List.cons_append, ofSlash] at h ⊢
      cases hu : untilCommentEnd rest with
      | none =>
        rw [hu] at h
        cases h
      | some r =>
        rw [untilCommentEnd_append hu]
        rfl
    by_cases h₃ : c = '='
    · subst h₃
      rfl
    rw [List.cons_append, ofSlash_other h₁ h₂ h₃, ofSlash_other h₁ h₂ h₃]
    rfl

theorem ofQuote_join {cs : List Char} (h : (ofQuote cs).1.complaint? = none) (ds : List Char) :
    ofQuote (cs ++ '\n' :: ds) = join (ofQuote cs) ds := by
  unfold ofQuote at h ⊢
  cases hd : cs.dropWhile (· != '"') with
  | nil =>
    rw [hd] at h
    cases h
  | cons q after =>
    obtain ⟨ht, hr⟩ := span_append hd ('\n' :: ds)
    simp only [hr, ht]
    rfl

theorem ofDigit_join (c : Char) (cs ds : List Char) :
    ofDigit c (cs ++ '\n' :: ds) = join (ofDigit c cs) ds := by
  have hn : isDigit '\n' = false := by decide
  unfold ofDigit
  rw [takeWhile_seam hn, dropWhile_seam hn]
  generalize cs.dropWhile isDigit = rest
  cases rest with
  | nil => rfl
  | cons e after =>
    by_cases he : e = '.'
    · subst he
      cases after with
      | nil => rfl
      | cons d after =>
        simp only [List.cons_append]
        split
        · rw [takeWhile_seam hn, dropWhile_seam hn]
          rfl
        · rfl
    · have hne : ∀ d after' rest', e :: rest' ≠ '.' :: d :: after' :=
        fun _ _ _ h => he (List.cons.inj h).1
      rw [List.cons_append]
      split
      · exact absurd ‹_› (hne _ _ _)
      · split
        · exact absurd ‹_› (hne _ _ _)
        · rfl

theorem first_join {c : Char} {cs : List Char} (h : (first c cs).1.complaint? = none)
    (ds : List Char) : first c (cs ++ '\n' :: ds) = join (first c cs) ds := by
  have hn : isWordChar '\n' = false := by decide
  unfold first at h ⊢
  cases ha : Symbol.alone? c with
  | some s => rfl
  | none =>
    rw [ha] at h
    dsimp only at h ⊢
    cases he : Symbol.extensible? c with
    | some p =>
      obtain ⟨plain, extended⟩ := p
      dsimp only
      cases cs with
      | nil => rfl
      | cons d cs =>
        by_cases hd : d = '='
        · subst hd
          rfl
        · have hne : ∀ after rest', d :: rest' ≠ '=' :: after :=
            fun _ _ h => hd (List.cons.inj h).1
          rw [List.cons_append]
          split
          · exact absurd ‹_› (hne _ _)
          · split
            · exact absurd ‹_› (hne _ _)
            · rfl
    | none =>
      rw [he] at h
      dsimp only at h ⊢
      by_cases h₁ : c = '/'
      · rw [if_pos h₁] at h
        rw [if_pos h₁, if_pos h₁]
        exact ofSlash_join h ds
      rw [if_neg h₁] at h
      rw [if_neg h₁, if_neg h₁]
      by_cases h₂ : c = ' ' ∨ c = '\r' ∨ c = '\t'
      · rw [if_pos h₂, if_pos h₂]
        rfl
      rw [if_neg h₂] at h
      rw [if_neg h₂, if_neg h₂]
      by_cases h₃ : c = '\n'
      · rw [if_pos h₃, if_pos h₃]
        rfl
      rw [if_neg h₃] at h
      rw [if_neg h₃, if_neg h₃]
      by_cases h₄ : c = '"'
      · rw [if_pos h₄] at h
        rw [if_pos h₄, if_pos h₄]
        exact ofQuote_join h ds
      rw [if_neg h₄, if_neg h₄]
      split
      · exact ofDigit_join c cs ds
      · split
        · rw [takeWhile_seam hn, dropWhile_seam hn]
          rfl
        · rfl

end Segment

/-- The pieces of the joined text. -/
theorem segments_join {cs : List Char} (h : ∀ s ∈ segments cs, s.complaint? = none)
    (ds : List Char) : segments (cs ++ '\n' :: ds) = segments cs ++ .newline :: segments ds := by
  fun_induction segments cs with
  | case1 =>
    rw [List.nil_append, List.nil_append, segments]
    rfl
  | case2 c rest ih =>
    have hfirst := Segment.first_join (h _ List.mem_cons_self) ds
    rw [List.cons_append, segments, hfirst]
    exact congrArg (_ :: ·) (ih fun s hs => h s (List.mem_cons_of_mem _ hs))

/-! ### Pieces and their text -/

theorem Keyword.text_of_ofText? {word : String} {k : Keyword} (h : ofText? word = some k) :
    k.text = word := eq_of_beq (List.find?_some (p := fun k : Keyword => k.text == word) h)

namespace Symbol

theorem text_of_alone? {c : Char} {s : Symbol} (h : alone? c = some s) : s.text.toList = [c] := by
  unfold alone? at h
  split at h <;> cases h <;> rfl

theorem text_of_extensible? {c : Char} {plain extended : Symbol}
    (h : extensible? c = some (plain, extended)) :
    plain.text.toList = [c] ∧ extended.text.toList = [c, '='] := by
  unfold extensible? at h
  split at h <;> cases h <;> exact ⟨rfl, rfl⟩

end Symbol

namespace Segment

theorem text_ofSlash (cs : List Char) : (ofSlash cs).1.text ++ (ofSlash cs).2 = '/' :: cs := by
  unfold ofSlash
  split
  · rename_i rest
    simp [text]
  · rename_i rest
    split
    · rename_i hu
      simp [text, untilCommentEnd_eq hu]
    · simp [text]
  · rfl
  · rfl

theorem text_ofQuote (cs : List Char) : (ofQuote cs).1.text ++ (ofQuote cs).2 = '"' :: cs := by
  have hcut := List.takeWhile_append_dropWhile (p := (· != '"')) (l := cs)
  unfold ofQuote
  cases hd : cs.dropWhile (· != '"') with
  | nil =>
    rw [hd, List.append_nil] at hcut
    simp only [text, hcut, List.append_nil]
  | cons q after =>
    have hq : (q != '"') = false := by
      have := List.head?_dropWhile_not (· != '"') cs
      rw [hd] at this
      simpa using this
    have hq : q = '"' := by simpa using hq
    subst hq
    rw [hd] at hcut
    simp [text, TokenKind.lexeme, hcut]

theorem text_ofDigit (c : Char) (cs : List Char) :
    (ofDigit c cs).1.text ++ (ofDigit c cs).2 = c :: cs := by
  have hcut := List.takeWhile_append_dropWhile (p := isDigit) (l := cs)
  unfold ofDigit
  split
  · rename_i d after hd
    rw [hd] at hcut
    have hcut' := List.takeWhile_append_dropWhile (p := isDigit) (l := after)
    split
    · simp [text, TokenKind.lexeme, numeral, hcut', hcut]
    · simp [text, TokenKind.lexeme, numeral, hcut]
  · simp [text, TokenKind.lexeme, numeral, hcut]

theorem text_word (w : String) : (token (word w)).text = w.toList := by
  unfold word
  split
  · exact congrArg String.toList (Keyword.text_of_ofText? ‹_›)
  · rfl

theorem text_first (c : Char) (cs : List Char) :
    (first c cs).1.text ++ (first c cs).2 = c :: cs := by
  unfold first
  split
  · rename_i s hs
    exact congrArg (· ++ cs) (Symbol.text_of_alone? hs)
  · split
    · rename_i plain extended hs
      obtain ⟨hplain, hextended⟩ := Symbol.text_of_extensible? hs
      split
      · exact congrArg (· ++ _) hextended
      · exact congrArg (· ++ _) hplain
    · repeat' split
      · rename_i h
        rw [h]
        exact text_ofSlash cs
      · rfl
      · rename_i h
        rw [h]
        rfl
      · rename_i h
        rw [h]
        exact text_ofQuote cs
      · exact text_ofDigit c cs
      · simp [text_word]
      · rfl

end Segment

theorem text_segments (cs : List Char) : (segments cs).flatMap Segment.text = cs := by
  fun_induction segments cs with
  | case1 => rfl
  | case2 c rest ih => rw [List.flatMap_cons, ih, Segment.text_first]

end LoxScript
