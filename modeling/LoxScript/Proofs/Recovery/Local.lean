import LoxScript.Proofs.Joined.Reading
import LoxScript.Proofs.Recovery.Resuming

/-!
Mistakes stay where they are made.

Tokens without `for` and braces that end in a semicolon are read in the same way whatever follows
them, however badly they are formed.  A reader that goes on for good only with a semicolon behind it
leaves the last semicolon, or fails in front of it; recovery stops behind it at the latest.
-/

namespace LoxScript

/-- Neither `for` nor a brace is among the tokens, and the last one, if any, is a semicolon. -/
structure Confined (ts : List Token) : Prop where
  plain : ∀ t ∈ ts, t.kind ≠ .keyword .for_ ∧ t.kind ≠ .symbol .leftBrace ∧
    t.kind ≠ .symbol .rightBrace
  ended : ∀ t ∈ ts.getLast?, t.kind = .symbol .semicolon

/-- A semicolon is still to come. -/
structure Open (ts : List Token) : Prop extends Confined ts where
  ne_nil : ts ≠ []

namespace Confined
variable {t : Token} {ts rest : List Token}

theorem of_suffix (h : Confined ts) (hs : rest <:+ ts) : Confined rest := by
  obtain ⟨read, rfl⟩ := hs
  refine ⟨fun t ht => h.plain t (List.mem_append_right read ht), fun t ht => h.ended t ?_⟩
  rw [List.getLast?_append, ht, Option.some_or]
  rfl

theorem tail (h : Confined (t :: rest)) : Confined rest := h.of_suffix (List.suffix_cons t rest)

/-- What is no semicolon is not the last token. -/
theorem open_tail (h : Confined (t :: rest)) (ht : t.kind ≠ .symbol .semicolon) : Open rest := by
  refine ⟨h.tail, ?_⟩
  rintro rfl
  exact ht (h.ended t rfl)

end Confined

theorem skipStatement_append {last : Token} {ts : List Token} (more : List Token)
    (h : Confined ts) (hlast : ts = [] → last.kind = .symbol .semicolon) :
    skipStatement last (ts ++ more) = skipStatement last ts ++ more := by
  fun_induction skipStatement last ts with
  | case1 last =>
    cases more with
    | nil => rfl
    | cons u more => exact if_pos (.inl (hlast rfl))
  | case2 last t rest hstop => exact if_pos hstop
  | case3 last t rest hstop ih =>
    rw [List.cons_append, skipStatement, if_neg hstop]
    refine ih h.tail fun hrest => h.ended t ?_
    rw [hrest]
    rfl

theorem synchronize_append {ts : List Token} (more : List Token) (h : Open ts) :
    synchronize (ts ++ more) = synchronize ts ++ more := by
  cases ts with
  | nil => exact absurd rfl h.ne_nil
  | cons t rest =>
    refine skipStatement_append more h.tail fun hrest => h.ended t ?_
    rw [hrest]
    rfl

namespace Parsed

/-- With more tokens behind, the same comes of reading, and they are left as well.  What a value
leaves satisfies `L`; a failure leaves a semicolon still to come. -/
def Stays {α : Type} {a b : Bool} {ts us : List Token} (more : List Token) (L : List Token → Prop)
    (p : Parsed a ts α) (q : Parsed b us α) : Prop :=
  match p with
  | ok v rest _ notes => L rest ∧ ∃ h, q = ok v (rest ++ more) h notes
  | failed rest _ notes _ => Open rest ∧ ∃ h c, q = failed (rest ++ more) h notes c

section
variable {a b : Bool} {ts us more : List Token} {α β : Type} {L L' : List Token → Prop}

theorem stays_done (more : List Token) (v : α) (h : L ts) :
    (done v ts).Stays more L (done v (ts ++ more)) := ⟨h, .refl _, rfl⟩

theorem stays_fail (more : List Token) (m : Mistake) (n : Nat) (h : Open ts) :
    (fail m n ts : Parsed a ts α).Stays more L
      (fail m n (ts ++ more) : Parsed b (ts ++ more) α) := by
  cases ts with
  | nil => exact absurd rfl h.ne_nil
  | cons t rest => exact ⟨h, .refl _, List.cons_ne_nil _ _, rfl⟩

theorem Stays.imp {p : Parsed a ts α} {q : Parsed b us α} (h : p.Stays more L q)
    (hL : ∀ rest, L rest → L' rest) : p.Stays more L' q := by
  cases p with
  | ok v rest hs notes => exact ⟨hL rest h.1, h.2⟩
  | failed rest hs notes _ => exact h

theorem stays_after {p : Parsed a ts α} {q : Parsed b us α} (h : p.Stays more L q)
    (ds : List Diagnostic) : (p.after ds).Stays more L (q.after ds) := by
  cases p with
  | ok v rest hs notes =>
    obtain ⟨hL, hs', rfl⟩ := h
    exact ⟨hL, hs', rfl⟩
  | failed rest hs notes _ =>
    obtain ⟨ho, hs', hc, rfl⟩ := h
    exact ⟨ho, hs', _, rfl⟩

theorem stays_behind {p : Parsed a ts α} {q : Parsed b us α} (h : p.Stays more L q) {t u : Token} :
    (p.behind (t := t)).Stays more L (q.behind (t := u)) := by
  cases p with
  | ok v rest hs notes =>
    obtain ⟨hL, hs', rfl⟩ := h
    exact ⟨hL, hs'.cons u, rfl⟩
  | failed rest hs notes _ =>
    obtain ⟨ho, hs', hc, rfl⟩ := h
    exact ⟨ho, hs'.cons u, hc, rfl⟩

theorem stays_weaken {p : Parsed a ts α} {q : Parsed b us α} (h : p.Stays more L q) :
    p.weaken.Stays more L q.weaken := by
  cases p with
  | ok v rest hs notes =>
    obtain ⟨hL, hs', rfl⟩ := h
    exact ⟨hL, hs'.weaken, rfl⟩
  | failed rest hs notes _ =>
    obtain ⟨ho, hs', hc, rfl⟩ := h
    exact ⟨ho, hs', hc, rfl⟩

theorem stays_map {f : α → β} {p : Parsed a ts α} {q : Parsed b us α} (h : p.Stays more L q) :
    (p.map f).Stays more L (q.map f) := by
  cases p with
  | ok v rest hs notes =>
    obtain ⟨hL, hs', rfl⟩ := h
    exact ⟨hL, hs', rfl⟩
  | failed rest hs notes _ =>
    obtain ⟨ho, hs', hc, rfl⟩ := h
    exact ⟨ho, hs', hc, rfl⟩

theorem stays_andThen {a' b' : Bool} {p : Parsed a ts α} {q : Parsed a' us α}
    {next : α → (rest : List Token) → Shrinks a rest ts → Parsed b rest β}
    {next' : α → (rest : List Token) → Shrinks a' rest us → Parsed b' rest β}
    (h : p.Stays more L q)
    (hn : ∀ v rest hs hs', L rest → (next v rest hs).Stays more L' (next' v (rest ++ more) hs')) :
    (p.andThen next).Stays more L' (q.andThen next') := by
  cases p with
  | failed rest hs notes _ =>
    obtain ⟨ho, hs', hc, rfl⟩ := h
    exact ⟨ho, hs', hc, rfl⟩
  | ok v rest hs notes =>
    obtain ⟨hL, hs', rfl⟩ := h
    have hv := hn v rest hs hs' hL
    simp only [andThen]
    cases hnext : next v rest hs with
    | ok w rest₁ hs₁ notes₁ =>
      rw [hnext] at hv
      obtain ⟨hL', hs₂, hq⟩ := hv
      rw [hq]
      exact ⟨hL', hs'.trans hs₂, rfl⟩
    | failed rest₁ hs₁ notes₁ _ =>
      rw [hnext] at hv
      obtain ⟨ho, hs₂, hc, hq⟩ := hv
      rw [hq]
      exact ⟨ho, (hs'.trans hs₂).weaken, _, rfl⟩

/-- A declaration is read, or given up, up to the same token. -/
theorem stays_recover {t u : Token} {p : Parsed true (t :: ts) (Stmt Unit)}
    {q : Parsed true (u :: us) (Stmt Unit)} (h : p.Stays more Confined q) :
    Confined p.recover.rest ∧
      ∃ hs, q.recover = ⟨p.recover.statement, p.recover.rest ++ more, hs, p.recover.notes⟩ := by
  cases p with
  | ok s rest hs notes =>
    obtain ⟨hconfined, hs', rfl⟩ := h
    exact ⟨hconfined, hs', rfl⟩
  | failed rest hs notes _ =>
    obtain ⟨ho, hs', hc, rfl⟩ := h
    have hshrinks := synchronize_shrinks hs'
    rw [synchronize_append more ho] at hshrinks
    refine ⟨ho.of_suffix (synchronize_suffix rest), hshrinks, ?_⟩
    simp only [recover, synchronize_append more ho]

/-- The symbol `s` is taken, or is missing, whatever follows. -/
theorem stays_symbol_of {s : Symbol} {m : Mistake} {n : Nat} (h : Open ts)
    (hL : ∀ t rest, ts = t :: rest → t.kind = .symbol s → L rest) :
    (symbol s m n ts).Stays more L (symbol s m n (ts ++ more)) := by
  cases ts with
  | nil => exact absurd rfl h.ne_nil
  | cons t rest =>
    rw [List.cons_append]
    simp only [symbol]
    split
    · exact stays_behind (stays_done _ t.line (hL t rest rfl ‹_›))
    · exact stays_fail _ m n h

theorem stays_symbol {s : Symbol} (hs : s ≠ .semicolon) (m : Mistake) (n : Nat) (h : Open ts) :
    (symbol s m n ts).Stays more Open (symbol s m n (ts ++ more)) := by
  refine stays_symbol_of h fun t rest he ht => ?_
  subst he
  refine h.open_tail ?_
  rw [ht]
  rintro ⟨⟩
  exact hs rfl

theorem stays_semicolon (m : Mistake) (n : Nat) (h : Open ts) :
    (symbol .semicolon m n ts).Stays more Confined (symbol .semicolon m n (ts ++ more)) := by
  refine stays_symbol_of h fun t rest he _ => ?_
  subst he
  exact h.tail

/-- There is no opening brace. -/
theorem stays_leftBrace (m : Mistake) (n : Nat) (h : Open ts) :
    (symbol .leftBrace m n ts).Stays more (fun _ => False)
      (symbol .leftBrace m n (ts ++ more)) := by
  refine stays_symbol_of h fun t rest he ht => ?_
  subst he
  exact (h.plain t (List.mem_cons_self ..)).2.1 ht

theorem stays_name (more : List Token) (m : Mistake) (n : Nat) (h : Open ts) :
    (name m n ts).Stays more Open (name m n (ts ++ more)) := by
  cases ts with
  | nil => exact absurd rfl h.ne_nil
  | cons t rest =>
    obtain ⟨kind, line⟩ := t
    have hfail := stays_fail (a := true) (b := true) (α := Name) (L := Open) more m n h
    cases kind with
    | identifier text =>
      exact stays_behind (stays_done _ (⟨text, line⟩ : Name) (h.open_tail TokenKind.noConfusion))
    | _ => exact hfail

end

end Parsed

namespace Grammar
open Parsed

section
variable {n : Nat} {more : List Token}

theorem stays_parameterList (more : List Token) (count : Nat) {ts : List Token} (h : Open ts) :
    (parameterList n count ts).Stays more Open (parameterList n count (ts ++ more)) := by
  cases ts with
  | nil => exact absurd rfl h.ne_nil
  | cons t rest =>
    have hfail := stays_fail (a := true) (b := true) (α := List Name) (L := Open) more
      .parameterName n h
    obtain ⟨kind, line⟩ := t
    unfold parameterList
    cases kind with
    | identifier text =>
      have ho : Open rest := h.open_tail TokenKind.noConfusion
      cases rest with
      | nil => exact absurd rfl ho.ne_nil
      | cons u rest =>
        have hdone := stays_done more [(⟨text, line⟩ : Name)] ho
        obtain ⟨kind, line'⟩ := u
        cases kind with
        | symbol s =>
          cases s with
          | comma =>
            have hcomma : Open rest := ho.open_tail (by rintro ⟨⟩)
            have ih := stays_parameterList more (count + 1) hcomma
            exact stays_after (stays_behind (stays_behind (stays_map ih))) _
          | _ => exact stays_after (stays_behind hdone) _
        | _ => exact stays_after (stays_behind hdone) _
    | _ => exact stays_after hfail _

theorem stays_parameters {ts : List Token} (h : Open ts) :
    (parameters n ts).Stays more Open (parameters n (ts ++ more)) := by
  have hlist := stays_weaken (stays_parameterList (n := n) more 0 h)
  cases ts with
  | nil => exact absurd rfl h.ne_nil
  | cons t rest =>
    obtain ⟨kind, line⟩ := t
    cases kind with
    | symbol s =>
      cases s with
      | rightParen => exact stays_done _ [] h
      | _ => exact hlist
    | _ => exact hlist

theorem stays_superclass {ts : List Token} (h : Open ts) :
    (superclass n ts).Stays more Open (superclass n (ts ++ more)) := by
  have hnone := stays_done more (none : Option (Name × Unit)) h
  cases ts with
  | nil => exact absurd rfl h.ne_nil
  | cons t rest =>
    obtain ⟨kind, line⟩ := t
    cases kind with
    | symbol s =>
      cases s with
      | less =>
        have ho : Open rest := h.open_tail nofun
        exact stays_weaken (stays_behind (stays_map (stays_name _ _ _ ho)))
      | _ => exact hnone
    | _ => exact hnone

/-- No code is read without a brace. -/
theorem stays_code (more : List Token) (kind : CodeKind) {ts : List Token} (h : Open ts) :
    (code n kind ts).Stays more (fun _ => False) (code n kind (ts ++ more)) := by
  unfold code
  refine stays_andThen (stays_symbol (by decide) _ _ h) fun _ rest₁ _ _ h₁ => ?_
  refine stays_andThen (stays_parameters h₁) fun params rest₂ _ _ h₂ => ?_
  refine stays_andThen (stays_symbol (by decide) _ _ h₂) fun _ rest₃ _ _ h₃ => ?_
  exact stays_andThen (stays_leftBrace _ _ h₃) fun _ _ _ _ h₄ => h₄.elim

theorem stays_classDeclaration {ts : List Token} (h : Open ts) :
    (classDeclaration n ts).Stays more (fun _ => False) (classDeclaration n (ts ++ more)) := by
  unfold classDeclaration
  refine stays_andThen (stays_name _ _ _ h) fun className rest₁ _ _ h₁ => ?_
  refine stays_andThen (stays_superclass h₁) fun parent rest₂ _ _ h₂ => ?_
  exact stays_andThen (stays_leftBrace _ _ h₂) fun _ _ _ _ h₃ => h₃.elim

end

/-- What the readers of expressions make of tokens with more behind them. -/
structure StaysAll (more : List Token) (n : Nat) (ts : List Token) : Prop where
  expression : (expression n ts).Stays more Open (expression n (ts ++ more))
  operand (level : Level) : (operand n level ts).Stays more Open (operand n level (ts ++ more))
  infixTail (level : Level) (left : Expr Unit) :
    (infixTail n level left ts).Stays more Open (infixTail n level left (ts ++ more))
  unary : (unary n ts).Stays more Open (unary n (ts ++ more))
  callTail (callee : Expr Unit) :
    (callTail n callee ts).Stays more Open (callTail n callee (ts ++ more))
  arguments : (arguments n ts).Stays more Open (arguments n (ts ++ more))
  argumentList (count : Nat) :
    (argumentList n count ts).Stays more Open (argumentList n count (ts ++ more))

namespace StaysAll
variable {more : List Token} {n : Nat} {ts : List Token} (h : Open ts)
  (ih : ∀ rest, Shrinks true rest ts → Open rest → StaysAll more n rest)
include h ih

theorem of_primary : (primary n ts).Stays more Open (primary n (ts ++ more)) := by
  cases ts with
  | nil => exact absurd rfl h.ne_nil
  | cons t rest =>
    have hfail := stays_fail (a := true) (b := true) (α := Expr Unit) (L := Open) more
      .expression n h
    have htail := h.open_tail
    obtain ⟨kind, line⟩ := t
    have go {b : Bool} (rest' : List Token) (hs : Shrinks b rest' rest) (ho : Open rest') :
        StaysAll more n rest' := ih rest' (.cons _ hs) ho
    unfold primary
    cases kind with
    | keyword k =>
      have ho : Open rest := htail nofun
      cases k with
      | false_ => exact stays_behind (stays_done _ _ ho)
      | true_ => exact stays_behind (stays_done _ _ ho)
      | nil_ => exact stays_behind (stays_done _ _ ho)
      | this_ => exact stays_behind (stays_done _ _ ho)
      | super_ =>
        refine stays_behind
          (stays_andThen (stays_symbol (by decide) _ _ ho) fun _ rest' _ _ h' => ?_)
        exact stays_map (stays_name _ _ _ h')
      | fun_ => exact stays_behind (stays_map ((stays_code _ .function ho).imp fun _ => False.elim))
      | _ => exact hfail
    | number text value => exact stays_behind (stays_done _ _ (htail nofun))
    | string text => exact stays_behind (stays_done _ _ (htail nofun))
    | identifier text => exact stays_behind (stays_done _ _ (htail nofun))
    | symbol s =>
      cases s with
      | leftParen =>
        have he := (go rest (.refl rest) (htail nofun)).expression
        refine stays_behind (stays_andThen he fun inner rest' _ _ h' => ?_)
        exact stays_map (stays_symbol (by decide) _ _ h')
      | _ => exact hfail

theorem of_callTail (callee : Expr Unit) :
    (Grammar.callTail n callee ts).Stays more Open (Grammar.callTail n callee (ts ++ more)) := by
  have hdone := stays_done more callee h
  cases ts with
  | nil => exact absurd rfl h.ne_nil
  | cons t rest =>
    have htail := h.open_tail
    obtain ⟨kind, line⟩ := t
    have go {b : Bool} (rest' : List Token) (hs : Shrinks b rest' rest) (ho : Open rest') :
        StaysAll more n rest' := ih rest' (.cons _ hs) ho
    unfold Grammar.callTail
    cases kind with
    | symbol s =>
      cases s with
      | leftParen =>
        have ha := (go rest (.refl rest) (htail nofun)).arguments
        refine stays_weaken (stays_behind (stays_andThen ha fun args r₁ h₁ _ ho₁ => ?_))
        refine stays_andThen (stays_symbol (by decide) _ _ ho₁) fun line r₂ h₂ _ ho₂ => ?_
        exact (go r₂ (h₁.trans h₂) ho₂).callTail _
      | dot =>
        have hn := stays_name more .propertyName n (htail nofun)
        refine stays_weaken (stays_behind (stays_andThen hn fun property r₁ h₁ _ ho₁ => ?_))
        exact (go r₁ h₁ ho₁).callTail _
      | _ => exact hdone
    | _ => exact hdone

theorem of_unary : (Grammar.unary n ts).Stays more Open (Grammar.unary n (ts ++ more)) := by
  have hcall : (call n ts).Stays more Open (call n (ts ++ more)) := by
    unfold call
    refine stays_andThen (of_primary h ih) fun callee rest hs _ ho => ?_
    exact (ih rest hs ho).callTail callee
  cases ts with
  | nil => exact absurd rfl h.ne_nil
  | cons t rest =>
    have htail := h.open_tail
    obtain ⟨kind, line⟩ := t
    unfold Grammar.unary
    cases kind with
    | symbol s =>
      cases s with
      | bang => exact stays_behind (stays_map (ih rest (.tail _ _) (htail nofun)).unary)
      | minus => exact stays_behind (stays_map (ih rest (.tail _ _) (htail nofun)).unary)
      | _ => exact hcall
    | _ => exact hcall

theorem of_infixTail (level : Level) (left : Expr Unit) :
    (Grammar.infixTail n level left ts).Stays more Open
      (Grammar.infixTail n level left (ts ++ more)) := by
  cases ts with
  | nil => exact absurd rfl h.ne_nil
  | cons t rest =>
    rw [List.cons_append]
    unfold Grammar.infixTail
    split
    · exact stays_done _ left h
    · rename_i op hop
      have ho : Open rest := h.open_tail fun ht => by
        rw [ht] at hop
        cases hop
      have hr := (ih rest (.tail _ _) ho).operand level
      refine stays_weaken (stays_behind (stays_andThen hr fun right rest' hs _ ho' => ?_))
      exact (ih rest' (.cons t hs) ho').infixTail level _

/-- By induction on the number of levels between this one and the unary operators. -/
theorem of_operand (level : Level) :
    (Grammar.operand n level ts).Stays more Open (Grammar.operand n level (ts ++ more)) := by
  unfold Grammar.operand
  split
  · rename_i tighter ht
    unfold infixed
    refine stays_andThen (of_operand tighter) fun left rest hs _ ho => ?_
    exact (ih rest hs ho).infixTail tighter left
  · exact of_unary h ih
termination_by level.height
decreasing_by exact Level.height_tighter ‹_›

theorem of_expression :
    (Grammar.expression n ts).Stays more Open (Grammar.expression n (ts ++ more)) := by
  have hi : (infixed n .or ts).Stays more Open (infixed n .or (ts ++ more)) := by
    unfold infixed
    refine stays_andThen (of_operand h ih .or) fun left rest hs _ ho => ?_
    exact (ih rest hs ho).infixTail .or left
  unfold Grammar.expression
  refine stays_andThen hi fun target rest hs _ ho => ?_
  have hdone := stays_done more target ho
  cases rest with
  | nil => exact absurd rfl ho.ne_nil
  | cons t rest =>
    obtain ⟨kind, line⟩ := t
    cases kind with
    | symbol s =>
      dsimp only [List.cons_append]
      split
      · exact hdone
      · rename_i op hop
        have ho' : Open rest := ho.open_tail fun ht => by
          cases ht
          cases hop
        have he := (ih rest (hs.trans (.tail _ _)) ho').expression
        refine stays_weaken (stays_behind (stays_andThen he fun value rest' _ _ ho'' => ?_))
        split
        · exact stays_done _ _ ho''
        · exact stays_after (stays_done _ target ho'') _
    | _ => exact hdone

theorem of_argumentList (count : Nat) :
    (Grammar.argumentList n count ts).Stays more Open
      (Grammar.argumentList n count (ts ++ more)) := by
  have hreport : Mistake.tooManyArguments.report n (ts ++ more) =
      Mistake.tooManyArguments.report n ts := by
    cases ts with
    | nil => exact absurd rfl h.ne_nil
    | cons t rest => rfl
  unfold Grammar.argumentList
  rw [hreport]
  refine stays_after (stays_andThen (of_expression h ih) fun arg rest hs _ ho => ?_) _
  have hdone := stays_done more [arg] ho
  cases rest with
  | nil => exact absurd rfl ho.ne_nil
  | cons t rest =>
    have htail := ho.open_tail
    obtain ⟨kind, line⟩ := t
    cases kind with
    | symbol s =>
      cases s with
      | comma =>
        have hl := (ih rest (hs.trans (.tail _ _)) (htail nofun)).argumentList (count + 1)
        exact stays_weaken (stays_behind (stays_map hl))
      | _ => exact hdone
    | _ => exact hdone

theorem of_arguments :
    (Grammar.arguments n ts).Stays more Open (Grammar.arguments n (ts ++ more)) := by
  have hlist := stays_weaken (of_argumentList h ih 0)
  cases ts with
  | nil => exact absurd rfl h.ne_nil
  | cons t rest =>
    obtain ⟨kind, line⟩ := t
    unfold Grammar.arguments
    cases kind with
    | symbol s =>
      cases s with
      | rightParen => exact stays_done _ [] h
      | _ => exact hlist
    | _ => exact hlist

end StaysAll

/-- Expressions end in front of a semicolon that is still to come. -/
theorem staysAll (more : List Token) (n : Nat) {ts : List Token} (h : Open ts) :
    StaysAll more n ts :=
  have ih : ∀ rest, Shrinks true rest ts → Open rest → StaysAll more n rest :=
    fun _ _ ho => staysAll more n ho
  { expression := StaysAll.of_expression h ih
    operand := StaysAll.of_operand h ih
    infixTail := StaysAll.of_infixTail h ih
    unary := StaysAll.of_unary h ih
    callTail := StaysAll.of_callTail h ih
    arguments := StaysAll.of_arguments h ih
    argumentList := StaysAll.of_argumentList h ih }
termination_by ts.length
decreasing_by exact ‹Shrinks true _ ts›.lt

section
variable {more : List Token} {n : Nat} {ts : List Token}

theorem stays_expressionUnless (more : List Token) (stop : Symbol) (h : Open ts) :
    (expressionUnless n stop ts).Stays more Open (expressionUnless n stop (ts ++ more)) := by
  have he : ((expression n ts).map some).weaken.Stays more Open
      ((expression n (ts ++ more)).map some).weaken :=
    stays_weaken (stays_map (staysAll more n h).expression)
  cases ts with
  | nil => exact absurd rfl h.ne_nil
  | cons t rest =>
    obtain ⟨kind, line⟩ := t
    unfold expressionUnless
    cases kind with
    | symbol s =>
      dsimp only [List.cons_append, List.head?_cons]
      split
      · exact stays_done _ none h
      · exact he
    | _ => exact he

theorem stays_expressionStatement (more : List Token) (h : Open ts) :
    (expressionStatement n ts).Stays more Confined (expressionStatement n (ts ++ more)) := by
  unfold expressionStatement
  refine stays_andThen (staysAll more n h).expression fun e rest _ _ ho => ?_
  exact stays_map (stays_semicolon _ _ ho)

theorem stays_varDeclaration (h : Open ts) :
    (varDeclaration n ts).Stays more Confined (varDeclaration n (ts ++ more)) := by
  unfold varDeclaration
  refine stays_andThen (stays_name _ _ _ h) fun x rest _ _ ho => ?_
  have hsemi : ((symbol .semicolon .variableEnd n rest).map
      fun _ => (.var x none : Stmt Unit)).Stays more Confined
      ((symbol .semicolon .variableEnd n (rest ++ more)).map fun _ => .var x none) :=
    stays_map (stays_semicolon _ _ ho)
  cases rest with
  | nil => exact absurd rfl ho.ne_nil
  | cons t rest =>
    have htail := ho.open_tail
    obtain ⟨kind, line⟩ := t
    cases kind with
    | symbol s =>
      cases s with
      | equal =>
        have he := (staysAll more n (htail nofun)).expression
        refine stays_behind (stays_andThen he fun value rest' _ _ ho' => ?_)
        exact stays_map (stays_semicolon _ _ ho')
      | _ => exact hsemi
    | _ => exact hsemi

end

section
variable {more : List Token} (helse : ∀ l r, more = ⟨.keyword .else_, l⟩ :: r → False)
include helse

/-- By induction on the number of tokens; the body of an `if` goes on with an `else` of its own or
not at all. -/
theorem stays_statement (n : Nat) {ts : List Token} (h : Open ts) :
    (statement n ts).Stays more Confined (statement n (ts ++ more)) := by
  have he := stays_expressionStatement (n := n) more h
  cases ts with
  | nil => exact absurd rfl h.ne_nil
  | cons t rest =>
    have htail := h.open_tail
    have hplain := h.plain t (List.mem_cons_self ..)
    obtain ⟨kind, line⟩ := t
    have go {b : Bool} (rest' : List Token) (hs : Shrinks b rest' rest) (ho : Open rest') :
        (statement n rest').Stays more Confined (statement n (rest' ++ more)) :=
      have : rest'.length < rest.length + 1 := Nat.lt_succ_of_le hs.le
      stays_statement n ho
    unfold statement
    cases kind with
    | keyword k =>
      cases k with
      | for_ => exact absurd rfl hplain.1
      | if_ =>
        refine stays_behind ?_
        refine stays_andThen (stays_symbol (by decide) _ _ (htail nofun)) fun _ r₁ h₁ _ ho₁ => ?_
        refine stays_andThen (staysAll more n ho₁).expression fun condition r₂ h₂ _ ho₂ => ?_
        have h₂ := h₁.trans h₂
        refine stays_andThen (stays_symbol (by decide) _ _ ho₂) fun _ r₃ h₃ _ ho₃ => ?_
        have h₃ := h₂.trans h₃
        refine stays_andThen (go r₃ h₃ ho₃) fun yes r₄ h₄ _ hc => ?_
        have h₄ := h₃.trans h₄
        have hno := stays_done more (Stmt.branch condition yes none) hc
        cases r₄ with
        | nil =>
          cases more with
          | nil => exact hno
          | cons u more =>
            obtain ⟨kind, line⟩ := u
            cases kind with
            | keyword k =>
              cases k with
              | else_ => exact (helse _ _ rfl).elim
              | _ => exact hno
            | _ => exact hno
        | cons u r₄ =>
          have htail := hc.open_tail
          obtain ⟨kind, line⟩ := u
          cases kind with
          | keyword k =>
            cases k with
            | else_ =>
              have hs := go r₄ (h₄.trans (.tail _ _)) (htail nofun)
              exact stays_weaken (stays_behind (stays_map hs))
            | _ => exact hno
          | _ => exact hno
      | print_ =>
        have hr := (staysAll more n (htail nofun)).expression
        refine stays_behind (stays_andThen hr fun e r _ _ ho => ?_)
        exact stays_map (stays_semicolon _ _ ho)
      | return_ =>
        have hr := stays_expressionUnless (n := n) more .semicolon (htail nofun)
        refine stays_behind (stays_andThen hr fun value r _ _ ho => ?_)
        exact stays_map (stays_semicolon _ _ ho)
      | while_ =>
        refine stays_behind ?_
        refine stays_andThen (stays_symbol (by decide) _ _ (htail nofun)) fun _ r₁ h₁ _ ho₁ => ?_
        refine stays_andThen (staysAll more n ho₁).expression fun condition r₂ h₂ _ ho₂ => ?_
        have h₂ := h₁.trans h₂
        refine stays_andThen (stays_symbol (by decide) _ _ ho₂) fun _ r₃ h₃ _ ho₃ => ?_
        exact stays_map (go r₃ (h₂.trans h₃) ho₃)
      | _ => exact he
    | symbol s =>
      cases s with
      | leftBrace => exact absurd rfl hplain.2.1
      | _ => exact he
    | _ => exact he
termination_by ts.length

theorem declaration_append (n : Nat) {t : Token} {rest : List Token} (h : Confined (t :: rest)) :
    Confined (declaration n t rest).rest ∧
      ∃ hs, declaration n t (rest ++ more) = ⟨(declaration n t rest).statement,
        (declaration n t rest).rest ++ more, hs, (declaration n t rest).notes⟩ := by
  have hst := stays_statement helse n ⟨h, List.cons_ne_nil t rest⟩
  have htail := h.open_tail
  obtain ⟨kind, line⟩ := t
  unfold declaration
  refine stays_recover ?_
  cases kind with
  | keyword k =>
    have ho : Open rest := htail TokenKind.noConfusion
    cases k with
    | class_ => exact stays_behind ((stays_classDeclaration ho).imp fun _ => False.elim)
    | var_ => exact stays_behind (stays_varDeclaration ho)
    | fun_ =>
      cases rest with
      | nil => exact absurd rfl ho.ne_nil
      | cons u rest =>
        have htail := ho.open_tail
        obtain ⟨kind, line'⟩ := u
        cases kind with
        | identifier text =>
          have hc : (code n .function _).Stays more Confined (code n .function _) :=
            (stays_code more .function (htail TokenKind.noConfusion)).imp fun _ => False.elim
          exact stays_behind (stays_behind (stays_map hc))
        | _ => exact hst
    | _ => exact hst
  | _ => exact hst

theorem program_confined (n : Nat) (ts : List Token) (h : Confined ts) :
    program n (ts ++ more) =
      ((program n ts).1 ++ (program n more).1, (program n ts).2 ++ (program n more).2) := by
  cases ts with
  | nil => rw [program, List.nil_append, List.nil_append, List.nil_append]
  | cons t rest =>
    obtain ⟨hc, hs, hd⟩ := declaration_append helse n h
    have hlt := (declaration n t rest).shrinks.lt
    have ih := program_confined n _ hc
    rw [List.cons_append, program, hd, program]
    simp only [ih, List.append_assoc]
termination_by ts.length

end

/-- Tokens that are read without complaints, or that are confined, are read first when more follows
them, and what follows is read as it is alone. -/
theorem program_followed (n : Nat) (ts more : List Token)
    (helse : ∀ l r, more = ⟨.keyword .else_, l⟩ :: r → False)
    (h : (program n ts).2 = [] ∨ Confined ts) :
    program n (ts ++ more) =
      ((program n ts).1 ++ (program n more).1, (program n ts).2 ++ (program n more).2) := by
  rcases h with h | h
  · have hmoved := program_moved (f := id) n n helse ts h
    rw [moved, Token.renumber_id, List.map_id] at hmoved
    rw [hmoved, Renumber.stmts_id, h, List.nil_append]
  · exact program_confined helse n ts h

/-- The tokens of `var = a; if;`, two statements that are no such. -/
def malformed : List Token :=
  [⟨.keyword .var_, 1⟩, ⟨.symbol .equal, 1⟩, ⟨.identifier "a", 1⟩, ⟨.symbol .semicolon, 1⟩,
    ⟨.keyword .if_, 1⟩, ⟨.symbol .semicolon, 1⟩]

theorem program_followed_malformed :
    (program 2 malformed).2 ≠ [] ∧ Confined malformed ∧
    program 2 (malformed ++ [⟨.keyword .print_, 2⟩, ⟨.identifier "b", 2⟩, ⟨.symbol .semicolon, 2⟩]) =
      ((program 2 malformed).1 ++
        (program 2 [⟨.keyword .print_, 2⟩, ⟨.identifier "b", 2⟩, ⟨.symbol .semicolon, 2⟩]).1,
       (program 2 malformed).2 ++
        (program 2 [⟨.keyword .print_, 2⟩, ⟨.identifier "b", 2⟩, ⟨.symbol .semicolon, 2⟩]).2) := by
  have hc : Confined malformed := by
    refine ⟨by decide, fun t ht => ?_⟩
    cases ht
    rfl
  have hnotes : (declaration 2 ⟨.keyword .var_, 1⟩ malformed.tail).notes ≠ [] := by
    rw [malformed, declaration]
    simp only [List.tail_cons, varDeclaration]
    exact List.cons_ne_nil _ _
  refine ⟨?_, hc, program_followed 2 malformed _ (fun _ _ he => ?_) (.inr hc)⟩
  · rw [malformed, program]
    exact List.append_ne_nil_of_left_ne_nil hnotes _
  · cases he

end Grammar
end LoxScript
