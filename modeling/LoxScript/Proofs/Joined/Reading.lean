import LoxScript.Grammar.Parse
import LoxScript.Proofs.Grammar.WellFormed
import LoxScript.Proofs.Joined.Renumber

/-!
Reading tokens that have moved to other lines, with more tokens behind them.

What is read without complaints stays the same, on the other lines, and the tokens behind stay
unread.  An expression has to end at one of its own tokens for that, or it could go on with those
behind; a statement ends by itself, unless an `else` follows.
-/

namespace LoxScript

/-- Tokens on other lines, in front of more tokens. -/
def moved (f : Nat → Nat) (more ts : List Token) : List Token := ts.map (·.renumber f) ++ more

section
variable {f : Nat → Nat} {more : List Token}

@[simp] theorem moved_nil : moved f more [] = more := rfl

@[simp] theorem moved_cons (t : Token) (ts : List Token) :
    moved f more (t :: ts) = t.renumber f :: moved f more ts := rfl

/-- A moved token is recognised by its kind. -/
theorem moved_eq_cons {t : Token} {ts us : List Token} {k : TokenKind} {line : Nat}
    (h : moved f more (t :: ts) = ⟨k, line⟩ :: us) :
    t = ⟨k, t.line⟩ ∧ line = f t.line ∧ us = moved f more ts := by
  obtain ⟨kind, line'⟩ := t
  cases h
  exact ⟨rfl, rfl, rfl⟩

/-- What is no token of a kind is none after it has moved. -/
theorem absurd_of_moved {C : Prop} {t : Token} {ts us : List Token} {k : TokenKind} {line : Nat}
    (h : moved f more (t :: ts) = ⟨k, line⟩ :: us) (hne : ∀ l r, t :: ts = ⟨k, l⟩ :: r → False) :
    C :=
  (hne t.line ts (congrArg (· :: ts) (moved_eq_cons h).1)).elim

/-- Tokens that do not go on with one of a kind, but do with those behind them, are at their end. -/
theorem not_ended {ts us : List Token} {k : TokenKind} {line : Nat}
    (h : moved f more ts = ⟨k, line⟩ :: us) (hne : ∀ l r, ts = ⟨k, l⟩ :: r → False) :
    ¬ (ts ≠ [] ∨ more = []) := by
  intro hr
  cases ts with
  | nil =>
    rcases hr with hr | rfl
    · exact hr rfl
    · cases h
  | cons t ts => exact absurd_of_moved h hne

end

namespace Parsed

/-- A value read without complaints is read from the moved tokens as well, changed by `F`.  Unless
the reading is closed, that holds only if the value ends before the tokens do. -/
def Moves {α β : Type} {a b : Bool} {ts us : List Token} (f : Nat → Nat) (more : List Token)
    (closed : Prop) (F : α → β) (p : Parsed a ts α) (q : Parsed b us β) : Prop :=
  ∀ v rest h, p = ok v rest h [] → rest ≠ [] ∨ closed →
    ∃ h', q = ok (F v) (moved f more rest) h' []

section
variable {a b : Bool} {ts us : List Token} {α α' β β' : Type} {f : Nat → Nat} {more : List Token}
  {closed closed' : Prop}

theorem moves_done (F : α → β) (v : α) (ts : List Token) :
    (done v ts).Moves f more closed F (done (F v) (moved f more ts)) := by
  rintro _ _ _ ⟨⟩ -
  exact ⟨.refl _, rfl⟩

theorem moves_fail (F : α → β) (m : Mistake) (n : Nat) (q : Parsed b us β) :
    (fail m n ts : Parsed a ts α).Moves f more closed F q := nofun

/-- Nothing can be taken from no tokens. -/
theorem moves_nil (F : α → β) (p : Parsed true [] α) (q : Parsed b us β) :
    p.Moves f more closed F q :=
  fun _ _ h _ _ => absurd h.lt (Nat.not_lt_zero _)

theorem moves_after {F : α → β} {p : Parsed a ts α} {q : Parsed a us β}
    (h : p.Moves f more closed F q) {ds ds' : List Diagnostic} (hd : ds = [] → ds' = []) :
    (p.after ds).Moves f more closed F (q.after ds') := by
  intro v rest hs he hr
  cases p with
  | failed => cases he
  | ok v' rest' hs' notes =>
    simp only [after, ok.injEq, List.append_eq_nil_iff] at he
    obtain ⟨rfl, rfl, hds, rfl⟩ := he
    obtain ⟨hs₁, rfl⟩ := h _ _ _ rfl hr
    rw [hd hds]
    exact ⟨hs₁, rfl⟩

theorem after_nil (p : Parsed a ts α) : p.after [] = p := by cases p <;> rfl

/-- The complaints made before can be left away if there are none. -/
theorem moves_of_after {F : α → β} {p : Parsed a ts α} {q : Parsed b us β} {ds : List Diagnostic}
    (h : ds = [] → p.Moves f more closed F q) : (p.after ds).Moves f more closed F q := by
  intro v rest hs he hr
  cases p with
  | failed => cases he
  | ok v' rest' hs' notes =>
    simp only [after, ok.injEq, List.append_eq_nil_iff] at he
    obtain ⟨rfl, rfl, hds, rfl⟩ := he
    exact h hds _ _ _ rfl hr

theorem moves_behind {F : α → β} {p : Parsed a ts α} {q : Parsed a us β}
    (h : p.Moves f more closed F q) {t u : Token} :
    (p.behind (t := t)).Moves f more closed F (q.behind (t := u)) := by
  intro v rest hs he hr
  cases p with
  | failed => cases he
  | ok v' rest' hs' notes =>
    cases he
    obtain ⟨hs₁, rfl⟩ := h _ _ _ rfl hr
    exact ⟨hs₁.cons u, rfl⟩

theorem moves_weaken {F : α → β} {p : Parsed a ts α} {q : Parsed a us β}
    (h : p.Moves f more closed F q) : p.weaken.Moves f more closed F q.weaken := by
  intro v rest hs he hr
  cases p with
  | failed => cases he
  | ok v' rest' hs' notes =>
    cases he
    obtain ⟨hs₁, rfl⟩ := h _ _ _ rfl hr
    exact ⟨hs₁.weaken, rfl⟩

theorem moves_within {F : α → β} {p : Parsed a ts α} {q : Parsed a us β}
    (h : p.Moves f more closed F q) {all all' : List Token} (hs : Shrinks b ts all)
    (hs' : Shrinks b us all') : (p.within hs).Moves f more closed F (q.within hs') := by
  intro v rest hs₀ he hr
  cases p with
  | failed => cases he
  | ok v' rest' hs₁ notes =>
    cases he
    obtain ⟨hs₁, rfl⟩ := h _ _ _ rfl hr
    exact ⟨hs'.then_le hs₁, rfl⟩

theorem moves_map {F : α → β} {G : α' → β'} {g : α → α'} {g' : β → β'} {p : Parsed a ts α}
    {q : Parsed a us β} (h : p.Moves f more closed F q) (hG : ∀ v, G (g v) = g' (F v)) :
    (p.map g).Moves f more closed G (q.map g') := by
  intro v rest hs he hr
  cases p with
  | failed => cases he
  | ok v' rest' hs' notes =>
    cases he
    obtain ⟨hs₁, rfl⟩ := h _ _ _ rfl hr
    rw [hG]
    exact ⟨hs₁, rfl⟩

/-- What is read first need not be closed if something has to be read behind it. -/
theorem moves_andThen {F : α → β} {G : α' → β'} {p : Parsed a ts α} {q : Parsed a us β}
    {next : α → (rest : List Token) → Shrinks a rest ts → Parsed b rest α'}
    {next' : β → (rest : List Token) → Shrinks a rest us → Parsed b rest β'}
    (h : p.Moves f more closed' F q) (hc : b = true ∨ (closed → closed'))
    (hn : ∀ v rest hs hs', (next v rest hs).Moves f more closed G
      (next' (F v) (moved f more rest) hs')) :
    (p.andThen next).Moves f more closed G (q.andThen next') := by
  intro w rest' hs he hr
  cases p with
  | failed => cases he
  | ok v rest hs₀ notes =>
    simp only [andThen] at he
    cases hnext : next v rest hs₀ with
    | failed => simp [hnext] at he
    | ok w' rest₁ hs₁ notes' =>
      simp only [hnext, ok.injEq, List.append_eq_nil_iff] at he
      obtain ⟨rfl, rfl, rfl, rfl⟩ := he
      have hr' : rest ≠ [] ∨ closed' := by
        by_cases hrest : rest = []
        · subst hrest
          rcases hc with rfl | hc
          · exact absurd hs₁.lt (Nat.not_lt_zero _)
          · refine .inr (hc (hr.resolve_left fun hne => hne ?_))
            exact List.eq_nil_of_length_eq_zero (Nat.le_zero.1 hs₁.le)
        · exact .inl hrest
      obtain ⟨hs', rfl⟩ := h _ _ _ rfl hr'
      obtain ⟨hs'', hq⟩ := hn v rest hs₀ hs' _ _ _ hnext hr
      simp only [andThen, hq]
      exact ⟨hs'.trans hs'', rfl⟩

theorem Moves.of_closed {F : α → β} {p : Parsed a ts α} {q : Parsed b us β}
    (h : p.Moves f more True F q) : p.Moves f more closed F q :=
  fun v rest hs he _ => h v rest hs he (.inr trivial)

/-- The tokens do not go on with a token of some kind, but with those behind them they do. -/
theorem moves_of_absurd {F : α → β} {p : Parsed a ts α} {q : Parsed b us β} {us' : List Token}
    {k : TokenKind} {line : Nat} (hus : moved f more ts = ⟨k, line⟩ :: us')
    (hne : ∀ l r, ts = ⟨k, l⟩ :: r → False) : p.Moves f more (more = []) F q := by
  intro v r hs _ hr
  refine absurd (hr.imp_left fun hne' hts => hne' ?_) (not_ended hus hne)
  subst hts
  exact List.eq_nil_of_length_eq_zero (Nat.le_zero.1 hs.le)

/-- What is read from no tokens leaves none, so it has to be closed. -/
theorem moves_at_end {F : α → β} {p : Parsed a [] α} {q : Parsed b us β}
    (h : more = [] → p.Moves f more (more = []) F q) : p.Moves f more (more = []) F q := by
  intro v r hs he hr
  have hr' : r = [] := List.eq_nil_of_length_eq_zero (Nat.le_zero.1 hs.le)
  exact h (hr.resolve_left fun hne => hne hr') v r hs he hr

/-- Something has to be read behind the first value anyway. -/
theorem moves_of_andThen {G : α' → β'} {p : Parsed a ts α}
    {next : α → (rest : List Token) → Shrinks a rest ts → Parsed b rest α'} {c : Bool}
    {q : Parsed c us β'} (hn : ∀ v rest hs, (next v rest hs).Moves f more closed G q) :
    (p.andThen next).Moves f more closed G q := by
  intro w rest' hs he hr
  cases p with
  | failed => cases he
  | ok v rest hs₀ notes =>
    simp only [andThen] at he
    cases hnext : next v rest hs₀ with
    | failed => simp [hnext] at he
    | ok w' rest₁ hs₁ notes' =>
      simp only [hnext, ok.injEq, List.append_eq_nil_iff] at he
      obtain ⟨rfl, rfl, rfl, rfl⟩ := he
      exact hn v rest hs₀ _ _ _ hnext hr

/-- What no complaint was made about is a statement, and it is read again. -/
theorem moves_recover {t u : Token} {p : Parsed true (t :: ts) (Stmt Unit)}
    {q : Parsed true (u :: us) (Stmt Unit)} (h : p.Moves f more True (Renumber.stmt f) q)
    (hn : p.recover.notes = []) :
    ∃ s hs', p.recover.statement = some s ∧
      q.recover = ⟨some (Renumber.stmt f s), moved f more p.recover.rest, hs', []⟩ := by
  cases p with
  | failed rest hs notes complained => exact absurd hn complained
  | ok s rest hs notes =>
    obtain rfl : notes = [] := hn
    obtain ⟨hs', rfl⟩ := h _ _ _ rfl (.inr trivial)
    exact ⟨s, hs', rfl, rfl⟩

theorem moves_symbol (s : Symbol) (m : Mistake) (n n' : Nat) (ts : List Token) :
    (symbol s m n ts).Moves f more True f (symbol s m n' (moved f more ts)) := by
  cases ts with
  | nil => exact moves_fail _ _ _ _
  | cons t rest =>
    simp only [moved_cons, symbol, Token.renumber]
    split
    · exact moves_behind (moves_done f t.line rest)
    · exact moves_fail _ _ _ _

theorem moves_name (m : Mistake) (n n' : Nat) (ts : List Token) :
    (name m n ts).Moves f more True (Name.renumber f) (name m n' (moved f more ts)) := by
  unfold name
  split
  · rename_i text line rest
    exact moves_behind (moves_done (Name.renumber f) ⟨text, line⟩ rest)
  · exact moves_fail _ _ _ _

end

end Parsed

namespace Renumber

theorem assignment? (f : Nat → Nat) (target : Expr Unit) (op : Option ArithOp) (line : Nat)
    (value : Expr Unit) :
    (expr f target).assignment? op (f line) (expr f value) =
      (target.assignment? op line value).map (expr f) := by
  cases op <;> cases target <;> rfl

theorem node (f : Nat → Nat) (op : Infix) (left : Expr Unit) (line : Nat) (right : Expr Unit) :
    expr f (op.node left line right) = op.node (expr f left) (f line) (expr f right) := by
  cases op <;> rfl

theorem forLoop (f : Nat → Nat) (initial : Option (Stmt Unit)) (condition step : Option (Expr Unit))
    (body : Stmt Unit) :
    stmt f (.forLoop initial condition step body) =
      .forLoop (optionalStmt f initial) (optionalExpr f condition) (optionalExpr f step)
        (stmt f body) := by
  cases initial <;> cases condition <;> cases step <;> rfl

end Renumber

namespace Grammar
open Parsed

section
variable {f : Nat → Nat} {more : List Token} {closed : Prop}

theorem excess_eq_nil {count limit : Nat} {d : Diagnostic} (d' : Diagnostic)
    (h : (if count < limit then [] else [d]) = []) :
    (if count < limit then [] else [d']) = [] := by
  split at h
  · rename_i hlt
    rw [if_pos hlt]
  · cases h

theorem moves_parameterList (n n' count : Nat) (ts : List Token) :
    (parameterList n count ts).Moves f more (more = []) (List.map (Name.renumber f))
      (parameterList n' count (moved f more ts)) := by
  cases ts with
  | nil => exact moves_nil _ _ _
  | cons t rest =>
    obtain ⟨kind, line⟩ := t
    unfold parameterList
    cases kind with
    | identifier text =>
      simp only [moved_cons, Token.renumber]
      generalize hex : (if count < Mistake.maxArguments then ([] : List Diagnostic) else _) = excess
      generalize hus : moved f more rest = us
      generalize hex' :
        (if count < Mistake.maxArguments then ([] : List Diagnostic) else _) = excess'
      have hexcess : excess = [] → excess' = [] := by
        rw [← hex, ← hex']
        exact excess_eq_nil _
      split
      · rename_i l rest
        have ih := moves_parameterList n n' (count + 1) rest
        subst hus
        refine moves_after (moves_behind ?_) hexcess
        refine moves_behind (moves_map ih ?_)
        intro ps
        rfl
      · split
        · intro v r hs he hr
          simp only [behind, done, after, ok.injEq] at he
          rw [← he.2.1] at hr
          exact absurd hr (not_ended hus ‹_›)
        · subst hus
          refine moves_after (moves_behind ?_) hexcess
          exact moves_done (List.map (Name.renumber f)) [⟨text, line⟩] rest
    | _ => rintro _ _ _ ⟨⟩

theorem moves_parameters (n n' : Nat) (ts : List Token) :
    (parameters n ts).Moves f more (more = []) (List.map (Name.renumber f))
      (parameters n' (moved f more ts)) := by
  have hlist : (parameterList n 0 ts).weaken.Moves f more (more = []) (List.map (Name.renumber f))
      (parameterList n' 0 (moved f more ts)).weaken := moves_weaken (moves_parameterList n n' 0 ts)
  unfold parameters
  generalize hus : moved f more ts = us at hlist ⊢
  split
  · rename_i line rest
    subst hus
    exact moves_done _ [] _
  · split
    · exact moves_of_absurd hus ‹_›
    · exact hlist

theorem moves_superclass (n n' : Nat) (ts : List Token) :
    (superclass n ts).Moves f more (more = []) (Option.map fun p => (p.1.renumber f, p.2))
      (superclass n' (moved f more ts)) := by
  unfold superclass
  generalize hus : moved f more ts = us
  split
  · subst hus
    refine moves_weaken (moves_behind (moves_map (moves_name _ _ _ _).of_closed ?_))
    intro x
    rfl
  · split
    · exact moves_of_absurd hus ‹_›
    · subst hus
      exact moves_done _ none _

end

/-- What every reader makes of tokens that have moved. -/
structure MovesAll (f : Nat → Nat) (more : List Token) (n n' : Nat) (ts : List Token) : Prop where
  expression : (expression n ts).Moves f more (more = []) (Renumber.expr f)
    (expression n' (moved f more ts))
  operand (level : Level) : (operand n level ts).Moves f more (more = []) (Renumber.expr f)
    (operand n' level (moved f more ts))
  infixTail (level : Level) (left : Expr Unit) :
    (infixTail n level left ts).Moves f more (more = []) (Renumber.expr f)
      (infixTail n' level (Renumber.expr f left) (moved f more ts))
  unary : (unary n ts).Moves f more (more = []) (Renumber.expr f) (unary n' (moved f more ts))
  callTail (callee : Expr Unit) :
    (callTail n callee ts).Moves f more (more = []) (Renumber.expr f)
      (callTail n' (Renumber.expr f callee) (moved f more ts))
  arguments : (arguments n ts).Moves f more (more = []) (Renumber.exprs f)
    (arguments n' (moved f more ts))
  argumentList (count : Nat) : (argumentList n count ts).Moves f more (more = [])
    (Renumber.exprs f) (argumentList n' count (moved f more ts))
  code (kind : CodeKind) : (code n kind ts).Moves f more True (Renumber.code f)
    (code n' kind (moved f more ts))
  block : (block n ts).Moves f more True (Renumber.stmts f) (block n' (moved f more ts))
  methods : (methods n ts).Moves f more True (Renumber.methods f) (methods n' (moved f more ts))
  classDeclaration : (classDeclaration n ts).Moves f more True (Renumber.stmt f)
    (classDeclaration n' (moved f more ts))
  varDeclaration : (varDeclaration n ts).Moves f more True (Renumber.stmt f)
    (varDeclaration n' (moved f more ts))
  expressionUnless (stop : Symbol) : (expressionUnless n stop ts).Moves f more (more = [])
    (Renumber.optionalExpr f) (expressionUnless n' stop (moved f more ts))
  initializer : (initializer n ts).Moves f more True (Renumber.optionalStmt f)
    (initializer n' (moved f more ts))
  statement : (statement n ts).Moves f more True (Renumber.stmt f)
    (statement n' (moved f more ts))

namespace MovesAll
variable {f : Nat → Nat} {more : List Token} {n n' : Nat} {ts : List Token}
  (ih : ∀ rest, Shrinks true rest ts → MovesAll f more n n' rest)
include ih

theorem of_code (kind : CodeKind) : (Grammar.code n kind ts).Moves f more True (Renumber.code f)
    (Grammar.code n' kind (moved f more ts)) := by
  unfold Grammar.code
  refine moves_andThen (moves_symbol _ _ _ _ _) (.inl rfl) fun _ rest₁ h₁ _ => ?_
  refine moves_andThen (moves_parameters _ _ _) (.inl rfl) fun params rest₂ h₂ _ => ?_
  refine moves_andThen (moves_symbol _ _ _ _ _) (.inl rfl) fun _ rest₃ h₃ _ => ?_
  refine moves_andThen (moves_symbol _ _ _ _ _) (.inl rfl) fun _ rest₄ h₄ _ => ?_
  have hs : Shrinks true rest₄ ts := ((h₁.trans h₂).trans h₃).trans h₄
  exact moves_map (ih rest₄ hs).block fun body => rfl

theorem of_primary : (primary n ts).Moves f more (more = []) (Renumber.expr f)
    (primary n' (moved f more ts)) := by
  unfold primary
  split
  · exact moves_behind (moves_done (Renumber.expr f) _ _)
  · exact moves_behind (moves_done (Renumber.expr f) _ _)
  · exact moves_behind (moves_done (Renumber.expr f) _ _)
  · exact moves_behind (moves_done (Renumber.expr f) _ _)
  · exact moves_behind (moves_done (Renumber.expr f) _ _)
  · refine moves_behind (moves_andThen (moves_symbol _ _ _ _ _) (.inl rfl) fun _ rest hs _ => ?_)
    exact moves_map (moves_name _ _ _ _).of_closed fun x => rfl
  · exact moves_behind (moves_done (Renumber.expr f) _ _)
  · exact moves_behind (moves_done (Renumber.expr f) _ _)
  · refine moves_behind (moves_map ((ih _ (.tail _ _)).code .function).of_closed ?_)
    intro c
    rfl
  · refine moves_behind (moves_andThen (ih _ (.tail _ _)).expression (.inl rfl) ?_)
    intro inner rest hs _
    exact moves_map (moves_symbol _ _ _ _ _).of_closed fun _ => rfl
  · exact moves_fail _ _ _ _

theorem of_callTail (callee : Expr Unit) :
    (Grammar.callTail n callee ts).Moves f more (more = []) (Renumber.expr f)
      (Grammar.callTail n' (Renumber.expr f callee) (moved f more ts)) := by
  unfold Grammar.callTail
  generalize hus : moved f more ts = us
  split
  · subst hus
    have ha := (ih _ (.tail _ _)).arguments
    refine moves_weaken (moves_behind (moves_andThen ha (.inl rfl) fun args rest hs _ => ?_))
    refine moves_andThen (moves_symbol _ _ _ _ _) (.inr fun _ => trivial) ?_
    intro line rest' hs' _
    exact (ih rest' (.cons _ (hs.trans hs'))).callTail (.call callee line args)
  · subst hus
    refine moves_weaken (moves_behind ?_)
    refine moves_andThen (moves_name _ _ _ _) (.inr fun _ => trivial) ?_
    intro property rest hs _
    exact (ih rest (.cons _ hs)).callTail (.get callee property)
  · split
    · exact moves_of_absurd hus ‹_›
    · exact moves_of_absurd hus ‹_›
    · subst hus
      exact moves_done (Renumber.expr f) callee ts

theorem of_unary : (Grammar.unary n ts).Moves f more (more = []) (Renumber.expr f)
    (Grammar.unary n' (moved f more ts)) := by
  unfold Grammar.unary
  generalize hus : moved f more ts = us
  split
  · subst hus
    refine moves_behind (moves_map (ih _ (.tail _ _)).unary ?_)
    exact fun _ => rfl
  · subst hus
    refine moves_behind (moves_map (ih _ (.tail _ _)).unary ?_)
    exact fun _ => rfl
  · split
    · exact moves_of_absurd hus ‹_›
    · exact moves_of_absurd hus ‹_›
    · subst hus
      unfold call
      refine moves_andThen (of_primary ih) (.inr id) fun callee rest hs _ => ?_
      exact (ih rest hs).callTail callee

theorem of_infixTail (level : Level) (left : Expr Unit) :
    (Grammar.infixTail n level left ts).Moves f more (more = []) (Renumber.expr f)
      (Grammar.infixTail n' level (Renumber.expr f left) (moved f more ts)) := by
  cases ts with
  | nil =>
    intro v r hs he hr
    unfold Grammar.infixTail at he ⊢
    cases he
    obtain rfl : more = [] := hr.resolve_left fun h => h rfl
    exact ⟨.refl _, rfl⟩
  | cons t rest =>
    unfold Grammar.infixTail
    simp only [moved_cons, Token.renumber]
    split
    · exact moves_done (Renumber.expr f) left (t :: rest)
    · rename_i op hop
      have ho := (ih rest (.tail t rest)).operand level
      refine moves_weaken (moves_behind (moves_andThen ho (.inr id) fun right rest' hs _ => ?_))
      rw [← Renumber.node]
      exact (ih rest' (.cons t hs)).infixTail level _

/-- By induction on the number of levels between this one and the unary operators. -/
theorem of_operand (level : Level) : (Grammar.operand n level ts).Moves f more (more = [])
    (Renumber.expr f) (Grammar.operand n' level (moved f more ts)) := by
  unfold Grammar.operand
  split
  · rename_i tighter ht
    unfold infixed
    refine moves_andThen (of_operand tighter) (.inr id) fun left rest hs _ => ?_
    exact (ih rest hs).infixTail tighter left
  · exact of_unary ih
termination_by level.height
decreasing_by exact Level.height_tighter ‹_›

theorem of_expression : (Grammar.expression n ts).Moves f more (more = []) (Renumber.expr f)
    (Grammar.expression n' (moved f more ts)) := by
  have hi : (infixed n .or ts).Moves f more (more = []) (Renumber.expr f)
      (infixed n' .or (moved f more ts)) := by
    unfold infixed
    refine moves_andThen (of_operand ih .or) (.inr id) fun left rest hs _ => ?_
    exact (ih rest hs).infixTail .or left
  unfold Grammar.expression
  refine moves_andThen hi (.inr id) fun target rest hs _ => ?_
  cases rest with
  | nil =>
    refine moves_at_end ?_
    rintro rfl
    exact moves_done (Renumber.expr f) target []
  | cons t rest =>
    obtain ⟨kind, line⟩ := t
    cases kind with
    | symbol s =>
      simp only [moved_cons, Token.renumber]
      split
      · exact moves_done (Renumber.expr f) target _
      · have he := (ih _ (hs.trans (.tail _ _))).expression
        refine moves_weaken (moves_behind (moves_andThen he (.inr id) fun value rest' _ _ => ?_))
        rw [Renumber.assignment?]
        cases target.assignment? _ line value with
        | some e => exact moves_done (Renumber.expr f) e rest'
        | none =>
          refine moves_after (moves_done (Renumber.expr f) target rest') fun h => ?_
          exact absurd h (List.cons_ne_nil _ _)
    | _ => exact moves_done (Renumber.expr f) target _

theorem of_argumentList (count : Nat) :
    (Grammar.argumentList n count ts).Moves f more (more = []) (Renumber.exprs f)
      (Grammar.argumentList n' count (moved f more ts)) := by
  unfold Grammar.argumentList
  refine moves_after ?_ (excess_eq_nil _)
  refine moves_andThen (of_expression ih) (.inr id) fun arg rest hs _ => ?_
  cases rest with
  | nil =>
    refine moves_at_end ?_
    rintro rfl
    exact moves_done (Renumber.exprs f) [arg] []
  | cons t rest =>
    obtain ⟨kind, line⟩ := t
    cases kind with
    | symbol s =>
      cases s with
      | comma =>
        have hl := (ih _ (hs.trans (.tail _ _))).argumentList (count + 1)
        refine moves_weaken (moves_behind (moves_map hl ?_))
        exact fun _ => rfl
      | _ => exact moves_done (Renumber.exprs f) [arg] _
    | _ => exact moves_done (Renumber.exprs f) [arg] _

theorem of_arguments : (Grammar.arguments n ts).Moves f more (more = []) (Renumber.exprs f)
    (Grammar.arguments n' (moved f more ts)) := by
  have hlist := moves_weaken (of_argumentList ih 0)
  unfold Grammar.arguments
  generalize hus : moved f more ts = us at hlist ⊢
  split
  · subst hus
    exact moves_done (Renumber.exprs f) [] _
  · split
    · exact moves_of_absurd hus ‹_›
    · exact hlist

theorem of_expressionUnless (stop : Symbol) :
    (Grammar.expressionUnless n stop ts).Moves f more (more = []) (Renumber.optionalExpr f)
      (Grammar.expressionUnless n' stop (moved f more ts)) := by
  have he : ((Grammar.expression n ts).map some).weaken.Moves f more (more = [])
      (Renumber.optionalExpr f)
      ((Grammar.expression n' (moved f more ts)).map some).weaken :=
    moves_weaken (moves_map (of_expression ih) fun _ => rfl)
  unfold Grammar.expressionUnless
  cases ts with
  | nil =>
    refine moves_at_end ?_
    rintro rfl
    exact he
  | cons t rest =>
    obtain ⟨kind, line⟩ := t
    simp only [moved_cons, Token.renumber, List.head?_cons] at he ⊢
    cases kind with
    | symbol s =>
      dsimp only
      split
      · exact moves_done (Renumber.optionalExpr f) none _
      · exact he
    | _ => exact he

theorem of_expressionStatement :
    (expressionStatement n ts).Moves f more True (Renumber.stmt f)
      (expressionStatement n' (moved f more ts)) := by
  unfold expressionStatement
  refine moves_andThen (of_expression ih) (.inl rfl) fun e rest hs _ => ?_
  exact moves_map (moves_symbol _ _ _ _ _) fun _ => rfl

theorem of_varDeclaration : (Grammar.varDeclaration n ts).Moves f more True (Renumber.stmt f)
    (Grammar.varDeclaration n' (moved f more ts)) := by
  unfold Grammar.varDeclaration
  refine moves_andThen (moves_name _ _ _ _) (.inl rfl) fun x rest hs _ => ?_
  cases rest with
  | nil => exact moves_nil _ _ _
  | cons t rest =>
    have hsemi : ((symbol .semicolon .variableEnd n (t :: rest)).map
        fun _ => (.var x none : Stmt Unit)).Moves f more True (Renumber.stmt f)
        ((symbol .semicolon .variableEnd n' (moved f more (t :: rest))).map
          fun _ => .var (x.renumber f) none) :=
      moves_map (moves_symbol _ _ _ _ _) fun _ => rfl
    obtain ⟨kind, line⟩ := t
    cases kind with
    | symbol s =>
      cases s with
      | equal =>
        have he := (ih _ (hs.trans (.tail _ _))).expression
        refine moves_behind (moves_andThen he (.inl rfl) fun value rest' hs' _ => ?_)
        exact moves_map (moves_symbol _ _ _ _ _) fun _ => rfl
      | _ => exact hsemi
    | _ => exact hsemi

theorem of_initializer : (Grammar.initializer n ts).Moves f more True (Renumber.optionalStmt f)
    (Grammar.initializer n' (moved f more ts)) := by
  unfold Grammar.initializer
  generalize hus : moved f more ts = us
  split
  · subst hus
    exact moves_behind (moves_done (Renumber.optionalStmt f) none _)
  · subst hus
    refine moves_behind (moves_map (ih _ (.tail _ _)).varDeclaration ?_)
    exact fun _ => rfl
  · cases ts with
    | nil => exact moves_nil _ _ _
    | cons t rest =>
      split
      · exact absurd_of_moved hus ‹_›
      · exact absurd_of_moved hus ‹_›
      · subst hus
        exact moves_map (of_expressionStatement ih) fun _ => rfl

theorem of_methods : (Grammar.methods n ts).Moves f more True (Renumber.methods f)
    (Grammar.methods n' (moved f more ts)) := by
  unfold Grammar.methods
  generalize hus : moved f more ts = us
  split
  · subst hus
    exact moves_behind (moves_done (Renumber.methods f) [] _)
  · exact moves_nil _ _ _
  · cases ts with
    | nil => exact moves_nil _ _ _
    | cons t rest =>
      split
      · exact absurd_of_moved hus ‹_›
      · cases hus
      · subst hus
        refine moves_andThen (moves_name _ _ _ _) (.inl rfl) fun x rest₁ h₁ _ => ?_
        refine moves_andThen ((ih _ h₁).code .method) (.inl rfl) fun body rest₂ h₂ _ => ?_
        exact moves_map (ih _ (h₁.trans h₂)).methods fun _ => rfl

theorem of_classDeclaration : (Grammar.classDeclaration n ts).Moves f more True (Renumber.stmt f)
    (Grammar.classDeclaration n' (moved f more ts)) := by
  unfold Grammar.classDeclaration
  refine moves_andThen (moves_name _ _ _ _) (.inl rfl) fun x rest₁ h₁ _ => ?_
  refine moves_andThen (moves_superclass _ _ _) (.inl rfl) fun parent rest₂ h₂ _ => ?_
  refine moves_andThen (moves_symbol _ _ _ _ _) (.inl rfl) fun _ rest₃ h₃ _ => ?_
  exact moves_map (ih _ ((h₁.trans h₂).trans h₃)).methods fun _ => rfl

theorem of_statement (helse : ∀ l r, more = ⟨.keyword .else_, l⟩ :: r → False) :
    (Grammar.statement n ts).Moves f more True (Renumber.stmt f)
      (Grammar.statement n' (moved f more ts)) := by
  cases ts with
  | nil => exact moves_nil _ _ _
  | cons t rest =>
    have he := of_expressionStatement ih
    obtain ⟨kind, line⟩ := t
    have go {b : Bool} (rest' : List Token) (hs : Shrinks b rest' rest) :
        MovesAll f more n n' rest' := ih rest' (.cons _ hs)
    unfold Grammar.statement
    cases kind with
    | keyword k =>
      cases k with
      | for_ =>
        refine moves_behind ?_
        refine moves_andThen (moves_symbol _ _ _ _ _) (.inl rfl) fun _ r₁ h₁ _ => ?_
        refine moves_andThen (go _ h₁).initializer (.inl rfl) fun initial r₂ h₂ _ => ?_
        have h₂ := h₁.trans h₂
        refine moves_andThen ((go _ h₂).expressionUnless _) (.inl rfl) fun condition r₃ h₃ _ => ?_
        have h₃ := h₂.trans h₃
        refine moves_andThen (moves_symbol _ _ _ _ _) (.inl rfl) fun _ r₄ h₄ _ => ?_
        have h₄ := h₃.trans h₄
        refine moves_andThen ((go _ h₄).expressionUnless _) (.inl rfl) fun step r₅ h₅ _ => ?_
        have h₅ := h₄.trans h₅
        refine moves_andThen (moves_symbol _ _ _ _ _) (.inl rfl) fun _ r₆ h₆ _ => ?_
        exact moves_map (go _ (h₅.trans h₆)).statement (Renumber.forLoop f initial condition step)
      | if_ =>
        refine moves_behind ?_
        refine moves_andThen (moves_symbol _ _ _ _ _) (.inl rfl) fun _ r₁ h₁ _ => ?_
        refine moves_andThen (go _ h₁).expression (.inl rfl) fun condition r₂ h₂ _ => ?_
        have h₂ := h₁.trans h₂
        refine moves_andThen (moves_symbol _ _ _ _ _) (.inl rfl) fun _ r₃ h₃ _ => ?_
        have h₃ := h₂.trans h₃
        refine moves_andThen (go _ h₃).statement (.inr id) fun yes r₄ h₄ _ => ?_
        have h₄ := h₃.trans h₄
        have hno : (done (.branch condition yes none) r₄).Moves f more True (Renumber.stmt f)
            (done (Renumber.stmt f (.branch condition yes none)) (moved f more r₄)) :=
          moves_done _ _ _
        cases r₄ with
        | nil =>
          cases more with
          | nil => exact hno
          | cons u more =>
            obtain ⟨kind, line⟩ := u
            cases kind with
            | keyword k =>
              cases k with
              | else_ => exact (helse _ _ rfl).elim
              | _ => exact hno
            | _ => exact hno
        | cons u r₄ =>
          obtain ⟨kind, line⟩ := u
          cases kind with
          | keyword k =>
            cases k with
            | else_ =>
              have hs := (go _ (h₄.trans (.tail _ _))).statement
              refine moves_weaken (moves_behind (moves_map hs ?_))
              exact fun _ => rfl
            | _ => exact hno
          | _ => exact hno
      | print_ =>
        have hr := (go rest (.refl rest)).expression
        refine moves_behind (moves_andThen hr (.inl rfl) fun e r hs _ => ?_)
        exact moves_map (moves_symbol _ _ _ _ _) fun _ => rfl
      | return_ =>
        have hr := (go rest (.refl rest)).expressionUnless .semicolon
        refine moves_behind (moves_andThen hr (.inl rfl) fun value r hs _ => ?_)
        exact moves_map (moves_symbol _ _ _ _ _) fun _ => rfl
      | while_ =>
        refine moves_behind ?_
        refine moves_andThen (moves_symbol _ _ _ _ _) (.inl rfl) fun _ r₁ h₁ _ => ?_
        refine moves_andThen (go _ h₁).expression (.inl rfl) fun condition r₂ h₂ _ => ?_
        have h₂ := h₁.trans h₂
        refine moves_andThen (moves_symbol _ _ _ _ _) (.inl rfl) fun _ r₃ h₃ _ => ?_
        exact moves_map (go _ (h₂.trans h₃)).statement fun _ => rfl
      | _ => exact he
    | symbol s =>
      cases s with
      | leftBrace =>
        refine moves_behind (moves_map (go rest (.refl rest)).block ?_)
        exact fun _ => rfl
      | _ => exact he
    | _ => exact he

omit ih in
/-- A declaration read without complaints is no failure. -/
theorem of_declaration {t : Token} {rest : List Token}
    (ih : ∀ rest', Shrinks true rest' (t :: rest) → MovesAll f more n n' rest')
    (helse : ∀ l r, more = ⟨.keyword .else_, l⟩ :: r → False)
    (hn : (declaration n t rest).notes = []) :
    ∃ s hs', (declaration n t rest).statement = some s ∧
      declaration n' (t.renumber f) (moved f more rest) =
        ⟨some (Renumber.stmt f s), moved f more (declaration n t rest).rest, hs', []⟩ := by
  have hst := of_statement ih helse
  unfold declaration at hn ⊢
  refine moves_recover ?_ hn
  clear hn
  obtain ⟨kind, line⟩ := t
  cases kind with
  | keyword k =>
    cases k with
    | class_ => exact moves_behind (of_classDeclaration fun r hs => ih r (.cons _ hs))
    | var_ => exact moves_behind (of_varDeclaration fun r hs => ih r (.cons _ hs))
    | fun_ =>
      cases rest with
      | nil =>
        -- A lone `fun` is no statement, whatever it means in front of `more`.
        change (Grammar.statement n [⟨.keyword .fun_, line⟩]).Moves f more True _ _
        rw [Grammar.statement.eq_def]
        change (expressionStatement n [⟨.keyword .fun_, line⟩]).Moves f more True _ _
        rw [expressionStatement]
        refine moves_of_andThen fun e rest hs => ?_
        obtain rfl : rest = [] := List.eq_nil_of_length_eq_zero (Nat.lt_one_iff.1 hs.lt)
        exact moves_nil _ _ _
      | cons u rest =>
        obtain ⟨kind, line⟩ := u
        cases kind with
        | identifier text =>
          have hc := of_code (fun r (hs : Shrinks true r rest) =>
            ih r (.trans (.tail _ _) (.trans (.tail _ _) hs))) .function
          refine moves_behind (moves_behind (moves_map hc ?_))
          exact fun _ => rfl
        | _ => exact hst
    | _ => exact hst
  | _ => exact hst

theorem of_block (helse : ∀ l r, more = ⟨.keyword .else_, l⟩ :: r → False) :
    (Grammar.block n ts).Moves f more True (Renumber.stmts f)
      (Grammar.block n' (moved f more ts)) := by
  cases ts with
  | nil => exact moves_nil _ _ _
  | cons t rest =>
    by_cases ht : t.kind = .symbol .rightBrace
    · obtain ⟨kind, line⟩ := t
      subst ht
      unfold Grammar.block
      exact moves_behind (moves_done (Renumber.stmts f) [] rest)
    · rw [block_cons n ht, moved_cons, block_cons n' (t := t.renumber f) ht]
      refine moves_of_after fun hnotes => ?_
      obtain ⟨s, hs', hs, hd⟩ := of_declaration ih helse hnotes
      have hb := (ih _ (declaration n t rest).shrinks).block
      rw [hd, hs, after_nil]
      refine moves_within (moves_map hb ?_) _ _
      exact fun _ => rfl

end MovesAll

/-- Where `more` does not go on with an `else`, reading is not changed by it. -/
theorem movesAll {f : Nat → Nat} {more : List Token} (n n' : Nat)
    (helse : ∀ l r, more = ⟨.keyword .else_, l⟩ :: r → False) (ts : List Token) :
    MovesAll f more n n' ts :=
  have ih : ∀ rest, Shrinks true rest ts → MovesAll f more n n' rest :=
    fun rest _ => movesAll n n' helse rest
  { expression := MovesAll.of_expression ih
    operand := MovesAll.of_operand ih
    infixTail := MovesAll.of_infixTail ih
    unary := MovesAll.of_unary ih
    callTail := MovesAll.of_callTail ih
    arguments := MovesAll.of_arguments ih
    argumentList := MovesAll.of_argumentList ih
    code := MovesAll.of_code ih
    block := MovesAll.of_block ih helse
    methods := MovesAll.of_methods ih
    classDeclaration := MovesAll.of_classDeclaration ih
    varDeclaration := MovesAll.of_varDeclaration ih
    expressionUnless := MovesAll.of_expressionUnless ih
    initializer := MovesAll.of_initializer ih
    statement := MovesAll.of_statement ih helse }
termination_by ts.length
decreasing_by exact ‹Shrinks true rest ts›.lt

/-- A program read without complaints is read first when more follows it. -/
theorem program_moved {f : Nat → Nat} {more : List Token} (n n' : Nat)
    (helse : ∀ l r, more = ⟨.keyword .else_, l⟩ :: r → False) (ts : List Token)
    (h : (program n ts).2 = []) :
    program n' (moved f more ts) =
      (Renumber.stmts f (program n ts).1 ++ (program n' more).1, (program n' more).2) := by
  cases ts with
  | nil => rw [program, moved_nil, Renumber.stmts, List.nil_append]
  | cons t rest =>
    rw [program] at h ⊢
    obtain ⟨hnotes, hmore⟩ := List.append_eq_nil_iff.1 h
    obtain ⟨s, hs', hs, hd⟩ :=
      MovesAll.of_declaration (fun rest' _ => movesAll n n' helse rest') helse hnotes
    have hlt := (declaration n t rest).shrinks.lt
    have ih := program_moved (f := f) n n' helse _ hmore
    rw [moved_cons, program, hd]
    simp only [ih, hs, Option.toList_some, List.nil_append, Renumber.stmts, List.cons_append]
termination_by ts.length
/-- Nothing has been read. -/
def fails {b : Bool} {ts : List Token} {α : Type} (p : Parsed b ts α) : Prop :=
  ∃ rest hs notes complained, p = failed rest hs notes complained

theorem fails_andThen {a b : Bool} {ts : List Token} {α β : Type} {p : Parsed a ts α}
    (h : fails p) (next : α → (rest : List Token) → Shrinks a rest ts → Parsed b rest β) :
    fails (p.andThen next) := by
  obtain ⟨rest, hs, notes, complained, rfl⟩ := h
  exact ⟨rest, hs, notes, complained, rfl⟩

/-- By induction on the number of levels between this one and the unary operators. -/
theorem fails_operand {n : Nat} {ts : List Token} (level : Level) (h : fails (unary n ts)) :
    fails (operand n level ts) := by
  unfold operand
  split
  · unfold infixed
    exact fails_andThen (fails_operand _ h) _
  · exact h
termination_by level.height
decreasing_by exact Level.height_tighter ‹_›

/-- No program starts with an `else`. -/
theorem program_else (n : Nat) (line : Nat) (rest : List Token) :
    (program n (⟨.keyword .else_, line⟩ :: rest)).2 ≠ [] := by
  have hu : fails (unary n (⟨.keyword .else_, line⟩ :: rest)) := by
    unfold unary call primary
    exact fails_andThen ⟨_, _, _, _, rfl⟩ _
  have hs : fails (statement n (⟨.keyword .else_, line⟩ :: rest)) := by
    unfold statement expressionStatement expression infixed
    exact fails_andThen (fails_andThen (fails_andThen (fails_operand .or hu) _) _) _
  have hd : (declaration n ⟨.keyword .else_, line⟩ rest).notes ≠ [] := by
    obtain ⟨_, _, _, complained, hs⟩ := hs
    unfold declaration
    change (statement n _).recover.notes ≠ []
    rw [hs]
    exact complained
  rw [program]
  exact List.append_ne_nil_of_left_ne_nil hd _

end Grammar
end LoxScript
