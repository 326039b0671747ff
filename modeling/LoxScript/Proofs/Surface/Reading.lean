import LoxScript.Proofs.Grammar.WellFormed
import LoxScript.Proofs.Printed.Statements
import LoxScript.Proofs.Surface.Tree

/-!
What is read has been written.

Tokens that are read without complaints are those of a surface tree that the grammar allows, and
what is read is the core of that tree.  Each reader accounts for the tokens from where it starts to
where it stops; a tree keeps no line for most of them, so the layout is taken from the tokens.
-/

namespace LoxScript

theorem suffix_tail {α : Type} {x : α} {l all : List α} (h : x :: l <:+ all) : l <:+ all :=
  (List.suffix_cons x l).trans h

namespace Layout

/-- The layout of the given tokens.  What stands before a rest is found by counting from the end. -/
def of (all : List Token) : Layout where
  line rest := match all.reverse[rest.length]? with
    | some t => t.line
    | none => 0
  numeral _ rest := match all.reverse[rest.length]? with
    | some t => t.lexeme
    | none => ""

section
variable {all rest : List Token} {line : Nat}

theorem before_rest {t : Token} (h : t :: rest <:+ all) : all.reverse[rest.length]? = some t := by
  obtain ⟨front, rfl⟩ := h
  simp

theorem line_of {t : Token} (h : t :: rest <:+ all) : (of all).line rest = t.line := by
  simp only [of, before_rest h]

theorem symbol_of {s : Symbol} (h : ⟨.symbol s, line⟩ :: rest <:+ all) :
    (of all).symbol s rest = ⟨.symbol s, line⟩ :: rest := by
  rw [symbol, line_of h]

theorem keyword_of {k : Keyword} (h : ⟨.keyword k, line⟩ :: rest <:+ all) :
    (of all).keyword k rest = ⟨.keyword k, line⟩ :: rest := by
  rw [keyword, line_of h]

end
end Layout

namespace Parsed

/-- Whatever is read without complaints satisfies a relation to the tokens left, with which all
tokens end. -/
def Yields {a : Bool} {ts : List Token} {α : Type} (p : Parsed a ts α) (all : List Token)
    (R : α → List Token → Prop) : Prop :=
  ∀ v rest h, p = ok v rest h [] → rest <:+ all ∧ R v rest

section
variable {a b : Bool} {ts all : List Token} {α β : Type} {R : α → List Token → Prop}
  {Q : β → List Token → Prop}

theorem yields_done {v : α} (h : ts <:+ all) (hv : R v ts) : (done v ts).Yields all R := by
  rintro _ _ _ ⟨⟩
  exact ⟨h, hv⟩

theorem yields_fail (m : Mistake) (n : Nat) : (fail m n ts : Parsed a ts α).Yields all R := by
  intro _ _ _ h
  cases h

theorem yields_after {p : Parsed a ts α} {ds : List Diagnostic} (h : ds = [] → p.Yields all R) :
    (p.after ds).Yields all R := by
  intro v rest hs he
  cases p with
  | failed => cases he
  | ok v' rest' hs' notes =>
    simp only [after, ok.injEq, List.append_eq_nil_iff] at he
    obtain ⟨rfl, rfl, hds, rfl⟩ := he
    exact h hds _ _ _ rfl

theorem yields_behind {p : Parsed a ts α} (h : p.Yields all R) {t : Token} :
    (p.behind (t := t)).Yields all R := by
  intro v rest hs he
  cases p <;> cases he
  exact h _ _ _ rfl

theorem yields_weaken {p : Parsed a ts α} (h : p.Yields all R) : p.weaken.Yields all R := by
  intro v rest hs he
  cases p <;> cases he
  exact h _ _ _ rfl

theorem yields_within {p : Parsed a ts α} (h : p.Yields all R) {us : List Token}
    (hs : Shrinks b ts us) : (p.within hs).Yields all R := by
  intro v rest hs he
  cases p <;> cases he
  exact h _ _ _ rfl

theorem yields_map {f : α → β} {p : Parsed a ts α} (h : p.Yields all fun v => Q (f v)) :
    (p.map f).Yields all Q := by
  intro v rest hs he
  cases p <;> cases he
  exact h _ _ _ rfl

theorem yields_andThen {p : Parsed a ts α}
    {next : α → (rest : List Token) → Shrinks a rest ts → Parsed b rest β} (h : p.Yields all R)
    (hn : ∀ v rest hs, rest <:+ all → R v rest → (next v rest hs).Yields all Q) :
    (p.andThen next).Yields all Q := by
  intro w rest' hs he
  cases p with
  | failed => cases he
  | ok v rest hs₀ notes =>
    simp only [andThen] at he
    cases hnext : next v rest hs₀ with
    | failed => simp [hnext] at he
    | ok w' rest₁ hs₁ notes' =>
      simp only [hnext, ok.injEq, List.append_eq_nil_iff] at he
      obtain ⟨rfl, rfl, rfl, rfl⟩ := he
      have hv := h _ _ _ rfl
      exact hn v rest hs₀ hv.1 hv.2 _ _ _ hnext

theorem Yields.mono {S : α → List Token → Prop} {p : Parsed a ts α} (h : p.Yields all R)
    (hRS : ∀ v rest, R v rest → S v rest) : p.Yields all S := by
  intro v rest hs he
  have hv := h v rest hs he
  exact ⟨hv.1, hRS v rest hv.2⟩

theorem yields_symbol (s : Symbol) (m : Mistake) (n : Nat) (h : ts <:+ all) :
    (symbol s m n ts).Yields all fun line rest =>
      ⟨.symbol s, line⟩ :: rest = ts ∧ (Layout.of all).symbol s rest = ts := by
  cases ts with
  | nil => exact yields_fail m n
  | cons t rest =>
    obtain ⟨kind, line⟩ := t
    by_cases hk : kind = .symbol s
    · subst hk
      rw [symbol, if_pos rfl]
      exact yields_behind (yields_done (suffix_tail h) ⟨rfl, Layout.symbol_of h⟩)
    · rw [symbol, if_neg hk]
      exact yields_fail m n

theorem yields_name (m : Mistake) (n : Nat) (h : ts <:+ all) :
    (name m n ts).Yields all fun x rest => x.token :: rest = ts := by
  unfold name
  split
  · refine yields_behind (yields_done (suffix_tail h) ?_)
    rfl
  · exact yields_fail m n

end
end Parsed

/-! ### What a reader has read -/

namespace Surface
open Elaboration

section
variable (all ts : List Token)

/-- The tokens from `ts` to the rest are those of a tree with the given property, whose core is the
value. -/
def Wrote {σ α : Type} (value : σ → α) (tokens : Layout → σ → List Token → List Token)
    (P : σ → Prop) (v : α) (rest : List Token) : Prop :=
  ∃ e, value e = v ∧ P e ∧ tokens (.of all) e rest = ts

def WroteExpr (strength : Nat) : LoxScript.Expr Unit → List Token → Prop :=
  Wrote all ts core.expr Printed.expr fun e => strength ≤ e.strength ∧ Proper.expr e

def WroteStmt (P : Stmt → Prop) : LoxScript.Stmt Unit → List Token → Prop :=
  Wrote all ts core.stmt Printed.stmt fun s => P s ∧ Proper.stmt s

/-- A statement that may be a branch; if it could go on with an `else`, no `else` is next. -/
def WroteBody (v : LoxScript.Stmt Unit) (rest : List Token) : Prop :=
  WroteStmt all ts (fun s => s.declares = false ∧ (s.endsOpen = true → NoElse rest)) v rest

end

theorem noElse_of_closed {s : Stmt} (h : s.endsOpen = false) {rest : List Token} :
    s.endsOpen = true → NoElse rest :=
  fun ho => absurd (h.symm.trans ho) Bool.false_ne_true

theorem WroteExpr.weaken {all ts rest : List Token} {k k' : Nat} {v : LoxScript.Expr Unit}
    (h : WroteExpr all ts k v rest) (hle : k' ≤ k) : WroteExpr all ts k' v rest := by
  obtain ⟨e, he, ⟨hs, hp⟩, htoks⟩ := h
  exact ⟨e, he, ⟨Nat.le_trans hle hs, hp⟩, htoks⟩

theorem infix_of_atLevel {level : Level} {k : TokenKind} {op : Infix}
    (h : Infix.atLevel? level k = some op) : k = op.kind ∧ op.level = level := by
  obtain ⟨hk, hl⟩ := Option.filter_eq_some_iff.1 h
  refine ⟨?_, of_decide_eq_true hl⟩
  unfold Infix.ofKind? at hk
  split at hk
  all_goals (cases hk <;> rfl)

/-- What was read in front of an assignment symbol is a place if it can be assigned to. -/
theorem wrote_assignment {all ts rest rest' : List Token} {target value e : LoxScript.Expr Unit}
    {op : Option ArithOp} {s : Symbol} {line : Nat} (ht : WroteExpr all ts 2 target
      (⟨.symbol s, line⟩ :: rest)) (hs : s.assignment? = some op)
    (hr : ⟨.symbol s, line⟩ :: rest <:+ all) (hv : WroteExpr all rest 1 value rest')
    (he : target.assignment? op line value = some e) : WroteExpr all ts 1 e rest' := by
  obtain ⟨t, rfl, ⟨-, htp⟩, htoks⟩ := ht
  obtain ⟨v, rfl, ⟨-, hvp⟩, rfl⟩ := hv
  have hsign : Printed.sign (.of all) (.ofSymbol op line) (Printed.expr (.of all) v rest') =
      ⟨.symbol s, line⟩ :: Printed.expr (.of all) v rest' := by
    cases s <;> cases hs
    all_goals first | rfl | exact Layout.symbol_of hr
  cases t with
  | var x =>
    refine ⟨.assign x (.ofSymbol op line) v, ?_, ⟨Nat.le_refl 1, hvp⟩, ?_⟩
    · cases op <;> exact Option.some.inj he
    · rw [Printed.expr, hsign]
      exact htoks
  | get object x =>
    refine ⟨.set object x (.ofSymbol op line) v, ?_, ⟨Nat.le_refl 1, htp.1, htp.2, hvp⟩, ?_⟩
    · cases op <;> exact Option.some.inj he
    · rw [Printed.expr, hsign]
      exact htoks
  | infixed left o l right => cases o <;> cases op <;> cases he
  | assign x sign w => cases sign <;> cases op <;> cases he
  | set o x sign w => cases sign <;> cases op <;> cases he
  | _ => cases op <;> cases he

end Surface

namespace Grammar
open Parsed Surface Elaboration

theorem yields_parameterList (n count : Nat) {all ts : List Token} (h : ts <:+ all) :
    (parameterList n count ts).Yields all fun xs rest =>
      (xs ≠ [] ∧ count + xs.length ≤ Mistake.maxArguments) ∧
        (Layout.of all).parameters xs rest = ts := by
  fun_induction parameterList n count ts with
  | case1 count text line line' rest excess ih =>
    refine yields_after fun _ => yields_behind (yields_behind (yields_map ?_))
    refine (ih (suffix_tail (suffix_tail h))).mono fun xs rest' hxs => ?_
    obtain ⟨⟨hne, hlen⟩, htoks⟩ := hxs
    refine ⟨⟨List.cons_ne_nil _ _, ?_⟩, ?_⟩
    · simp only [List.length_cons]
      omega
    · cases xs with
      | nil => exact absurd rfl hne
      | cons y ys =>
        have hcomma : (Layout.of all).symbol .comma rest = ⟨.symbol .comma, line'⟩ :: rest :=
          Layout.symbol_of (suffix_tail h)
        simp only [Layout.parameters, Layout.moreParameters] at htoks ⊢
        rw [htoks, hcomma]
        rfl
  | case2 count text line rest hrest excess =>
    refine yields_after fun hex => yields_behind (yields_done (suffix_tail h) ?_)
    refine ⟨⟨List.cons_ne_nil _ _, ?_⟩, rfl⟩
    by_cases hlt : count < Mistake.maxArguments
    · exact hlt
    · simp [excess, hlt] at hex
  | case3 count ts _ excess => exact yields_after fun _ => yields_fail _ _

theorem yields_parameters (n : Nat) {all ts : List Token} (h : ts <:+ all) :
    (parameters n ts).Yields all fun xs rest =>
      xs.length ≤ Mistake.maxArguments ∧ (Layout.of all).parameters xs rest = ts := by
  unfold parameters
  split
  · exact yields_done h ⟨Nat.zero_le _, rfl⟩
  · refine yields_weaken ((yields_parameterList n 0 h).mono fun xs rest hxs => ?_)
    exact ⟨Nat.zero_add xs.length ▸ hxs.1.2, hxs.2⟩

theorem yields_superclass (n : Nat) {all ts : List Token} (h : ts <:+ all) :
    (superclass n ts).Yields all fun parent rest =>
      (Layout.of all).superclass parent rest = ts := by
  unfold superclass
  split
  · refine yields_weaken (yields_behind (yields_map ?_))
    refine (yields_name _ n (suffix_tail h)).mono fun x rest hx => ?_
    rw [Layout.superclass, hx, Layout.symbol_of h]
  · exact yields_done h rfl

/-- Every reader accounts for the tokens that it takes. -/
structure Accounts (n : Nat) (all ts : List Token) : Prop where
  expression : (expression n ts).Yields all (WroteExpr all ts 1)
  operand (level : Level) : (operand n level ts).Yields all (WroteExpr all ts (level.strength + 1))
  infixTail (level : Level) (left : LoxScript.Expr Unit) (us : List Token) :
    WroteExpr all us level.strength left ts →
      (infixTail n level left ts).Yields all (WroteExpr all us level.strength)
  unary : (unary n ts).Yields all (WroteExpr all ts 8)
  callTail (callee : LoxScript.Expr Unit) (us : List Token) :
    WroteExpr all us 9 callee ts → (callTail n callee ts).Yields all (WroteExpr all us 9)
  arguments : (arguments n ts).Yields all (Wrote all ts core.exprs Printed.exprs fun es =>
    es.length ≤ Mistake.maxArguments ∧ Proper.exprs es)
  argumentList (count : Nat) :
    (argumentList n count ts).Yields all (Wrote all ts core.exprs Printed.exprs fun es =>
      (es ≠ [] ∧ count + es.length ≤ Mistake.maxArguments) ∧ Proper.exprs es)
  code (kind : CodeKind) :
    (code n kind ts).Yields all (Wrote all ts core.code Printed.code Proper.code)
  block : (block n ts).Yields all (Wrote all ts core.stmts
    (fun L ss rest => Printed.stmts L ss (L.symbol .rightBrace rest)) Proper.stmts)
  methods : (methods n ts).Yields all (Wrote all ts core.methods
    (fun L ms rest => Printed.methods L ms (L.symbol .rightBrace rest)) Proper.methods)
  classDeclaration :
    (classDeclaration n ts).Yields all (WroteStmt all ((Layout.of all).keyword .class_ ts)
      fun _ => True)
  varDeclaration :
    (varDeclaration n ts).Yields all (WroteStmt all ((Layout.of all).keyword .var_ ts)
      fun s => s.isInitial = true)
  expressionUnless (stop : Symbol) :
    (expressionUnless n stop ts).Yields all
      (Wrote all ts core.optionalExpr Printed.optionalExpr Proper.optionalExpr)
  initializer : (initializer n ts).Yields all
    (Wrote all ts core.optionalStmt Printed.initializer Proper.initializer)
  statement : (statement n ts).Yields all (WroteBody all ts)

namespace Accounts
variable {n : Nat} {all ts : List Token}
  (ih : ∀ rest, Shrinks true rest ts → rest <:+ all → Accounts n all rest) (h : ts <:+ all)
include ih h

theorem of_code (kind : CodeKind) : (Grammar.code n kind ts).Yields all
    (Wrote all ts core.code Printed.code Proper.code) := by
  unfold Grammar.code
  refine yields_andThen (yields_symbol _ _ _ h) fun _ r₁ s₁ h₁ e₁ => ?_
  refine yields_andThen (yields_parameters _ h₁) fun params r₂ s₂ h₂ e₂ => ?_
  refine yields_andThen (yields_symbol _ _ _ h₂) fun _ r₃ s₃ h₃ e₃ => ?_
  refine yields_andThen (yields_symbol _ _ _ h₃) fun _ r₄ s₄ h₄ e₄ => ?_
  have hs : Shrinks true r₄ ts := ((s₁.trans s₂).trans s₃).trans s₄
  refine yields_map ((ih r₄ hs h₄).block.mono fun body rest hb => ?_)
  obtain ⟨ss, rfl, hp, hss⟩ := hb
  refine ⟨.mk params ss, rfl, ⟨e₂.1, hp⟩, ?_⟩
  simp only [Printed.code, hss, e₄.2, e₃.2, e₂.2, e₁.2]

theorem of_primary : (primary n ts).Yields all (WroteExpr all ts 10) := by
  have tight : 10 ≤ 10 := Nat.le_refl 10
  unfold primary
  split
  · refine yields_behind (yields_done (suffix_tail h) ?_)
    exact ⟨.literal (.bool false), rfl, ⟨tight, trivial⟩, Layout.keyword_of h⟩
  · refine yields_behind (yields_done (suffix_tail h) ?_)
    exact ⟨.literal (.bool true), rfl, ⟨tight, trivial⟩, Layout.keyword_of h⟩
  · refine yields_behind (yields_done (suffix_tail h) ?_)
    exact ⟨.literal .nil, rfl, ⟨tight, trivial⟩, Layout.keyword_of h⟩
  · rename_i text value line rest
    refine yields_behind (yields_done (suffix_tail h) ?_)
    refine ⟨.literal (.number value), rfl, ⟨tight, trivial⟩, ?_⟩
    simp only [Printed.expr, Layout.literal, Layout.line_of h]
    simp only [Layout.of, Layout.before_rest h, Token.lexeme, TokenKind.lexeme]
  · rename_i text line rest
    refine yields_behind (yields_done (suffix_tail h) ?_)
    refine ⟨.literal (.string text), rfl, ⟨tight, trivial⟩, ?_⟩
    simp only [Printed.expr, Layout.literal, Layout.line_of h]
  · rename_i line rest
    refine yields_behind (yields_andThen (yields_symbol _ _ _ (suffix_tail h)) ?_)
    intro _ r₁ s₁ h₁ e₁
    refine yields_map ((yields_name _ _ h₁).mono fun x r₂ hx => ?_)
    refine ⟨.super line x, rfl, ⟨tight, trivial⟩, ?_⟩
    rw [Printed.expr, hx, e₁.2]
  · exact yields_behind (yields_done (suffix_tail h) ⟨.this _, rfl, ⟨tight, trivial⟩, rfl⟩)
  · exact yields_behind (yields_done (suffix_tail h) ⟨.var ⟨_, _⟩, rfl, ⟨tight, trivial⟩, rfl⟩)
  · rename_i line rest
    have hc := (ih rest (.tail _ _) (suffix_tail h)).code .function
    refine yields_behind (yields_map (hc.mono fun body r hb => ?_))
    obtain ⟨c, rfl, hp, rfl⟩ := hb
    exact ⟨.function line c, rfl, ⟨tight, hp⟩, rfl⟩
  · have he := (ih _ (.tail _ _) (suffix_tail h)).expression
    refine yields_behind (yields_andThen he fun inner r₁ s₁ h₁ e₁ => ?_)
    refine yields_map ((yields_symbol _ _ _ h₁).mono fun _ r₂ e₂ => ?_)
    obtain ⟨e, rfl, ⟨-, hp⟩, he⟩ := e₁
    refine ⟨.grouping e, rfl, ⟨tight, hp⟩, ?_⟩
    rw [Printed.expr, e₂.2, he, Layout.symbol_of h]
  · exact yields_fail _ _

theorem of_callTail (callee : LoxScript.Expr Unit) (us : List Token)
    (hc : WroteExpr all us 9 callee ts) :
    (Grammar.callTail n callee ts).Yields all (WroteExpr all us 9) := by
  obtain ⟨c, rfl, ⟨hs, hp⟩, rfl⟩ := hc
  unfold Grammar.callTail
  split
  · rename_i line rest
    have ha := (ih rest (.tail _ _) (suffix_tail h)).arguments
    refine yields_weaken (yields_behind (yields_andThen ha fun _ r₁ s₁ h₁ e₁ => ?_))
    refine yields_andThen (yields_symbol _ _ _ h₁) fun line r₂ s₂ h₂ e₂ => ?_
    obtain ⟨es, rfl, ⟨hlen, hes⟩, htoks⟩ := e₁
    refine (ih r₂ (.cons _ (s₁.trans s₂)) h₂).callTail _ _ ?_
    refine ⟨.call c line es, rfl, ⟨Nat.le_refl 9, hs, hlen, hp, hes⟩, ?_⟩
    rw [Printed.expr, e₂.1, htoks, Layout.symbol_of h]
  · refine yields_weaken (yields_behind (yields_andThen (yields_name _ _ (suffix_tail h)) ?_))
    intro x r₁ s₁ h₁ e₁
    refine (ih r₁ (.cons _ s₁) h₁).callTail _ _ ?_
    refine ⟨.get c x, rfl, ⟨Nat.le_refl 9, hs, hp⟩, ?_⟩
    rw [Printed.expr, e₁, Layout.symbol_of h]
  · exact yields_done h ⟨c, rfl, ⟨hs, hp⟩, rfl⟩

theorem of_unary : (Grammar.unary n ts).Yields all (WroteExpr all ts 8) := by
  have negated (op : UnaryOp) (line : Nat) (rest : List Token) (v : LoxScript.Expr Unit)
      (r : List Token) (hv : WroteExpr all rest 8 v r) :
      WroteExpr all (⟨.symbol op.symbol, line⟩ :: rest) 8 (.unary op line v) r := by
    obtain ⟨e, rfl, hp, rfl⟩ := hv
    exact ⟨.unary op line e, rfl, ⟨Nat.le_refl 8, hp⟩, rfl⟩
  unfold Grammar.unary
  split
  · have hu := (ih _ (.tail _ _) (suffix_tail h)).unary
    exact yields_behind (yields_map (hu.mono (negated .not _ _)))
  · have hu := (ih _ (.tail _ _) (suffix_tail h)).unary
    exact yields_behind (yields_map (hu.mono (negated .negate _ _)))
  · unfold call
    refine yields_andThen (of_primary ih h) fun callee r₁ s₁ h₁ e₁ => ?_
    have hc := (ih r₁ s₁ h₁).callTail callee ts (e₁.weaken (Nat.le_succ 9))
    exact hc.mono fun v r hv => hv.weaken (Nat.le_succ 8)

theorem of_infixTail (level : Level) (left : LoxScript.Expr Unit) (us : List Token)
    (hl : WroteExpr all us level.strength left ts) :
    (Grammar.infixTail n level left ts).Yields all (WroteExpr all us level.strength) := by
  cases ts with
  | nil =>
    unfold Grammar.infixTail
    exact yields_done h hl
  | cons t rest =>
    unfold Grammar.infixTail
    split
    · exact yields_done h hl
    · rename_i op hop
      obtain ⟨hk, hlevel⟩ := infix_of_atLevel hop
      have ho := (ih rest (.tail t rest) (suffix_tail h)).operand level
      refine yields_weaken (yields_behind (yields_andThen ho fun right r₁ s₁ h₁ e₁ => ?_))
      refine (ih r₁ (.cons t s₁) h₁).infixTail level _ us ?_
      obtain ⟨l, rfl, ⟨hls, hlp⟩, rfl⟩ := hl
      obtain ⟨r, rfl, ⟨hrs, hrp⟩, rfl⟩ := e₁
      subst hlevel
      refine ⟨.infixed l op t.line r, rfl, ⟨Nat.le_refl _, hls, hrs, hlp, hrp⟩, ?_⟩
      rw [Printed.expr, ← hk]

/-- By induction on the number of levels between this one and the unary operators. -/
theorem of_operand (level : Level) :
    (Grammar.operand n level ts).Yields all (WroteExpr all ts (level.strength + 1)) := by
  unfold Grammar.operand
  split
  · rename_i tighter ht
    rw [← Level.strength_tighter ht]
    unfold infixed
    refine yields_andThen (of_operand tighter) fun left r₁ s₁ h₁ e₁ => ?_
    exact (ih r₁ s₁ h₁).infixTail tighter left ts (e₁.weaken (Nat.le_succ _))
  · exact (of_unary ih h).mono fun v r hv => hv.weaken (Nat.succ_le_succ level.strength_le)
termination_by level.height
decreasing_by exact Level.height_tighter ‹_›

theorem of_expression : (Grammar.expression n ts).Yields all (WroteExpr all ts 1) := by
  have hi : (infixed n .or ts).Yields all (WroteExpr all ts 2) := by
    unfold infixed
    refine yields_andThen (of_operand ih h .or) fun left r₁ s₁ h₁ e₁ => ?_
    refine (ih r₁ s₁ h₁).infixTail .or left ts ?_
    obtain ⟨e, he, ⟨hs, hp⟩, htoks⟩ := e₁
    exact ⟨e, he, ⟨Nat.le_of_lt hs, hp⟩, htoks⟩
  have weaker (v : LoxScript.Expr Unit) (r : List Token) (hv : WroteExpr all ts 2 v r) :
      WroteExpr all ts 1 v r := by
    obtain ⟨e, he, ⟨hs, hp⟩, htoks⟩ := hv
    exact ⟨e, he, ⟨Nat.le_of_lt hs, hp⟩, htoks⟩
  unfold Grammar.expression
  refine yields_andThen hi fun target r₁ s₁ h₁ e₁ => ?_
  split
  · rename_i s line rest s₁
    split
    · exact yields_done h₁ (e₁.weaken (Nat.le_succ 1))
    · rename_i op hop
      have he := (ih rest (s₁.trans (.tail _ _)) (suffix_tail h₁)).expression
      refine yields_weaken (yields_behind (yields_andThen he fun value r₂ s₂ h₂ e₂ => ?_))
      split
      · exact yields_done h₂ (wrote_assignment e₁ hop h₁ e₂ ‹_›)
      · exact yields_after fun hnotes => absurd hnotes (List.cons_ne_nil _ _)
  · exact yields_done h₁ (e₁.weaken (Nat.le_succ 1))

theorem of_argumentList (count : Nat) : (Grammar.argumentList n count ts).Yields all
    (Wrote all ts core.exprs Printed.exprs fun es =>
      (es ≠ [] ∧ count + es.length ≤ Mistake.maxArguments) ∧ Proper.exprs es) := by
  unfold Grammar.argumentList
  refine yields_after fun hex => yields_andThen (of_expression ih h) fun arg r₁ s₁ h₁ e₁ => ?_
  split
  · rename_i line rest s₁
    obtain ⟨e, rfl, ⟨-, hp⟩, rfl⟩ := e₁
    have hl := (ih rest (s₁.trans (.tail _ _)) (suffix_tail h₁)).argumentList (count + 1)
    refine yields_weaken (yields_behind (yields_map (hl.mono fun vs r hv => ?_)))
    obtain ⟨es, rfl, ⟨⟨hne, hlen⟩, hes⟩, rfl⟩ := hv
    refine ⟨e :: es, rfl, ⟨⟨List.cons_ne_nil _ _, ?_⟩, hp, hes⟩, ?_⟩
    · simp only [List.length_cons]
      omega
    · cases es with
      | nil => exact absurd rfl hne
      | cons e' es =>
        have hcomma := Layout.symbol_of h₁
        simp only [Printed.exprs, Printed.moreExprs] at hcomma ⊢
        rw [hcomma]
  · obtain ⟨e, rfl, ⟨-, hp⟩, rfl⟩ := e₁
    refine yields_done h₁ ⟨[e], rfl, ⟨⟨List.cons_ne_nil _ _, ?_⟩, hp, trivial⟩, rfl⟩
    by_cases hlt : count < Mistake.maxArguments
    · exact hlt
    · simp [hlt] at hex

theorem of_arguments : (Grammar.arguments n ts).Yields all
    (Wrote all ts core.exprs Printed.exprs fun es =>
      es.length ≤ Mistake.maxArguments ∧ Proper.exprs es) := by
  unfold Grammar.arguments
  split
  · exact yields_done h ⟨[], rfl, ⟨Nat.zero_le _, trivial⟩, rfl⟩
  · refine yields_weaken ((of_argumentList ih h 0).mono fun v r hv => ?_)
    obtain ⟨es, he, ⟨⟨-, hlen⟩, hp⟩, htoks⟩ := hv
    exact ⟨es, he, ⟨Nat.zero_add es.length ▸ hlen, hp⟩, htoks⟩

theorem of_expressionUnless (stop : Symbol) : (Grammar.expressionUnless n stop ts).Yields all
    (Wrote all ts core.optionalExpr Printed.optionalExpr Proper.optionalExpr) := by
  have he : ((Grammar.expression n ts).map some).weaken.Yields all
      (Wrote all ts core.optionalExpr Printed.optionalExpr Proper.optionalExpr) := by
    refine yields_weaken (yields_map ((of_expression ih h).mono fun v r hv => ?_))
    obtain ⟨e, rfl, ⟨-, hp⟩, htoks⟩ := hv
    exact ⟨some e, rfl, hp, htoks⟩
  unfold Grammar.expressionUnless
  split
  · split
    · exact yields_done h ⟨none, rfl, trivial, rfl⟩
    · exact he
  · exact he

theorem of_expressionStatement : (expressionStatement n ts).Yields all
    (WroteStmt all ts fun s => ∃ e, s = .expression e) := by
  unfold expressionStatement
  refine yields_andThen (of_expression ih h) fun e r₁ s₁ h₁ e₁ => ?_
  refine yields_map ((yields_symbol _ _ _ h₁).mono fun _ r₂ e₂ => ?_)
  obtain ⟨e, rfl, ⟨-, hp⟩, htoks⟩ := e₁
  refine ⟨.expression e, rfl, ⟨⟨e, rfl⟩, hp⟩, ?_⟩
  rw [Printed.stmt, e₂.2, htoks]

theorem of_varDeclaration : (Grammar.varDeclaration n ts).Yields all
    (WroteStmt all ((Layout.of all).keyword .var_ ts) fun s => s.isInitial = true) := by
  unfold Grammar.varDeclaration
  refine yields_andThen (yields_name _ _ h) fun x r₁ s₁ h₁ e₁ => ?_
  split
  · rename_i line rest s₁
    have he := (ih rest (s₁.trans (.tail _ _)) (suffix_tail h₁)).expression
    refine yields_behind (yields_andThen he fun value r₂ s₂ h₂ e₂ => ?_)
    refine yields_map ((yields_symbol _ _ _ h₂).mono fun _ r₃ e₃ => ?_)
    obtain ⟨e, rfl, ⟨-, hp⟩, htoks⟩ := e₂
    refine ⟨.var x (some e), rfl, ⟨rfl, hp⟩, ?_⟩
    rw [Printed.stmt, Printed.initial, e₃.2, htoks, Layout.symbol_of h₁, e₁]
  · refine yields_map ((yields_symbol _ _ _ h₁).mono fun _ r₂ e₂ => ?_)
    refine ⟨.var x none, rfl, ⟨rfl, trivial⟩, ?_⟩
    rw [Printed.stmt, Printed.initial, e₂.2, e₁]

theorem of_initializer : (Grammar.initializer n ts).Yields all
    (Wrote all ts core.optionalStmt Printed.initializer Proper.initializer) := by
  unfold Grammar.initializer
  split
  · exact yields_behind (yields_done (suffix_tail h) ⟨none, rfl, trivial, Layout.symbol_of h⟩)
  · have hv := (ih _ (.tail _ _) (suffix_tail h)).varDeclaration
    refine yields_behind (yields_map (hv.mono fun v r hv => ?_))
    obtain ⟨s, rfl, hp, htoks⟩ := hv
    exact ⟨some s, rfl, hp, htoks.trans (Layout.keyword_of h)⟩
  · refine yields_map ((of_expressionStatement ih h).mono fun v r hv => ?_)
    obtain ⟨s, rfl, ⟨⟨e, rfl⟩, hp⟩, htoks⟩ := hv
    exact ⟨some (.expression e), rfl, ⟨rfl, hp⟩, htoks⟩

theorem of_methods : (Grammar.methods n ts).Yields all (Wrote all ts core.methods
    (fun L ms rest => Printed.methods L ms (L.symbol .rightBrace rest)) Proper.methods) := by
  unfold Grammar.methods
  split
  · exact yields_behind (yields_done (suffix_tail h) ⟨[], rfl, trivial, Layout.symbol_of h⟩)
  · exact yields_fail _ _
  · refine yields_andThen (yields_name _ _ h) fun x r₁ s₁ h₁ e₁ => ?_
    refine yields_andThen ((ih r₁ s₁ h₁).code .method) fun body r₂ s₂ h₂ e₂ => ?_
    refine yields_map ((ih r₂ (s₁.trans s₂) h₂).methods.mono fun vs r hv => ?_)
    obtain ⟨c, rfl, hc, rfl⟩ := e₂
    obtain ⟨ms, rfl, hms, rfl⟩ := hv
    exact ⟨.mk x c :: ms, rfl, ⟨hc, hms⟩, e₁⟩

theorem of_classDeclaration : (Grammar.classDeclaration n ts).Yields all
    (WroteStmt all ((Layout.of all).keyword .class_ ts) fun _ => True) := by
  unfold Grammar.classDeclaration
  refine yields_andThen (yields_name _ _ h) fun x r₁ s₁ h₁ e₁ => ?_
  refine yields_andThen (yields_superclass _ h₁) fun parent r₂ s₂ h₂ e₂ => ?_
  refine yields_andThen (yields_symbol _ _ _ h₂) fun _ r₃ s₃ h₃ e₃ => ?_
  have hs : Shrinks true r₃ ts := (s₁.trans s₂).trans s₃
  refine yields_map ((ih r₃ hs h₃).methods.mono fun vs r hv => ?_)
  obtain ⟨ms, rfl, hms, rfl⟩ := hv
  refine ⟨.classDef x parent ms, rfl, ⟨trivial, hms⟩, ?_⟩
  rw [Printed.stmt, e₃.2, e₂, e₁]

theorem of_statement : (Grammar.statement n ts).Yields all (WroteBody all ts) := by
  unfold Grammar.statement
  split
  · refine yields_behind (yields_andThen (yields_symbol _ _ _ (suffix_tail h)) ?_)
    intro _ r₁ s₁ h₁ e₁
    refine yields_andThen (ih r₁ (.cons _ s₁) h₁).initializer fun start r₂ s₂ h₂ e₂ => ?_
    have s₂ := s₁.trans s₂
    have hc := (ih r₂ (.cons _ s₂) h₂).expressionUnless .semicolon
    refine yields_andThen hc fun condition r₃ s₃ h₃ e₃ => ?_
    refine yields_andThen (yields_symbol _ _ _ h₃) fun _ r₄ s₄ h₄ e₄ => ?_
    have s₄ := (s₂.trans s₃).trans s₄
    have hs := (ih r₄ (.cons _ s₄) h₄).expressionUnless .rightParen
    refine yields_andThen hs fun step r₅ s₅ h₅ e₅ => ?_
    refine yields_andThen (yields_symbol _ _ _ h₅) fun _ r₆ s₆ h₆ e₆ => ?_
    have s₆ := (s₄.trans s₅).trans s₆
    refine yields_map ((ih r₆ (.cons _ s₆) h₆).statement.mono fun body r hb => ?_)
    obtain ⟨i, rfl, hi, htoks₂⟩ := e₂
    obtain ⟨c, rfl, hc, htoks₃⟩ := e₃
    obtain ⟨st, rfl, hst, htoks₅⟩ := e₅
    obtain ⟨s, rfl, ⟨⟨hd, ho⟩, hp⟩, htoks⟩ := hb
    refine ⟨.forLoop i c st s, rfl, ⟨⟨rfl, ho⟩, hi, hc, hst, hd, hp⟩, ?_⟩
    rw [Printed.stmt, htoks, e₆.2, htoks₅, e₄.2, htoks₃, htoks₂, e₁.2, Layout.keyword_of h]
  · refine yields_behind (yields_andThen (yields_symbol _ _ _ (suffix_tail h)) ?_)
    intro _ r₁ s₁ h₁ e₁
    refine yields_andThen (ih r₁ (.cons _ s₁) h₁).expression fun condition r₂ s₂ h₂ e₂ => ?_
    refine yields_andThen (yields_symbol _ _ _ h₂) fun _ r₃ s₃ h₃ e₃ => ?_
    have s₃ := (s₁.trans s₂).trans s₃
    refine yields_andThen (ih r₃ (.cons _ s₃) h₃).statement fun yes r₄ s₄ h₄ e₄ => ?_
    obtain ⟨c, rfl, ⟨-, hc⟩, htoks₂⟩ := e₂
    split
    · rename_i line rest s₄
      obtain ⟨y, rfl, ⟨⟨hy, hopen⟩, hyp⟩, htoks₄⟩ := e₄
      have s₅ := s₃.trans (s₄.trans (.tail _ _))
      have hn := (ih rest (.cons _ s₅) (suffix_tail h₄)).statement
      refine yields_weaken (yields_behind (yields_map (hn.mono fun no r hno => ?_)))
      obtain ⟨s, rfl, ⟨⟨hs, ho⟩, hp⟩, htoks⟩ := hno
      -- The first branch is followed by an `else`, so it cannot be open.
      have hclosed : y.endsOpen = false :=
        Bool.eq_false_iff.2 fun hyo => hopen hyo line rest rfl
      refine ⟨.branch c y (some s), rfl, ⟨⟨rfl, ho⟩, hc, hy, fun _ => hclosed, hyp, hs, hp⟩, ?_⟩
      rw [Printed.stmt, Printed.otherwise, htoks, Layout.keyword_of h₄, htoks₄, e₃.2, htoks₂, e₁.2,
        Layout.keyword_of h]
    · rename_i hne
      obtain ⟨y, rfl, ⟨⟨hy, hopen⟩, hyp⟩, htoks₄⟩ := e₄
      refine yields_done h₄
        ⟨.branch c y none, rfl, ⟨⟨rfl, fun _ => ?_⟩, hc, hy, ?_, hyp, trivial⟩, ?_⟩
      · rintro line rest rfl
        exact hne line rest s₄ rfl HEq.rfl
      · intro hsome
        cases hsome
      · rw [Printed.stmt, Printed.otherwise, htoks₄, e₃.2, htoks₂, e₁.2, Layout.keyword_of h]
  · have he := (ih _ (.tail _ _) (suffix_tail h)).expression
    refine yields_behind (yields_andThen he fun e r₁ s₁ h₁ e₁ => ?_)
    refine yields_map ((yields_symbol _ _ _ h₁).mono fun _ r₂ e₂ => ?_)
    obtain ⟨e, rfl, ⟨-, hp⟩, htoks⟩ := e₁
    refine ⟨.print e, rfl, ⟨⟨rfl, noElse_of_closed rfl⟩, hp⟩, ?_⟩
    rw [Printed.stmt, e₂.2, htoks, Layout.keyword_of h]
  · rename_i line rest
    have hv := (ih rest (.tail _ _) (suffix_tail h)).expressionUnless .semicolon
    refine yields_behind (yields_andThen hv fun value r₁ s₁ h₁ e₁ => ?_)
    refine yields_map ((yields_symbol _ _ _ h₁).mono fun _ r₂ e₂ => ?_)
    obtain ⟨v, rfl, hp, htoks⟩ := e₁
    refine ⟨.ret line v, rfl, ⟨⟨rfl, noElse_of_closed rfl⟩, hp⟩, ?_⟩
    rw [Printed.stmt, e₂.2, htoks]
  · refine yields_behind (yields_andThen (yields_symbol _ _ _ (suffix_tail h)) ?_)
    intro _ r₁ s₁ h₁ e₁
    refine yields_andThen (ih r₁ (.cons _ s₁) h₁).expression fun condition r₂ s₂ h₂ e₂ => ?_
    refine yields_andThen (yields_symbol _ _ _ h₂) fun _ r₃ s₃ h₃ e₃ => ?_
    have s₃ := (s₁.trans s₂).trans s₃
    refine yields_map ((ih r₃ (.cons _ s₃) h₃).statement.mono fun body r hb => ?_)
    obtain ⟨c, rfl, ⟨-, hc⟩, htoks₂⟩ := e₂
    obtain ⟨s, rfl, ⟨⟨hd, ho⟩, hp⟩, htoks⟩ := hb
    refine ⟨.loop c s, rfl, ⟨⟨rfl, ho⟩, hc, hd, hp⟩, ?_⟩
    rw [Printed.stmt, htoks, e₃.2, htoks₂, e₁.2, Layout.keyword_of h]
  · have hb := (ih _ (.tail _ _) (suffix_tail h)).block
    refine yields_behind (yields_map (hb.mono fun body r hb => ?_))
    obtain ⟨ss, rfl, hp, rfl⟩ := hb
    exact ⟨.block ss, rfl, ⟨⟨rfl, noElse_of_closed rfl⟩, hp⟩, Layout.symbol_of h⟩
  · refine (of_expressionStatement ih h).mono fun v r hv => ?_
    obtain ⟨s, rfl, ⟨⟨e, rfl⟩, hp⟩, htoks⟩ := hv
    exact ⟨.expression e, rfl, ⟨⟨rfl, noElse_of_closed rfl⟩, hp⟩, htoks⟩

end Accounts

/-- A declaration that no complaint was made about, and the tokens behind it. -/
theorem accounts_declaration {n : Nat} {all : List Token} {t : Token} {rest : List Token}
    (ih : ∀ us, Shrinks true us (t :: rest) → us <:+ all → Accounts n all us)
    (h : t :: rest <:+ all) (hn : (declaration n t rest).notes = []) :
    ∃ s, (declaration n t rest).statement = some (core.stmt s) ∧ Proper.stmt s ∧
      (declaration n t rest).rest <:+ all ∧
      Printed.stmt (.of all) s (declaration n t rest).rest = t :: rest := by
  have recovered {p : Parsed true (t :: rest) (LoxScript.Stmt Unit)}
      (hp : p.Yields all (WroteStmt all (t :: rest) fun _ => True)) (hn : p.recover.notes = []) :
      ∃ s, p.recover.statement = some (core.stmt s) ∧ Proper.stmt s ∧ p.recover.rest <:+ all ∧
        Printed.stmt (.of all) s p.recover.rest = t :: rest := by
    cases p with
    | failed _ _ _ complained => exact absurd hn complained
    | ok v r hs notes =>
      obtain rfl : notes = [] := hn
      obtain ⟨hr, s, rfl, ⟨-, hp⟩, htoks⟩ := hp _ _ _ rfl
      exact ⟨s, rfl, hp, hr, htoks⟩
  unfold declaration at hn ⊢
  refine recovered ?_ hn
  split
  · have hc := (ih _ (.tail _ _) (suffix_tail h)).classDeclaration
    rw [Layout.keyword_of h] at hc
    exact yields_behind hc
  · rename_i text line' rest
    have hr := suffix_tail (suffix_tail h)
    have hc := (ih rest (.cons _ (.of_le (Nat.le_succ _))) hr).code .function
    refine yields_behind (yields_behind (yields_map (hc.mono fun body r hb => ?_)))
    obtain ⟨c, rfl, hp, rfl⟩ := hb
    exact ⟨.function ⟨text, line'⟩ c, rfl, ⟨trivial, hp⟩, Layout.keyword_of h⟩
  · have hv := (ih _ (.tail _ _) (suffix_tail h)).varDeclaration
    rw [Layout.keyword_of h] at hv
    refine yields_behind (hv.mono fun v r hv => ?_)
    obtain ⟨s, hs, ⟨-, hp⟩, htoks⟩ := hv
    exact ⟨s, hs, ⟨trivial, hp⟩, htoks⟩
  · refine (Accounts.of_statement ih h).mono fun v r hv => ?_
    obtain ⟨s, hs, ⟨-, hp⟩, htoks⟩ := hv
    exact ⟨s, hs, ⟨trivial, hp⟩, htoks⟩

theorem Accounts.of_block {n : Nat} {all ts : List Token}
    (ih : ∀ rest, Shrinks true rest ts → rest <:+ all → Accounts n all rest) (h : ts <:+ all) :
    (Grammar.block n ts).Yields all (Wrote all ts core.stmts
      (fun L ss rest => Printed.stmts L ss (L.symbol .rightBrace rest)) Proper.stmts) := by
  unfold Grammar.block
  split
  · exact yields_behind (yields_done (suffix_tail h) ⟨[], rfl, trivial, Layout.symbol_of h⟩)
  · exact yields_fail _ _
  · rename_i t rest _
    have hd := accounts_declaration ih h
    generalize declaration n t rest = d at hd ⊢
    refine yields_after fun hnotes => ?_
    obtain ⟨s, hs, hp, hr, htoks⟩ := hd hnotes
    refine yields_within (yields_map ((ih d.rest d.shrinks hr).block.mono fun body r hb => ?_)) _
    obtain ⟨ss, rfl, hss, htoks'⟩ := hb
    refine ⟨s :: ss, ?_, ⟨hp, hss⟩, ?_⟩
    · rw [hs]
      rfl
    · simp only [Printed.stmts, htoks', htoks]

theorem accounts (n : Nat) (all ts : List Token) (h : ts <:+ all) : Accounts n all ts :=
  have ih : ∀ rest, Shrinks true rest ts → rest <:+ all → Accounts n all rest :=
    fun rest _ hr => accounts n all rest hr
  { expression := Accounts.of_expression ih h
    operand := Accounts.of_operand ih h
    infixTail := Accounts.of_infixTail ih h
    unary := Accounts.of_unary ih h
    callTail := Accounts.of_callTail ih h
    arguments := Accounts.of_arguments ih h
    argumentList := Accounts.of_argumentList ih h
    code := Accounts.of_code ih h
    block := Accounts.of_block ih h
    methods := Accounts.of_methods ih h
    classDeclaration := Accounts.of_classDeclaration ih h
    varDeclaration := Accounts.of_varDeclaration ih h
    expressionUnless := Accounts.of_expressionUnless ih h
    initializer := Accounts.of_initializer ih h
    statement := Accounts.of_statement ih h }
termination_by ts.length
decreasing_by exact ‹Shrinks true rest ts›.lt

/-- By induction on the tokens that are left to read. -/
theorem accounts_program {n : Nat} {all ts : List Token} (h : ts <:+ all)
    (hn : (program n ts).2 = []) :
    ∃ ss, (program n ts).1 = core.stmts ss ∧ Proper.stmts ss ∧
      Printed.stmts (.of all) ss [] = ts := by
  cases ts with
  | nil => exact ⟨[], by rw [program, stmts], trivial, rfl⟩
  | cons t rest =>
    rw [program] at hn ⊢
    obtain ⟨hnotes, hmore⟩ := List.append_eq_nil_iff.1 hn
    obtain ⟨s, hs, hp, hr, htoks⟩ := accounts_declaration (fun us _ => accounts n all us) h hnotes
    have hlt := (declaration n t rest).shrinks.lt
    obtain ⟨ss, hss, hps, htoks'⟩ := accounts_program hr hmore
    refine ⟨s :: ss, ?_, ⟨hp, hps⟩, ?_⟩
    · simp only [hs, hss, stmts, Option.toList_some, List.singleton_append]
    · rw [Printed.stmts, htoks', htoks]
termination_by ts.length

/-- What is read without complaints has been written, by a tree that the grammar allows. -/
theorem program_written {n : Nat} {ts : List Token} {P : List (LoxScript.Stmt Unit)}
    (h : program n ts = (P, [])) :
    ∃ ss, core.stmts ss = P ∧ Proper.stmts ss ∧ Printed.stmts (.of ts) ss [] = ts := by
  obtain ⟨ss, hss, hp, htoks⟩ := accounts_program (List.suffix_refl ts) (congrArg Prod.snd h)
  exact ⟨ss, hss.symm.trans (congrArg Prod.fst h), hp, htoks⟩

end Grammar
end LoxScript
