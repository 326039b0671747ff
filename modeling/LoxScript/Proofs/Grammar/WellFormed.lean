import LoxScript.Binding.LocalScope
import LoxScript.Program

/-!
What every program that has been read is like, whether or not something was wrong with its text.

A name in it is not spelled like a reserved word, so that no declaration takes the place of `this`
or `super`.  A branch of a conditional and the body of a loop declare nothing, so that the scope
around them holds the names that its own statements declare and no others.
-/

namespace LoxScript

/-- A name that no reserved word spells. -/
def Name.IsFree (x : Name) : Prop := Keyword.ofText? x.text = none

theorem Name.IsFree.ne {x : Name} (h : x.IsFree) (k : Keyword) : x.text ≠ k.text := by
  intro he
  have hk : Keyword.ofText? k.text = some k := by cases k <;> decide
  rw [Name.IsFree, he, hk] at h
  cases h

namespace WellFormed
variable {ρ : Type}

mutual

def expr : Expr ρ → Prop
  | .literal _ => True
  | .grouping inner => expr inner
  | .unary _ _ operand => expr operand
  | .binary left _ _ right => expr left ∧ expr right
  | .logical left _ _ right => expr left ∧ expr right
  | .var x _ => x.IsFree
  | .assign x _ value => x.IsFree ∧ expr value
  | .call callee _ arguments => expr callee ∧ exprs arguments
  | .get object property => expr object ∧ property.IsFree
  | .set object property value => expr object ∧ property.IsFree ∧ expr value
  | .update object property _ _ value => expr object ∧ property.IsFree ∧ expr value
  | .this _ _ => True
  | .super _ _ method => method.IsFree
  | .function _ body => code body

def exprs : List (Expr ρ) → Prop
  | [] => True
  | e :: rest => expr e ∧ exprs rest

def optionalExpr : Option (Expr ρ) → Prop
  | none => True
  | some e => expr e

def code : Code ρ → Prop
  | .mk params body => (∀ p ∈ params, p.IsFree) ∧ stmts body

def methods : List (Method ρ) → Prop
  | [] => True
  | .mk x body :: rest => x.IsFree ∧ code body ∧ methods rest

def stmt : Stmt ρ → Prop
  | .expression e => expr e
  | .print e => expr e
  | .var x initial => x.IsFree ∧ optionalExpr initial
  | .block body => stmts body
  | .branch condition yes no =>
    expr condition ∧ (yes.declares? = none ∧ stmt yes) ∧ optionalStmt no
  | .loop condition body => expr condition ∧ body.declares? = none ∧ stmt body
  | .function x body => x.IsFree ∧ code body
  | .ret _ value => optionalExpr value
  | .classDef x parent declared =>
    x.IsFree ∧ (∀ p ∈ parent, p.1.IsFree) ∧ methods declared

/-- The second branch of a conditional. -/
def optionalStmt : Option (Stmt ρ) → Prop
  | none => True
  | some s => s.declares? = none ∧ stmt s

def stmts : List (Stmt ρ) → Prop
  | [] => True
  | s :: rest => stmt s ∧ stmts rest

end

/-- A statement that may stand where declarations may not. -/
def body (s : Stmt ρ) : Prop := s.declares? = none ∧ stmt s

theorem stmts_append {a b : List (Stmt ρ)} (ha : stmts a) (hb : stmts b) : stmts (a ++ b) := by
  induction a with
  | nil => exact hb
  | cons s rest ih => exact ⟨ha.1, ih ha.2⟩

end WellFormed

/-- A token whose text, if it is a name, is no reserved word. -/
def Token.IsPlain (t : Token) : Prop := ∀ x, t.kind = .identifier x → Keyword.ofText? x = none

namespace Parsed
variable {a b : Bool} {ts : List Token} {α β : Type}

/-- The value, if there is one, satisfies a property, and the tokens left are plain. -/
def Meets (P : α → Prop) : Parsed a ts α → Prop
  | ok value rest _ _ => P value ∧ ∀ t ∈ rest, t.IsPlain
  | failed rest _ _ _ => ∀ t ∈ rest, t.IsPlain

theorem meets_done {P : α → Prop} {v : α} (hv : P v) (h : ∀ t ∈ ts, t.IsPlain) :
    (done v ts).Meets P := ⟨hv, h⟩

theorem meets_fail {P : α → Prop} (m : Mistake) (n : Nat) (h : ∀ t ∈ ts, t.IsPlain) :
    (fail m n ts : Parsed a ts α).Meets P := h

theorem meets_after {P : α → Prop} {p : Parsed a ts α} (h : p.Meets P) (ds : List Diagnostic) :
    (p.after ds).Meets P := by
  cases p <;> exact h

theorem meets_behind {P : α → Prop} {p : Parsed a ts α} (h : p.Meets P) {t : Token} :
    (p.behind (t := t)).Meets P := by
  cases p <;> exact h

theorem meets_weaken {P : α → Prop} {p : Parsed a ts α} (h : p.Meets P) : p.weaken.Meets P := by
  cases p <;> exact h

theorem meets_within {P : α → Prop} {p : Parsed a ts α} (h : p.Meets P) {all : List Token}
    (hs : Shrinks b ts all) : (p.within hs).Meets P := by
  cases p <;> exact h

theorem meets_map {P : β → Prop} {f : α → β} {p : Parsed a ts α} (h : p.Meets fun v => P (f v)) :
    (p.map f).Meets P := by
  cases p <;> exact h

theorem meets_andThen {P : α → Prop} {Q : β → Prop} {p : Parsed a ts α}
    {next : α → (rest : List Token) → Shrinks a rest ts → Parsed b rest β} (h : p.Meets P)
    (hn : ∀ v rest hs, P v → (∀ t ∈ rest, t.IsPlain) → (next v rest hs).Meets Q) :
    (p.andThen next).Meets Q := by
  cases p with
  | failed rest hs notes _ => exact h
  | ok v rest hs notes =>
    have hv := hn v rest hs h.1 h.2
    simp only [andThen]
    cases hnext : next v rest hs with
    | ok w rest' hs' notes' => rw [hnext] at hv; exact hv
    | failed rest' hs' notes' _ => rw [hnext] at hv; exact hv

theorem Meets.mono {P Q : α → Prop} (hPQ : ∀ v, P v → Q v) {p : Parsed a ts α} (h : p.Meets P) :
    p.Meets Q := by
  cases p with
  | ok v rest hs notes => exact ⟨hPQ v h.1, h.2⟩
  | failed rest hs notes _ => exact h

theorem meets_symbol (s : Symbol) (m : Mistake) (n : Nat) (h : ∀ t ∈ ts, t.IsPlain) :
    (symbol s m n ts).Meets fun _ => True := by
  cases ts with
  | nil => exact meets_fail m n h
  | cons t rest =>
    simp only [symbol]
    split
    · exact meets_behind (meets_done trivial fun t ht => h t (List.mem_cons_of_mem _ ht))
    · exact meets_fail m n h

theorem meets_name (m : Mistake) (n : Nat) (h : ∀ t ∈ ts, t.IsPlain) :
    (name m n ts).Meets Name.IsFree := by
  unfold name
  split
  · rename_i text line rest
    refine meets_behind (meets_done ?_ fun t ht => h t (List.mem_cons_of_mem _ ht))
    exact h _ List.mem_cons_self text rfl
  · exact meets_fail m n h

end Parsed

theorem mem_skipStatement {last t : Token} {ts : List Token} (h : t ∈ skipStatement last ts) :
    t ∈ ts := by
  fun_induction skipStatement last ts with
  | case1 => exact h
  | case2 => exact h
  | case3 last u rest _ ih => exact List.mem_cons_of_mem u (ih h)

theorem mem_synchronize {t : Token} {ts : List Token} (h : t ∈ synchronize ts) : t ∈ ts := by
  cases ts with
  | nil => exact h
  | cons u rest => exact List.mem_cons_of_mem u (mem_skipStatement h)

namespace Grammar
open Parsed

theorem plain_tail {t : Token} {ts : List Token} (h : ∀ u ∈ t :: ts, u.IsPlain) :
    ∀ u ∈ ts, u.IsPlain := fun u hu => h u (List.mem_cons_of_mem t hu)

theorem wellFormed_assignment {target value e : Expr Unit} {op : Option ArithOp} {line : Nat}
    (ht : WellFormed.expr target) (hv : WellFormed.expr value)
    (he : target.assignment? op line value = some e) : WellFormed.expr e := by
  unfold Expr.assignment? at he
  split at he
  all_goals
    simp only [Option.some.injEq, reduceCtorEq] at he
  · subst he; exact ⟨ht, hv⟩
  · subst he; exact ⟨ht, ht, hv⟩
  · subst he; exact ⟨ht.1, ht.2, hv⟩
  · subst he; exact ⟨ht.1, ht.2, hv⟩

theorem wellFormed_node (op : Infix) {left right : Expr Unit} (line : Nat)
    (hl : WellFormed.expr left) (hr : WellFormed.expr right) :
    WellFormed.expr (op.node left line right) := by
  cases op <;> exact ⟨hl, hr⟩

theorem wellFormed_forLoop_none {initial : Option (Stmt Unit)} {condition : Option (Expr Unit)}
    {body : Stmt Unit} (hi : ∀ s ∈ initial, WellFormed.stmt s)
    (hc : WellFormed.optionalExpr condition) (hb : WellFormed.body body) :
    WellFormed.body (.forLoop initial condition none body) := by
  have hcond : WellFormed.expr (condition.getD (.literal (.bool true))) := by
    cases condition with
    | none => trivial
    | some e => exact hc
  cases initial with
  | none => exact ⟨rfl, hcond, hb⟩
  | some s => exact ⟨rfl, hi s rfl, ⟨hcond, hb⟩, trivial⟩

theorem wellFormed_forLoop {initial : Option (Stmt Unit)} {condition step : Option (Expr Unit)}
    {body : Stmt Unit} (hi : ∀ s ∈ initial, WellFormed.stmt s)
    (hc : WellFormed.optionalExpr condition) (hs : WellFormed.optionalExpr step)
    (hb : WellFormed.body body) : WellFormed.body (.forLoop initial condition step body) := by
  cases step with
  | none => exact wellFormed_forLoop_none hi hc hb
  | some e =>
    have hbody : WellFormed.body (.block [body, .expression e]) := ⟨rfl, hb.2, hs, trivial⟩
    exact wellFormed_forLoop_none hi hc hbody

theorem meets_parameterList (endLine count : Nat) (ts : List Token) (h : ∀ t ∈ ts, t.IsPlain) :
    (parameterList endLine count ts).Meets fun ps => ∀ p ∈ ps, p.IsFree := by
  fun_induction parameterList endLine count ts with
  | case1 count text line line' rest excess ih =>
    have hx : Name.IsFree ⟨text, line⟩ := h _ List.mem_cons_self text rfl
    refine meets_after (meets_behind (meets_behind (meets_map ?_))) _
    refine (ih (plain_tail (plain_tail h))).mono fun ps hps p hp => ?_
    rcases List.mem_cons.1 hp with rfl | hp
    · exact hx
    · exact hps p hp
  | case2 count text line rest excess hrest =>
    have hx : Name.IsFree ⟨text, line⟩ := h _ List.mem_cons_self text rfl
    refine meets_after (meets_behind (meets_done ?_ (plain_tail h))) _
    intro p hp
    rw [List.mem_singleton.1 hp]
    exact hx
  | case3 count ts _ excess => exact meets_after (meets_fail _ _ h) _

theorem meets_parameters (endLine : Nat) (ts : List Token) (h : ∀ t ∈ ts, t.IsPlain) :
    (parameters endLine ts).Meets fun ps => ∀ p ∈ ps, p.IsFree := by
  unfold parameters
  split
  · exact meets_done (fun p hp => absurd hp List.not_mem_nil) h
  · exact meets_weaken (meets_parameterList endLine 0 ts h)

theorem meets_superclass (endLine : Nat) (ts : List Token) (h : ∀ t ∈ ts, t.IsPlain) :
    (superclass endLine ts).Meets fun parent => ∀ p ∈ parent, p.1.IsFree := by
  unfold superclass
  split
  · refine meets_weaken (meets_behind (meets_map ((meets_name _ _ (plain_tail h)).mono ?_)))
    intro x hx p hp
    rw [Option.mem_some_iff.1 hp |>.symm]
    exact hx
  · exact meets_done (fun p hp => absurd hp (Option.not_mem_none p)) h

theorem meets_recover {t : Token} {ts : List Token} {p : Parsed true (t :: ts) (Stmt Unit)}
    (h : p.Meets WellFormed.stmt) :
    (∀ s ∈ p.recover.statement, WellFormed.stmt s) ∧ ∀ u ∈ p.recover.rest, u.IsPlain := by
  cases p with
  | ok s rest hs notes =>
    refine ⟨fun s' hs' => ?_, h.2⟩
    rw [← Option.mem_some_iff.1 hs']
    exact h.1
  | failed rest hs notes _ =>
    exact ⟨fun s' hs' => absurd hs' (Option.not_mem_none s'), fun u hu => h u (mem_synchronize hu)⟩

/-- Every reader's value is well formed, if the reader is given these tokens. -/
structure ReadsWellFormed (endLine : Nat) (ts : List Token) : Prop where
  expression : (expression endLine ts).Meets WellFormed.expr
  operand (level : Level) : (operand endLine level ts).Meets WellFormed.expr
  infixTail (level : Level) (left : Expr Unit) :
    WellFormed.expr left → (infixTail endLine level left ts).Meets WellFormed.expr
  unary : (unary endLine ts).Meets WellFormed.expr
  callTail (callee : Expr Unit) :
    WellFormed.expr callee → (callTail endLine callee ts).Meets WellFormed.expr
  arguments : (arguments endLine ts).Meets WellFormed.exprs
  argumentList (count : Nat) : (argumentList endLine count ts).Meets WellFormed.exprs
  code (kind : CodeKind) : (code endLine kind ts).Meets WellFormed.code
  block : (block endLine ts).Meets WellFormed.stmts
  methods : (methods endLine ts).Meets WellFormed.methods
  classDeclaration : (classDeclaration endLine ts).Meets WellFormed.stmt
  varDeclaration : (varDeclaration endLine ts).Meets WellFormed.stmt
  expressionUnless (stop : Symbol) :
    (expressionUnless endLine stop ts).Meets WellFormed.optionalExpr
  initializer : (initializer endLine ts).Meets fun s => ∀ s' ∈ s, WellFormed.stmt s'
  statement : (statement endLine ts).Meets WellFormed.body

namespace ReadsWellFormed
variable {endLine : Nat} {ts : List Token}
  (ih : ∀ rest, Shrinks true rest ts → (∀ t ∈ rest, t.IsPlain) → ReadsWellFormed endLine rest)
  (h : ∀ t ∈ ts, t.IsPlain)
include ih h

theorem of_code (kind : CodeKind) : (Grammar.code endLine kind ts).Meets WellFormed.code := by
  unfold Grammar.code
  refine meets_andThen (meets_symbol _ _ _ h) fun _ rest₁ h₁ _ hr₁ => ?_
  refine meets_andThen (meets_parameters _ _ hr₁) fun params rest₂ h₂ hp hr₂ => ?_
  refine meets_andThen (meets_symbol _ _ _ hr₂) fun _ rest₃ h₃ _ hr₃ => ?_
  refine meets_andThen (meets_symbol _ _ _ hr₃) fun _ rest₄ h₄ _ hr₄ => ?_
  have hs : Shrinks true rest₄ ts := ((h₁.trans h₂).trans h₃).trans h₄
  exact meets_map ((ih rest₄ hs hr₄).block.mono fun body hb => ⟨hp, hb⟩)

theorem of_primary : (primary endLine ts).Meets WellFormed.expr := by
  unfold primary
  split
  · exact meets_behind (meets_done trivial (plain_tail h))
  · exact meets_behind (meets_done trivial (plain_tail h))
  · exact meets_behind (meets_done trivial (plain_tail h))
  · exact meets_behind (meets_done trivial (plain_tail h))
  · exact meets_behind (meets_done trivial (plain_tail h))
  · refine meets_behind (meets_andThen (meets_symbol _ _ _ (plain_tail h)) ?_)
    intro _ rest hs _ hr
    exact meets_map (meets_name _ _ hr)
  · exact meets_behind (meets_done trivial (plain_tail h))
  · refine meets_behind (meets_done ?_ (plain_tail h))
    exact h _ List.mem_cons_self _ rfl
  · refine meets_behind (meets_map ?_)
    exact ((ih _ (.tail _ _) (plain_tail h)).code .function).mono fun _ hc => hc
  · have he := (ih _ (.tail _ _) (plain_tail h)).expression
    refine meets_behind (meets_andThen he fun inner rest hs hi hr => ?_)
    exact meets_map ((meets_symbol _ _ _ hr).mono fun _ _ => hi)
  · exact meets_fail _ _ h

theorem of_callTail (callee : Expr Unit) (hc : WellFormed.expr callee) :
    (Grammar.callTail endLine callee ts).Meets WellFormed.expr := by
  unfold Grammar.callTail
  split
  · have ha := (ih _ (.tail _ _) (plain_tail h)).arguments
    refine meets_weaken (meets_behind (meets_andThen ha fun args rest hs hargs hr => ?_))
    refine meets_andThen (meets_symbol _ _ _ hr) fun line rest' hs' _ hr' => ?_
    exact (ih rest' (.cons _ (hs.trans hs')) hr').callTail _ ⟨hc, hargs⟩
  · refine meets_weaken (meets_behind (meets_andThen (meets_name _ _ (plain_tail h)) ?_))
    intro property rest hs hp hr
    exact (ih rest (.cons _ hs) hr).callTail _ ⟨hc, hp⟩
  · exact meets_done hc h

theorem of_unary : (Grammar.unary endLine ts).Meets WellFormed.expr := by
  unfold Grammar.unary
  split
  · refine meets_behind (meets_map ?_)
    exact (ih _ (.tail _ _) (plain_tail h)).unary.mono fun _ he => he
  · refine meets_behind (meets_map ?_)
    exact (ih _ (.tail _ _) (plain_tail h)).unary.mono fun _ he => he
  · unfold call
    refine meets_andThen (of_primary ih h) fun callee rest hs hc hr => ?_
    exact (ih rest hs hr).callTail callee hc

theorem of_infixTail (level : Level) (left : Expr Unit) (hl : WellFormed.expr left) :
    (Grammar.infixTail endLine level left ts).Meets WellFormed.expr := by
  cases ts with
  | nil =>
    unfold Grammar.infixTail
    exact meets_done hl h
  | cons t rest =>
    unfold Grammar.infixTail
    split
    · exact meets_done hl h
    · rename_i op hop
      have ho := (ih rest (.tail t rest) (plain_tail h)).operand level
      refine meets_weaken (meets_behind (meets_andThen ho fun right rest' hs hr hrest => ?_))
      exact (ih rest' (.cons t hs) hrest).infixTail level _ (wellFormed_node op t.line hl hr)

/-- By induction on the number of levels between this one and the unary operators. -/
theorem of_operand (level : Level) : (Grammar.operand endLine level ts).Meets WellFormed.expr := by
  unfold Grammar.operand
  split
  · rename_i tighter ht
    unfold infixed
    refine meets_andThen (of_operand tighter) fun left rest hs hl hr => ?_
    exact (ih rest hs hr).infixTail tighter left hl
  · exact of_unary ih h
termination_by level.height
decreasing_by exact Level.height_tighter ‹_›

theorem of_expression : (Grammar.expression endLine ts).Meets WellFormed.expr := by
  have hi : (infixed endLine .or ts).Meets WellFormed.expr := by
    unfold infixed
    refine meets_andThen (of_operand ih h .or) fun left rest hs hl hr => ?_
    exact (ih rest hs hr).infixTail .or left hl
  unfold Grammar.expression
  refine meets_andThen hi fun target rest hs ht hr => ?_
  split
  · rename_i hs
    split
    · exact meets_done ht hr
    · have he := (ih _ (hs.trans (.tail _ _)) (plain_tail hr)).expression
      refine meets_weaken (meets_behind (meets_andThen he fun value rest' _ hv hr' => ?_))
      split
      · exact meets_done (wellFormed_assignment ht hv ‹_›) hr'
      · exact meets_after (meets_done ht hr') _
  · exact meets_done ht hr

theorem of_argumentList (count : Nat) :
    (Grammar.argumentList endLine count ts).Meets WellFormed.exprs := by
  unfold Grammar.argumentList
  refine meets_after (meets_andThen (of_expression ih h) fun arg rest hs ha hr => ?_) _
  split
  · rename_i hs
    refine meets_weaken (meets_behind (meets_map ?_))
    have hl := (ih _ (hs.trans (.tail _ _)) (plain_tail hr)).argumentList (count + 1)
    exact hl.mono fun es hes => ⟨ha, hes⟩
  · exact meets_done ⟨ha, trivial⟩ hr

theorem of_arguments : (Grammar.arguments endLine ts).Meets WellFormed.exprs := by
  unfold Grammar.arguments
  split
  · exact meets_done trivial h
  · exact meets_weaken (of_argumentList ih h 0)

theorem of_expressionUnless (stop : Symbol) :
    (Grammar.expressionUnless endLine stop ts).Meets WellFormed.optionalExpr := by
  have he : ((Grammar.expression endLine ts).map some).weaken.Meets WellFormed.optionalExpr :=
    meets_weaken (meets_map ((of_expression ih h).mono fun _ hv => hv))
  unfold Grammar.expressionUnless
  split
  · split
    · exact meets_done trivial h
    · exact he
  · exact he

theorem of_expressionStatement :
    (expressionStatement endLine ts).Meets WellFormed.body := by
  unfold expressionStatement
  refine meets_andThen (of_expression ih h) fun e rest hs he hr => ?_
  exact meets_map ((meets_symbol _ _ _ hr).mono fun _ _ => ⟨rfl, he⟩)

theorem of_varDeclaration : (Grammar.varDeclaration endLine ts).Meets WellFormed.stmt := by
  unfold Grammar.varDeclaration
  refine meets_andThen (meets_name _ _ h) fun x rest hs hx hr => ?_
  split
  · rename_i hs
    have he := (ih _ (hs.trans (.tail _ _)) (plain_tail hr)).expression
    refine meets_behind (meets_andThen he fun value rest' hs' hv hr' => ?_)
    exact meets_map ((meets_symbol _ _ _ hr').mono fun _ _ => ⟨hx, hv⟩)
  · exact meets_map ((meets_symbol _ _ _ hr).mono fun _ _ => ⟨hx, trivial⟩)

theorem of_initializer :
    (Grammar.initializer endLine ts).Meets fun s => ∀ s' ∈ s, WellFormed.stmt s' := by
  unfold Grammar.initializer
  split
  · exact meets_behind (meets_done (fun s hs => absurd hs (Option.not_mem_none s)) (plain_tail h))
  · have hv := (ih _ (.tail _ _) (plain_tail h)).varDeclaration
    refine meets_behind (meets_map (hv.mono fun s hs s' hs' => ?_))
    rwa [← Option.mem_some_iff.1 hs']
  · refine meets_map ((of_expressionStatement ih h).mono fun s hs s' hs' => ?_)
    rw [← Option.mem_some_iff.1 hs']
    exact hs.2

theorem of_methods : (Grammar.methods endLine ts).Meets WellFormed.methods := by
  unfold Grammar.methods
  split
  · exact meets_behind (meets_done trivial (plain_tail h))
  · exact meets_fail _ _ h
  · refine meets_andThen (meets_name _ _ h) fun methodName rest₁ h₁ hx hr₁ => ?_
    refine meets_andThen ((ih rest₁ h₁ hr₁).code .method) fun body rest₂ h₂ hb hr₂ => ?_
    exact meets_map ((ih rest₂ (h₁.trans h₂) hr₂).methods.mono fun ms hms => ⟨hx, hb, hms⟩)

theorem of_classDeclaration : (Grammar.classDeclaration endLine ts).Meets WellFormed.stmt := by
  unfold Grammar.classDeclaration
  refine meets_andThen (meets_name _ _ h) fun className rest₁ h₁ hx hr₁ => ?_
  refine meets_andThen (meets_superclass _ _ hr₁) fun parent rest₂ h₂ hp hr₂ => ?_
  refine meets_andThen (meets_symbol _ _ _ hr₂) fun _ rest₃ h₃ _ hr₃ => ?_
  have hs : Shrinks true rest₃ ts := (h₁.trans h₂).trans h₃
  exact meets_map ((ih rest₃ hs hr₃).methods.mono fun ms hms => ⟨hx, hp, hms⟩)

theorem of_statement : (Grammar.statement endLine ts).Meets WellFormed.body := by
  unfold Grammar.statement
  split
  · refine meets_behind (meets_andThen (meets_symbol _ _ _ (plain_tail h)) ?_)
    intro _ rest₁ h₁ _ hr₁
    have ih₁ := ih rest₁ (.cons _ h₁) hr₁
    refine meets_andThen ih₁.initializer fun initial rest₂ h₂ hi hr₂ => ?_
    have ih₂ := ih rest₂ (.cons _ (h₁.trans h₂)) hr₂
    refine meets_andThen (ih₂.expressionUnless _) fun condition rest₃ h₃ hc hr₃ => ?_
    refine meets_andThen (meets_symbol _ _ _ hr₃) fun _ rest₄ h₄ _ hr₄ => ?_
    have hs₄ := ((h₁.trans h₂).trans h₃).trans h₄
    have ih₄ := ih rest₄ (.cons _ hs₄) hr₄
    refine meets_andThen (ih₄.expressionUnless _) fun step rest₅ h₅ hst hr₅ => ?_
    refine meets_andThen (meets_symbol _ _ _ hr₅) fun _ rest₆ h₆ _ hr₆ => ?_
    have ih₆ := ih rest₆ (.cons _ ((hs₄.trans h₅).trans h₆)) hr₆
    exact meets_map (ih₆.statement.mono fun s hs => wellFormed_forLoop hi hc hst hs)
  · refine meets_behind (meets_andThen (meets_symbol _ _ _ (plain_tail h)) ?_)
    intro _ rest₁ h₁ _ hr₁
    have ih₁ := ih rest₁ (.cons _ h₁) hr₁
    refine meets_andThen ih₁.expression fun condition rest₂ h₂ hc hr₂ => ?_
    refine meets_andThen (meets_symbol _ _ _ hr₂) fun _ rest₃ h₃ _ hr₃ => ?_
    have hs₃ := (h₁.trans h₂).trans h₃
    have ih₃ := ih rest₃ (.cons _ hs₃) hr₃
    refine meets_andThen ih₃.statement fun yes rest₄ h₄ hy hr₄ => ?_
    split
    · rename_i h₄
      have ih₅ := ih _ (.cons _ ((hs₃.trans h₄).trans (.tail _ _)))
        (plain_tail hr₄)
      refine meets_weaken (meets_behind (meets_map ?_))
      exact ih₅.statement.mono fun no hn => ⟨rfl, hc, hy, hn⟩
    · exact meets_done ⟨rfl, hc, hy, trivial⟩ hr₄
  · have ih₁ := ih _ (.tail _ _) (plain_tail h)
    refine meets_behind (meets_andThen ih₁.expression fun e rest hs he hr => ?_)
    exact meets_map ((meets_symbol _ _ _ hr).mono fun _ _ => ⟨rfl, he⟩)
  · have ih₁ := ih _ (.tail _ _) (plain_tail h)
    refine meets_behind (meets_andThen (ih₁.expressionUnless _) fun value rest hs hv hr => ?_)
    exact meets_map ((meets_symbol _ _ _ hr).mono fun _ _ => ⟨rfl, hv⟩)
  · refine meets_behind (meets_andThen (meets_symbol _ _ _ (plain_tail h)) ?_)
    intro _ rest₁ h₁ _ hr₁
    have ih₁ := ih rest₁ (.cons _ h₁) hr₁
    refine meets_andThen ih₁.expression fun condition rest₂ h₂ hc hr₂ => ?_
    refine meets_andThen (meets_symbol _ _ _ hr₂) fun _ rest₃ h₃ _ hr₃ => ?_
    have ih₃ := ih rest₃ (.cons _ ((h₁.trans h₂).trans h₃)) hr₃
    exact meets_map (ih₃.statement.mono fun s hs => ⟨rfl, hc, hs⟩)
  · have ih₁ := ih _ (.tail _ _) (plain_tail h)
    exact meets_behind (meets_map (ih₁.block.mono fun _ hb => ⟨rfl, hb⟩))
  · exact of_expressionStatement ih h

end ReadsWellFormed

/-- A declaration, and what recovery leaves if it fails. -/
theorem wellFormed_declaration {endLine : Nat} {t : Token} {rest : List Token}
    (ih : ∀ us, Shrinks true us (t :: rest) → (∀ u ∈ us, u.IsPlain) → ReadsWellFormed endLine us)
    (h : ∀ u ∈ t :: rest, u.IsPlain) :
    (∀ s ∈ (declaration endLine t rest).statement, WellFormed.stmt s) ∧
      ∀ u ∈ (declaration endLine t rest).rest, u.IsPlain := by
  unfold declaration
  apply meets_recover
  split
  · exact meets_behind (ih _ (.tail _ _) (plain_tail h)).classDeclaration
  · have hc := (ih _ (.cons _ (.of_le (Nat.le_succ _))) (plain_tail (plain_tail h))).code .function
    refine meets_behind (meets_behind (meets_map (hc.mono fun body hb => ⟨?_, hb⟩)))
    exact plain_tail h _ List.mem_cons_self _ rfl
  · exact meets_behind (ih _ (.tail _ _) (plain_tail h)).varDeclaration
  · exact (ReadsWellFormed.of_statement ih h).mono fun _ hs => hs.2

theorem ReadsWellFormed.of_block {endLine : Nat} {ts : List Token}
    (ih : ∀ rest, Shrinks true rest ts → (∀ t ∈ rest, t.IsPlain) → ReadsWellFormed endLine rest)
    (h : ∀ t ∈ ts, t.IsPlain) : (Grammar.block endLine ts).Meets WellFormed.stmts := by
  unfold Grammar.block
  split
  · exact meets_behind (meets_done trivial (plain_tail h))
  · exact meets_fail _ _ h
  · rename_i t rest _
    have hd := wellFormed_declaration ih h
    generalize declaration endLine t rest = d at hd ⊢
    refine meets_after (meets_within (meets_map ?_) d.shrinks) d.notes
    refine (ih d.rest d.shrinks hd.2).block.mono fun body hb => WellFormed.stmts_append ?_ hb
    cases hs : d.statement with
    | none => trivial
    | some s => exact ⟨hd.1 s hs, trivial⟩

theorem readsWellFormed (endLine : Nat) (ts : List Token) (h : ∀ t ∈ ts, t.IsPlain) :
    ReadsWellFormed endLine ts := by
  have ih : ∀ rest, Shrinks true rest ts → (∀ t ∈ rest, t.IsPlain) →
      ReadsWellFormed endLine rest :=
    fun rest hs hr => readsWellFormed endLine rest hr
  exact
    { expression := ReadsWellFormed.of_expression ih h
      operand := ReadsWellFormed.of_operand ih h
      infixTail := ReadsWellFormed.of_infixTail ih h
      unary := ReadsWellFormed.of_unary ih h
      callTail := ReadsWellFormed.of_callTail ih h
      arguments := ReadsWellFormed.of_arguments ih h
      argumentList := ReadsWellFormed.of_argumentList ih h
      code := ReadsWellFormed.of_code ih h
      block := ReadsWellFormed.of_block ih h
      methods := ReadsWellFormed.of_methods ih h
      classDeclaration := ReadsWellFormed.of_classDeclaration ih h
      varDeclaration := ReadsWellFormed.of_varDeclaration ih h
      expressionUnless := ReadsWellFormed.of_expressionUnless ih h
      initializer := ReadsWellFormed.of_initializer ih h
      statement := ReadsWellFormed.of_statement ih h }
termination_by ts.length
decreasing_by exact hs.lt

theorem wellFormed_program (endLine : Nat) (ts : List Token) (h : ∀ t ∈ ts, t.IsPlain) :
    WellFormed.stmts (program endLine ts).1 := by
  fun_induction program endLine ts with
  | case1 => trivial
  | case2 t rest stmt rest' shrinks notes hdecl more ih =>
    have hd := wellFormed_declaration (fun us _ => readsWellFormed endLine us) h
    rw [hdecl] at hd
    refine WellFormed.stmts_append ?_ (ih hd.2)
    cases stmt with
    | none => trivial
    | some s => exact ⟨hd.1 s rfl, trivial⟩

end Grammar

/-! ## The names that are read -/

namespace Segment

/-- A kind of token whose text, if it is a name, is no reserved word. -/
def IsPlain (s : Segment) : Prop := ∀ x, s.token? = some (.identifier x) → Keyword.ofText? x = none

theorem isPlain_word (text : String) : (token (word text)).IsPlain := by
  intro x hx
  simp only [token?, word, Option.some.injEq] at hx
  split at hx
  · cases hx
  · simp only [TokenKind.identifier.injEq] at hx
    rwa [← hx]

theorem isPlain_ofSlash (rest : List Char) : (ofSlash rest).1.IsPlain := by
  intro x hx
  unfold ofSlash at hx
  repeat' split at hx
  all_goals simp [token?] at hx

theorem isPlain_ofQuote (rest : List Char) : (ofQuote rest).1.IsPlain := by
  intro x hx
  unfold ofQuote at hx
  repeat' split at hx
  all_goals simp [token?] at hx

theorem isPlain_ofDigit (c : Char) (rest : List Char) : (ofDigit c rest).1.IsPlain := by
  intro x hx
  unfold ofDigit at hx
  repeat' split at hx
  all_goals simp [token?, numeral] at hx

theorem isPlain_first (c : Char) (rest : List Char) : (first c rest).1.IsPlain := by
  unfold first
  repeat' split
  all_goals first
    | exact isPlain_ofSlash rest
    | exact isPlain_ofQuote rest
    | exact isPlain_ofDigit c rest
    | exact isPlain_word _
    | exact fun x hx => by simp [token?] at hx

end Segment

theorem isPlain_segments (cs : List Char) : ∀ s ∈ segments cs, s.IsPlain := by
  fun_induction segments cs with
  | case1 => exact fun s hs => absurd hs List.not_mem_nil
  | case2 c rest ih =>
    intro s hs
    rcases List.mem_cons.1 hs with rfl | hs
    · exact Segment.isPlain_first c rest
    · exact ih s hs

theorem Scan.isPlain_place (line : Nat) (l : List Segment) (h : ∀ s ∈ l, s.IsPlain) :
    ∀ t ∈ (place line l).tokens, t.IsPlain := by
  induction l generalizing line with
  | nil => exact fun t ht => absurd ht List.not_mem_nil
  | cons s rest ih =>
    intro t ht
    simp only [place, List.mem_append, Option.mem_toList, Option.map_eq_some_iff] at ht
    rcases ht with ⟨kind, hk, rfl⟩ | ht
    · intro x hx
      exact h s List.mem_cons_self x (by rw [hk]; exact congrArg some hx)
    · exact ih _ (fun s' hs' => h s' (List.mem_cons_of_mem s hs')) t ht

/-- Whatever the text, the statements that are read from it are well formed. -/
theorem Reading.wellFormed (source : String) : WellFormed.stmts (ofText source).statements :=
  Grammar.wellFormed_program _ _ (Scan.isPlain_place 1 _ (isPlain_segments source.toList))

end LoxScript
