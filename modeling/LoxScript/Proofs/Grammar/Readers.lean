import LoxScript.Proofs.Grammar.WellFormed

/-!
What holds of everything that is read.

The readers are put together from a few combinators.  `Closed Q` says that the property `Q` of
outcomes is kept by each of them, and a closed property holds of the outcome of every reader, from
any tokens.  There are two more clauses than combinators.  An assignment to no proper target
complains about a token that was taken before the value, and a declaration in a block may have been
recovered from.
-/

namespace LoxScript
namespace Parsed

/-- The property is kept by the combinators of readers; `n` is the line of the end of the input. -/
structure Closed (n : Nat)
    (Q : ∀ {a : Bool} {ts : List Token} {α : Type}, Parsed a ts α → Prop) : Prop where
  done {α : Type} (v : α) (ts : List Token) : Q (Parsed.done v ts)
  fail {a : Bool} {α : Type} (m : Mistake) (ts : List Token) :
    Q (Parsed.fail m n ts : Parsed a ts α)
  after {a : Bool} {ts : List Token} {α : Type} {p : Parsed a ts α} (m : Mistake) :
    Q p → Q (p.after [m.report n ts])
  behind {a : Bool} {t : Token} {ts : List Token} {α : Type} {p : Parsed a ts α} :
    Q p → Q (p.behind (t := t))
  weaken {a : Bool} {ts : List Token} {α : Type} {p : Parsed a ts α} : Q p → Q p.weaken
  map {a : Bool} {ts : List Token} {α β : Type} {p : Parsed a ts α} (f : α → β) :
    Q p → Q (p.map f)
  andThen {a b : Bool} {ts : List Token} {α β : Type} {p : Parsed a ts α}
    {next : α → (rest : List Token) → Shrinks a rest ts → Parsed b rest β} :
    Q p → (∀ v rest hs, Q (next v rest hs)) → Q (p.andThen next)
  assigned {t : Token} {ts : List Token} {p : Parsed true ts (Expr Unit)} (m : Mistake)
    (target : Expr Unit) (assign? : Expr Unit → Option (Expr Unit)) :
    Q p → Q (Parsed.behind (t := t) (p.andThen fun value rest _ =>
      match assign? value with
      | some e => Parsed.done e rest
      | none => (Parsed.done target rest).after [.atToken t m.message]))
  recovered {t : Token} {ts : List Token} {p : Parsed true (t :: ts) (Stmt Unit)} {b : Bool}
    {β γ : Type} {q : Parsed b p.recover.rest β} (f : β → γ) :
    Q p → Q q → Q (((q.map f).within p.recover.shrinks).after p.recover.notes)

end Parsed

namespace Grammar
open Parsed

/-- The property holds of whatever is read from these tokens. -/
structure HoldsOfAll (n : Nat)
    (Q : ∀ {a : Bool} {ts : List Token} {α : Type}, Parsed a ts α → Prop) (ts : List Token) :
    Prop where
  expression : Q (expression n ts)
  operand (level : Level) : Q (operand n level ts)
  infixTail (level : Level) (left : Expr Unit) : Q (infixTail n level left ts)
  unary : Q (unary n ts)
  callTail (callee : Expr Unit) : Q (callTail n callee ts)
  arguments : Q (arguments n ts)
  argumentList (count : Nat) : Q (argumentList n count ts)
  code (kind : CodeKind) : Q (code n kind ts)
  block : Q (block n ts)
  methods : Q (methods n ts)
  classDeclaration : Q (classDeclaration n ts)
  varDeclaration : Q (varDeclaration n ts)
  expressionUnless (stop : Symbol) : Q (expressionUnless n stop ts)
  initializer : Q (initializer n ts)
  statement : Q (statement n ts)

namespace HoldsOfAll
variable {n : Nat} {Q : ∀ {a : Bool} {ts : List Token} {α : Type}, Parsed a ts α → Prop}
  (hQ : Closed n Q)

section
include hQ

theorem of_symbol (s : Symbol) (m : Mistake) (ts : List Token) : Q (symbol s m n ts) := by
  cases ts with
  | nil => exact hQ.fail m []
  | cons t rest =>
    simp only [symbol]
    split
    · exact hQ.behind (hQ.done t.line rest)
    · exact hQ.fail m (t :: rest)

theorem of_name (m : Mistake) (ts : List Token) : Q (name m n ts) := by
  unfold name
  split
  · exact hQ.behind (hQ.done _ _)
  · exact hQ.fail m ts

theorem of_excess {a : Bool} {ts : List Token} {α : Type} {p : Parsed a ts α} (h : Q p)
    (m : Mistake) (count : Nat) :
    Q (p.after (if count < Mistake.maxArguments then [] else [m.report n ts])) := by
  split
  · cases p <;> exact h
  · exact hQ.after m h

theorem of_parameterList (count : Nat) (ts : List Token) : Q (parameterList n count ts) := by
  fun_induction parameterList n count ts with
  | case1 count text line line' rest excess ih =>
    exact of_excess hQ (hQ.behind (hQ.behind (hQ.map _ ih))) _ count
  | case2 count text line rest excess _ =>
    exact of_excess hQ (hQ.behind (hQ.done _ _)) _ count
  | case3 count ts _ excess => exact of_excess hQ (hQ.fail _ _) _ count

theorem of_parameters (ts : List Token) : Q (parameters n ts) := by
  unfold parameters
  split
  · exact hQ.done _ _
  · exact hQ.weaken (of_parameterList hQ 0 ts)

theorem of_superclass (ts : List Token) : Q (superclass n ts) := by
  unfold superclass
  split
  · exact hQ.weaken (hQ.behind (hQ.map _ (of_name hQ _ _)))
  · exact hQ.done _ _

end

variable {ts : List Token} (ih : ∀ rest, Shrinks true rest ts → HoldsOfAll n Q rest)
include hQ ih

theorem of_code (kind : CodeKind) : Q (Grammar.code n kind ts) := by
  unfold Grammar.code
  refine hQ.andThen (of_symbol hQ _ _ _) fun _ rest₁ h₁ => ?_
  refine hQ.andThen (of_parameters hQ _) fun params rest₂ h₂ => ?_
  refine hQ.andThen (of_symbol hQ _ _ _) fun _ rest₃ h₃ => ?_
  refine hQ.andThen (of_symbol hQ _ _ _) fun _ rest₄ h₄ => ?_
  exact hQ.map _ (ih rest₄ (((h₁.trans h₂).trans h₃).trans h₄)).block

theorem of_primary : Q (primary n ts) := by
  unfold primary
  split
  · exact hQ.behind (hQ.done _ _)
  · exact hQ.behind (hQ.done _ _)
  · exact hQ.behind (hQ.done _ _)
  · exact hQ.behind (hQ.done _ _)
  · exact hQ.behind (hQ.done _ _)
  · refine hQ.behind (hQ.andThen (of_symbol hQ _ _ _) fun _ rest hs => ?_)
    exact hQ.map _ (of_name hQ _ _)
  · exact hQ.behind (hQ.done _ _)
  · exact hQ.behind (hQ.done _ _)
  · exact hQ.behind (hQ.map _ ((ih _ (.tail _ _)).code .function))
  · refine hQ.behind (hQ.andThen (ih _ (.tail _ _)).expression fun inner rest hs => ?_)
    exact hQ.map _ (of_symbol hQ _ _ _)
  · exact hQ.fail _ _

theorem of_callTail (callee : Expr Unit) : Q (Grammar.callTail n callee ts) := by
  unfold Grammar.callTail
  split
  · have ha := (ih _ (.tail _ _)).arguments
    refine hQ.weaken (hQ.behind (hQ.andThen ha fun args rest hs => ?_))
    refine hQ.andThen (of_symbol hQ _ _ _) fun line rest' hs' => ?_
    exact (ih rest' (.cons _ (hs.trans hs'))).callTail _
  · refine hQ.weaken (hQ.behind (hQ.andThen (of_name hQ _ _) fun property rest hs => ?_))
    exact (ih rest (.cons _ hs)).callTail _
  · exact hQ.done _ _

theorem of_unary : Q (Grammar.unary n ts) := by
  unfold Grammar.unary
  split
  · exact hQ.behind (hQ.map _ (ih _ (.tail _ _)).unary)
  · exact hQ.behind (hQ.map _ (ih _ (.tail _ _)).unary)
  · unfold call
    exact hQ.andThen (of_primary hQ ih) fun callee rest hs => (ih rest hs).callTail callee

theorem of_infixTail (level : Level) (left : Expr Unit) :
    Q (Grammar.infixTail n level left ts) := by
  cases ts with
  | nil =>
    unfold Grammar.infixTail
    exact hQ.done left []
  | cons t rest =>
    unfold Grammar.infixTail
    split
    · exact hQ.done left (t :: rest)
    · have ho := (ih rest (.tail t rest)).operand level
      refine hQ.weaken (hQ.behind (hQ.andThen ho fun right rest' hs => ?_))
      exact (ih rest' (.cons t hs)).infixTail level _

/-- By induction on the number of levels between this one and the unary operators. -/
theorem of_operand (level : Level) : Q (Grammar.operand n level ts) := by
  unfold Grammar.operand
  split
  · rename_i tighter ht
    unfold infixed
    refine hQ.andThen (of_operand tighter) fun left rest hs => ?_
    exact (ih rest hs).infixTail tighter left
  · exact of_unary hQ ih
termination_by level.height
decreasing_by exact Level.height_tighter ‹_›

theorem of_expression : Q (Grammar.expression n ts) := by
  have hi : Q (infixed n .or ts) := by
    unfold infixed
    refine hQ.andThen (of_operand hQ ih .or) fun left rest hs => ?_
    exact (ih rest hs).infixTail .or left
  unfold Grammar.expression
  refine hQ.andThen hi fun target rest hs => ?_
  split
  · rename_i hs
    split
    · exact hQ.done target _
    · rename_i s line rest _ op _
      have he := (ih _ (hs.trans (.tail _ _))).expression
      exact hQ.weaken (hQ.assigned .assignmentTarget target (target.assignment? op line) he)
  · exact hQ.done target rest

theorem of_argumentList (count : Nat) : Q (Grammar.argumentList n count ts) := by
  unfold Grammar.argumentList
  refine of_excess hQ (hQ.andThen (of_expression hQ ih) fun arg rest hs => ?_) _ count
  split
  · rename_i hs
    have hl := (ih _ (hs.trans (.tail _ _))).argumentList (count + 1)
    exact hQ.weaken (hQ.behind (hQ.map _ hl))
  · exact hQ.done [arg] rest

theorem of_arguments : Q (Grammar.arguments n ts) := by
  unfold Grammar.arguments
  split
  · exact hQ.done [] _
  · exact hQ.weaken (of_argumentList hQ ih 0)

theorem of_expressionUnless (stop : Symbol) : Q (Grammar.expressionUnless n stop ts) := by
  have he : Q ((Grammar.expression n ts).map some).weaken :=
    hQ.weaken (hQ.map _ (of_expression hQ ih))
  unfold Grammar.expressionUnless
  split
  · split
    · exact hQ.done none ts
    · exact he
  · exact he

theorem of_expressionStatement : Q (expressionStatement n ts) := by
  unfold expressionStatement
  refine hQ.andThen (of_expression hQ ih) fun e rest hs => ?_
  exact hQ.map _ (of_symbol hQ _ _ _)

theorem of_varDeclaration : Q (Grammar.varDeclaration n ts) := by
  unfold Grammar.varDeclaration
  refine hQ.andThen (of_name hQ _ _) fun x rest hs => ?_
  split
  · rename_i hs
    have he := (ih _ (hs.trans (.tail _ _))).expression
    refine hQ.behind (hQ.andThen he fun value rest' hs' => ?_)
    exact hQ.map _ (of_symbol hQ _ _ _)
  · exact hQ.map _ (of_symbol hQ _ _ _)

theorem of_initializer : Q (Grammar.initializer n ts) := by
  unfold Grammar.initializer
  split
  · exact hQ.behind (hQ.done none _)
  · exact hQ.behind (hQ.map _ (ih _ (.tail _ _)).varDeclaration)
  · exact hQ.map _ (of_expressionStatement hQ ih)

theorem of_methods : Q (Grammar.methods n ts) := by
  unfold Grammar.methods
  split
  · exact hQ.behind (hQ.done [] _)
  · exact hQ.fail _ _
  · refine hQ.andThen (of_name hQ _ _) fun methodName rest₁ h₁ => ?_
    refine hQ.andThen ((ih rest₁ h₁).code .method) fun body rest₂ h₂ => ?_
    exact hQ.map _ (ih rest₂ (h₁.trans h₂)).methods

theorem of_classDeclaration : Q (Grammar.classDeclaration n ts) := by
  unfold Grammar.classDeclaration
  refine hQ.andThen (of_name hQ _ _) fun className rest₁ h₁ => ?_
  refine hQ.andThen (of_superclass hQ _) fun parent rest₂ h₂ => ?_
  refine hQ.andThen (of_symbol hQ _ _ _) fun _ rest₃ h₃ => ?_
  exact hQ.map _ (ih rest₃ ((h₁.trans h₂).trans h₃)).methods

theorem of_statement : Q (Grammar.statement n ts) := by
  unfold Grammar.statement
  split
  · refine hQ.behind (hQ.andThen (of_symbol hQ _ _ _) fun _ rest₁ h₁ => ?_)
    refine hQ.andThen (ih rest₁ (.cons _ h₁)).initializer fun initial rest₂ h₂ => ?_
    have h₂ := h₁.trans h₂
    refine hQ.andThen ((ih rest₂ (.cons _ h₂)).expressionUnless _) fun condition rest₃ h₃ => ?_
    refine hQ.andThen (of_symbol hQ _ _ _) fun _ rest₄ h₄ => ?_
    have h₄ := (h₂.trans h₃).trans h₄
    refine hQ.andThen ((ih rest₄ (.cons _ h₄)).expressionUnless _) fun step rest₅ h₅ => ?_
    refine hQ.andThen (of_symbol hQ _ _ _) fun _ rest₆ h₆ => ?_
    exact hQ.map _ (ih rest₆ (.cons _ ((h₄.trans h₅).trans h₆))).statement
  · refine hQ.behind (hQ.andThen (of_symbol hQ _ _ _) fun _ rest₁ h₁ => ?_)
    refine hQ.andThen (ih rest₁ (.cons _ h₁)).expression fun condition rest₂ h₂ => ?_
    refine hQ.andThen (of_symbol hQ _ _ _) fun _ rest₃ h₃ => ?_
    have h₃ := (h₁.trans h₂).trans h₃
    refine hQ.andThen (ih rest₃ (.cons _ h₃)).statement fun yes rest₄ h₄ => ?_
    split
    · rename_i h₄
      have hno := (ih _ (.cons _ ((h₃.trans h₄).trans (.tail _ _)))).statement
      exact hQ.weaken (hQ.behind (hQ.map _ hno))
    · exact hQ.done _ rest₄
  · refine hQ.behind (hQ.andThen (ih _ (.tail _ _)).expression fun e rest hs => ?_)
    exact hQ.map _ (of_symbol hQ _ _ _)
  · have hv := (ih _ (.tail _ _)).expressionUnless .semicolon
    refine hQ.behind (hQ.andThen hv fun value rest hs => ?_)
    exact hQ.map _ (of_symbol hQ _ _ _)
  · refine hQ.behind (hQ.andThen (of_symbol hQ _ _ _) fun _ rest₁ h₁ => ?_)
    refine hQ.andThen (ih rest₁ (.cons _ h₁)).expression fun condition rest₂ h₂ => ?_
    refine hQ.andThen (of_symbol hQ _ _ _) fun _ rest₃ h₃ => ?_
    exact hQ.map _ (ih rest₃ (.cons _ ((h₁.trans h₂).trans h₃))).statement
  · exact hQ.behind (hQ.map _ (ih _ (.tail _ _)).block)
  · exact of_expressionStatement hQ ih

omit ih in
/-- A declaration, before it is known whether it is given up. -/
theorem of_declaration {t : Token} {rest : List Token}
    (ih : ∀ us, Shrinks true us (t :: rest) → HoldsOfAll n Q us) :
    ∃ p : Parsed true (t :: rest) (Stmt Unit), Q p ∧ declaration n t rest = p.recover := by
  unfold declaration
  refine ⟨_, ?_, rfl⟩
  split
  · exact hQ.behind (ih _ (.tail _ _)).classDeclaration
  · have hc := (ih _ (.cons _ (.of_le (Nat.le_succ _)))).code .function
    exact hQ.behind (hQ.behind (hQ.map _ hc))
  · exact hQ.behind (ih _ (.tail _ _)).varDeclaration
  · exact of_statement hQ ih

theorem of_block : Q (Grammar.block n ts) := by
  unfold Grammar.block
  split
  · exact hQ.behind (hQ.done [] _)
  · exact hQ.fail _ _
  · rename_i t rest _
    obtain ⟨p, hp, hd⟩ := of_declaration hQ ih
    rw [hd]
    exact hQ.recovered _ hp (ih p.recover.rest p.recover.shrinks).block

end HoldsOfAll

theorem holdsOfAll {n : Nat} {Q : ∀ {a : Bool} {ts : List Token} {α : Type}, Parsed a ts α → Prop}
    (hQ : Closed n Q) (ts : List Token) : HoldsOfAll n Q ts :=
  have ih : ∀ rest, Shrinks true rest ts → HoldsOfAll n Q rest := fun rest _ => holdsOfAll hQ rest
  { expression := HoldsOfAll.of_expression hQ ih
    operand := HoldsOfAll.of_operand hQ ih
    infixTail := HoldsOfAll.of_infixTail hQ ih
    unary := HoldsOfAll.of_unary hQ ih
    callTail := HoldsOfAll.of_callTail hQ ih
    arguments := HoldsOfAll.of_arguments hQ ih
    argumentList := HoldsOfAll.of_argumentList hQ ih
    code := HoldsOfAll.of_code hQ ih
    block := HoldsOfAll.of_block hQ ih
    methods := HoldsOfAll.of_methods hQ ih
    classDeclaration := HoldsOfAll.of_classDeclaration hQ ih
    varDeclaration := HoldsOfAll.of_varDeclaration hQ ih
    expressionUnless := HoldsOfAll.of_expressionUnless hQ ih
    initializer := HoldsOfAll.of_initializer hQ ih
    statement := HoldsOfAll.of_statement hQ ih }
termination_by ts.length
decreasing_by exact ‹Shrinks true rest ts›.lt

/-- A closed property holds of every declaration, before it is known whether it is given up. -/
theorem declaration_of_closed {n : Nat}
    {Q : ∀ {a : Bool} {ts : List Token} {α : Type}, Parsed a ts α → Prop} (hQ : Closed n Q)
    (t : Token) (rest : List Token) :
    ∃ p : Parsed true (t :: rest) (Stmt Unit), Q p ∧ declaration n t rest = p.recover :=
  HoldsOfAll.of_declaration hQ fun us _ => holdsOfAll hQ us

end Grammar
end LoxScript
