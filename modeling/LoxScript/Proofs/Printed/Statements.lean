import LoxScript.Proofs.Printed.Expressions

/-!
Programs that have been written out are read again.

A statement ends by itself, unless an `else` may follow it.
-/

namespace LoxScript

/-- No `else` is next. -/
def NoElse (ts : List Token) : Prop := ∀ line rest, ts ≠ ⟨.keyword .else_, line⟩ :: rest

namespace Grammar
open Parsed

section
variable (n : Nat) (L : Layout)

def StmtReads (s : Stmt Unit) : Prop :=
  ∀ rest, (s.endsOpen = true → NoElse rest) → (statement n (L.stmt s rest)).Reads s rest

/-- The first token of a statement is taken for the start of a declaration. -/
def DeclarationReads (s : Stmt Unit) : Prop :=
  ∀ rest, (s.endsOpen = true → NoElse rest) → ∃ t ts hs, L.stmt s rest = t :: ts ∧
    t.kind ≠ .symbol .rightBrace ∧ t.kind ≠ .keyword .else_ ∧
    declaration n t ts = ⟨some s, rest, hs, []⟩

def CodeReads (c : Code Unit) : Prop :=
  ∀ kind rest, (code n kind (L.code c rest)).Reads c rest

def BlockReads (ss : List (Stmt Unit)) : Prop :=
  ∀ line rest, (block n (L.stmts ss (⟨.symbol .rightBrace, line⟩ :: rest))).Reads ss rest

def MethodsReads (ms : List (Method Unit)) : Prop :=
  ∀ line rest, (methods n (L.methods ms (⟨.symbol .rightBrace, line⟩ :: rest))).Reads ms rest

end

section
variable {n : Nat} {L : Layout}

/-! ### Functions -/

theorem reads_parameterList (xs : List Name) (x : Name) {count : Nat} (line : Nat)
    (rest : List Token) (hcount : count + xs.length < Mistake.maxArguments) :
    (parameterList n count
      (x.token :: L.moreParameters xs (⟨.symbol .rightParen, line⟩ :: rest))).Reads (x :: xs)
      (⟨.symbol .rightParen, line⟩ :: rest) := by
  induction xs generalizing x count with
  | nil =>
    unfold parameterList Name.token
    simp only [if_pos (show count < Mistake.maxArguments from hcount)]
    exact reads_after (reads_behind (reads_done [x] _) _)
  | cons y ys ih =>
    have hlt : count + 1 + ys.length < Mistake.maxArguments := by
      rw [Nat.add_assoc, Nat.add_comm 1]
      exact hcount
    unfold parameterList Name.token
    simp only [if_pos (Nat.lt_of_le_of_lt (Nat.le_add_right _ _) hcount)]
    exact reads_after (reads_behind (reads_behind (reads_map (ih y hlt) _) _) _)

theorem reads_parameters (xs : List Name) (line : Nat) (rest : List Token)
    (hlen : xs.length ≤ Mistake.maxArguments) :
    (parameters n (L.parameters xs (⟨.symbol .rightParen, line⟩ :: rest))).Reads xs
      (⟨.symbol .rightParen, line⟩ :: rest) := by
  unfold parameters
  cases xs with
  | nil => exact reads_done [] _
  | cons x xs =>
    refine reads_weaken (reads_parameterList xs x line rest ?_)
    rw [Nat.zero_add]
    exact hlen

theorem CodeReads.mk {params : List Name} {body : List (Stmt Unit)} (h : BlockReads n L body)
    (hlen : params.length ≤ Mistake.maxArguments) : CodeReads n L (.mk params body) := by
  intro kind rest
  unfold code
  refine reads_andThen (reads_symbol _ _ _ _ _) fun _ => ?_
  refine reads_andThen (reads_parameters params _ _ hlen) fun _ => ?_
  refine reads_andThen (reads_symbol _ _ _ _ _) fun _ => ?_
  refine reads_andThen (reads_symbol _ _ _ _ _) fun _ => ?_
  exact reads_map (h _ rest) _

theorem methodsReads_nil : MethodsReads n L [] := by
  intro line rest
  unfold methods
  exact reads_behind (reads_done [] rest) _

theorem MethodsReads.cons {ms : List (Method Unit)} (h : MethodsReads n L ms) (x : Name)
    {c : Code Unit} (hc : CodeReads n L c) : MethodsReads n L (.mk x c :: ms) := by
  intro line rest
  rw [methods.eq_def]
  refine reads_andThen (reads_name _ _ x _) fun _ => ?_
  refine reads_andThen (hc .method _) fun _ => ?_
  exact reads_map (h line rest) _

/-! ### Statements -/

theorem expressionStatement_reads {e : Expr Unit} (h : ExprReads n L e) (rest : List Token) :
    (expressionStatement n (L.expr e (L.symbol .semicolon rest))).Reads (.expression e) rest := by
  unfold expressionStatement
  refine reads_andThen (h _ rfl) fun _ => ?_
  exact reads_map (reads_symbol _ _ _ _ rest) _

theorem StmtReads.expression {e : Expr Unit} (h : ExprReads n L e) (hc : Canonical.expr e) :
    StmtReads n L (.expression e) := by
  intro rest _
  rw [Layout.stmt, statement_of_begins n (begins_expr L e _ hc)]
  exact expressionStatement_reads h rest

theorem StmtReads.print {e : Expr Unit} (h : ExprReads n L e) : StmtReads n L (.print e) := by
  intro rest _
  rw [statement.eq_def]
  refine reads_behind (reads_andThen (h _ rfl) fun _ => ?_) _
  exact reads_map (reads_symbol _ _ _ _ rest) _

theorem StmtReads.block {ss : List (Stmt Unit)} (h : BlockReads n L ss) :
    StmtReads n L (.block ss) := by
  intro rest _
  rw [statement.eq_def]
  exact reads_behind (reads_map (h _ rest) _) _

theorem StmtReads.ret {value : Option (Expr Unit)} (h : ∀ e ∈ value, ExprReads n L e)
    (hc : Canonical.optionalExpr value) (line : Nat) : StmtReads n L (.ret line value) := by
  intro rest _
  have hv : (expressionUnless n .semicolon (L.optionalExpr value (L.symbol .semicolon rest))).Reads
      value (L.symbol .semicolon rest) := by
    cases value with
    | none =>
      unfold expressionUnless
      exact reads_done none _
    | some e =>
      rw [Layout.optionalExpr, expressionUnless_of_begins n (begins_expr L e _ hc) (.inl rfl)]
      exact reads_weaken (reads_map (h e rfl _ rfl) _)
  rw [statement.eq_def]
  refine reads_behind (reads_andThen hv fun _ => ?_) _
  exact reads_map (reads_symbol _ _ _ _ rest) _

theorem StmtReads.loop {e : Expr Unit} (h : ExprReads n L e) {s : Stmt Unit}
    (hs : StmtReads n L s) : StmtReads n L (.loop e s) := by
  intro rest hrest
  rw [statement.eq_def]
  refine reads_behind (reads_andThen (reads_symbol _ _ _ _ _) fun _ => ?_) _
  refine reads_andThen (h _ rfl) fun _ => ?_
  refine reads_andThen (reads_symbol _ _ _ _ _) fun _ => ?_
  exact reads_map (hs rest hrest) _

/-- Without a second branch, no `else` may follow. -/
theorem StmtReads.branch {e : Expr Unit} (h : ExprReads n L e) {yes : Stmt Unit}
    (hyes : StmtReads n L yes) : StmtReads n L (.branch e yes none) := by
  intro rest hrest
  have hno : NoElse rest := hrest rfl
  rw [statement.eq_def]
  refine reads_behind (reads_andThen (reads_symbol _ _ _ _ _) fun _ => ?_) _
  refine reads_andThen (h _ rfl) fun _ => ?_
  refine reads_andThen (reads_symbol _ _ _ _ _) fun _ => ?_
  refine reads_andThen (hyes rest fun _ => hno) fun hs => ?_
  split
  · exact absurd rfl (hno _ _)
  · exact reads_done _ rest

theorem StmtReads.branches {e : Expr Unit} (h : ExprReads n L e) {yes no : Stmt Unit}
    (hyes : StmtReads n L yes) (hopen : yes.endsOpen = false) (hno : StmtReads n L no) :
    StmtReads n L (.branch e yes (some no)) := by
  intro rest hrest
  rw [statement.eq_def]
  refine reads_behind (reads_andThen (reads_symbol _ _ _ _ _) fun _ => ?_) _
  refine reads_andThen (h _ rfl) fun _ => ?_
  refine reads_andThen (reads_symbol _ _ _ _ _) fun _ => ?_
  refine reads_andThen (hyes _ fun ho => absurd (hopen.symm.trans ho) nofun) fun _ => ?_
  exact reads_weaken (reads_behind (reads_map (hno rest hrest) _) _)

/-! ### Declarations -/

theorem recover_of_reads {t : Token} {ts : List Token} {p : Parsed true (t :: ts) (Stmt Unit)}
    {s : Stmt Unit} {rest : List Token} (h : p.Reads s rest) :
    ∃ hs, p.recover = ⟨some s, rest, hs, []⟩ := by
  obtain ⟨hs, rfl⟩ := h
  exact ⟨hs, rfl⟩

/-- What is no declaration is read as a statement. -/
theorem DeclarationReads.of_stmt {s : Stmt Unit} (h : StmtReads n L s) (hs : s.declares? = none)
    (hc : Canonical.stmt s) : DeclarationReads n L s := by
  intro rest hrest
  have hread := h rest hrest
  cases s with
  | expression e =>
    rw [Layout.stmt] at hread ⊢
    have hb := begins_expr L e (L.symbol .semicolon rest) hc
    obtain ⟨t, ts, hts, hbrace, helse⟩ := hb.head
    rw [hts] at hread hb
    obtain ⟨hs, hd⟩ := recover_of_reads hread
    exact ⟨t, ts, hs, hts, hbrace, helse, (declaration_of_begins n hb).trans hd⟩
  | print | block | branch | loop | ret =>
    obtain ⟨hs, hd⟩ := recover_of_reads hread
    refine ⟨_, _, hs, rfl, nofun, nofun, ?_⟩
    rw [declaration.eq_def]
    exact hd
  | var | function => cases hs
  | classDef => cases hs

theorem DeclarationReads.var {value : Option (Expr Unit)} (h : ∀ e ∈ value, ExprReads n L e)
    (x : Name) : DeclarationReads n L (.var x value) := by
  intro rest _
  have hv : (varDeclaration n (x.token :: L.initial value (L.symbol .semicolon rest))).Reads
      (.var x value) rest := by
    unfold varDeclaration
    refine reads_andThen (reads_name _ _ x _) fun _ => ?_
    cases value with
    | none => exact reads_map (reads_symbol _ _ _ _ rest) _
    | some e =>
      refine reads_behind (reads_andThen (h e rfl _ rfl) fun _ => ?_) _
      exact reads_map (reads_symbol _ _ _ _ rest) _
  obtain ⟨hs, hd⟩ := recover_of_reads (reads_behind hv ⟨.keyword .var_, L.line _⟩)
  refine ⟨_, _, hs, rfl, nofun, nofun, ?_⟩
  rw [declaration.eq_def]
  exact hd

theorem DeclarationReads.function {c : Code Unit} (h : CodeReads n L c) (x : Name) :
    DeclarationReads n L (.function x c) := by
  intro rest _
  have hc := reads_map (h .function rest) (Stmt.function x)
  obtain ⟨hs, hd⟩ := recover_of_reads (reads_behind (reads_behind hc x.token)
    ⟨.keyword .fun_, L.line _⟩)
  refine ⟨_, _, hs, rfl, nofun, nofun, ?_⟩
  rw [declaration.eq_def]
  exact hd

theorem reads_superclass (parent : Option (Name × Unit)) (rest : List Token) :
    (superclass n (L.superclass parent (L.symbol .leftBrace rest))).Reads parent
      (L.symbol .leftBrace rest) := by
  unfold superclass
  cases parent with
  | none => exact reads_done none _
  | some p => exact reads_weaken (reads_behind (reads_map (reads_name _ _ p.1 _) _) _)

theorem DeclarationReads.classDef {ms : List (Method Unit)} (h : MethodsReads n L ms) (x : Name)
    (parent : Option (Name × Unit)) : DeclarationReads n L (.classDef x parent ms) := by
  intro rest _
  have hc : (classDeclaration n (x.token :: L.superclass parent (L.symbol .leftBrace
      (L.methods ms (L.symbol .rightBrace rest))))).Reads (.classDef x parent ms) rest := by
    unfold classDeclaration
    refine reads_andThen (reads_name _ _ x _) fun _ => ?_
    refine reads_andThen (reads_superclass parent _) fun _ => ?_
    refine reads_andThen (reads_symbol _ _ _ _ _) fun _ => ?_
    exact reads_map (h _ rest) _
  obtain ⟨hs, hd⟩ := recover_of_reads (reads_behind hc ⟨.keyword .class_, L.line _⟩)
  refine ⟨_, _, hs, rfl, nofun, nofun, ?_⟩
  rw [declaration.eq_def]
  exact hd

/-! ### Blocks and programs -/

/-- What has been written out does not begin with an `else`. -/
theorem noElse_stmts {ss : List (Stmt Unit)} (h : ∀ s ∈ ss, DeclarationReads n L s)
    {rest : List Token} (hrest : NoElse rest) : NoElse (L.stmts ss rest) := by
  induction ss with
  | nil => exact hrest
  | cons s ss ih =>
    have hss := ih fun s' hs' => h s' (List.mem_cons_of_mem s hs')
    obtain ⟨t, ts, -, hts, -, helse, -⟩ := h s List.mem_cons_self (L.stmts ss rest) fun _ => hss
    intro line r hr
    rw [Layout.stmts, hts] at hr
    cases hr
    exact helse rfl

theorem blockReads_of_declarations {ss : List (Stmt Unit)} (h : ∀ s ∈ ss, DeclarationReads n L s) :
    BlockReads n L ss := by
  intro line rest
  induction ss with
  | nil =>
    unfold block
    exact reads_behind (reads_done [] rest) _
  | cons s ss ih =>
    have hss : ∀ s ∈ ss, DeclarationReads n L s := fun s' hs' => h s' (List.mem_cons_of_mem s hs')
    have hno : NoElse (L.stmts ss (⟨.symbol .rightBrace, line⟩ :: rest)) :=
      noElse_stmts hss fun _ _ h => by cases h
    obtain ⟨t, ts, hs, hts, hbrace, -, hd⟩ := h s List.mem_cons_self _ fun _ => hno
    rw [Layout.stmts, hts, block_cons n hbrace, hd]
    exact reads_after (reads_within (reads_map (ih hss) _) hs)

/-- A program that has been written out is read without complaints. -/
theorem program_stmts {ss : List (Stmt Unit)} (h : ∀ s ∈ ss, DeclarationReads n L s) :
    program n (L.stmts ss []) = (ss, []) := by
  induction ss with
  | nil => rw [Layout.stmts, program]
  | cons s ss ih =>
    have hss : ∀ s ∈ ss, DeclarationReads n L s := fun s' hs' => h s' (List.mem_cons_of_mem s hs')
    have hno : NoElse (L.stmts ss []) := noElse_stmts hss fun _ _ h => by cases h
    obtain ⟨t, ts, hs, hts, -, -, hd⟩ := h s List.mem_cons_self _ fun _ => hno
    rw [Layout.stmts, hts, program, hd]
    simp only [ih hss, Option.toList_some, List.singleton_append, List.nil_append]

end
end Grammar
end LoxScript
