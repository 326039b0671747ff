import LoxScript.Binding.Walk
import LoxScript.Proofs.Grammar.WellFormed

/-!
The walk of resolution is balanced.

Resolution as a function of the scopes around a part and resolution as a walk that keeps these
scopes on a stack come to the same, because the walk leaves the stack as it has found it: an
expression leaves all of it, and a statement all but the name that it declares in the innermost
scope.
-/

namespace LoxScript

@[simp] theorem Journal.reportAll_reportAll (j : Journal) (ds es : List Diagnostic) :
    (j.reportAll ds).reportAll es = j.reportAll (ds ++ es) := List.foldl_append.symm

namespace Walking
variable {α β : Type}

@[simp] theorem pure_apply (a : α) (w : Walk) : (pure a : Walking α) w = (a, w) := rfl

@[simp] theorem bind_apply (x : Walking α) (f : α → Walking β) (w : Walk) :
    (x >>= f) w = f (x w).1 (x w).2 := rfl

@[simp] theorem scopes_apply (w : Walk) : scopes w = (w.scopes, w) := rfl

@[simp] theorem around_apply (w : Walk) : around w = (w.around, w) := rfl

@[simp] theorem change_apply (f : Walk → Walk) (w : Walk) : change f w = ((), f w) := rfl

end Walking

namespace Walk

/-! ### Single steps -/

section
variable (Γ : LocalScopes) (a : Surroundings) (j : Journal)

@[simp] theorem complainIf_apply (condition : Bool) (t : Token) (m : ScopeMistake) :
    complainIf condition t m ⟨Γ, a, j⟩ =
      ((), ⟨Γ, a, j.reportAll (Resolve.noteIf condition t m).notes⟩) := by
  cases condition <;> rfl

@[simp] theorem declare_apply (x : Name) :
    declare x ⟨Γ, a, j⟩ = ((), ⟨Γ.declare x.text false, a,
      j.reportAll (Resolve.noteIf (Γ.isRedeclared x.text) x.token .redeclared).notes⟩) := by
  simp [declare]

@[simp] theorem define_apply (x : Name) :
    define x ⟨Γ.declare x.text false, a, j⟩ = ((), ⟨Γ.declare x.text true, a, j⟩) := by
  cases Γ with
  | nil => rfl
  | cons s outer =>
    have hs : LocalScope.define x.text ((x.text, false) :: s) = (x.text, true) :: s := if_pos rfl
    show ((), Walk.mk (LocalScope.define x.text ((x.text, false) :: s) :: outer) a j) = _
    rw [hs]
    rfl

@[simp] theorem distance?_apply (x : String) :
    distance? x ⟨Γ, a, j⟩ = (Γ.distance? x, ⟨Γ, a, j⟩) := rfl

@[simp] theorem reference_apply (x : Name) :
    reference x ⟨Γ, a, j⟩ = ((Resolve.reference Γ x).value,
      ⟨Γ, a, j.reportAll (Resolve.reference Γ x).notes⟩) := by
  simp [reference, Resolve.reference]

@[simp] theorem beginScope_apply : beginScope ⟨Γ, a, j⟩ = ((), ⟨[] :: Γ, a, j⟩) := rfl

@[simp] theorem beginScopeOf_apply (x : String) :
    beginScopeOf x ⟨Γ, a, j⟩ = ((), ⟨[(x, true)] :: Γ, a, j⟩) := rfl

@[simp] theorem endScope_apply (s : LocalScope) : endScope ⟨s :: Γ, a, j⟩ = ((), ⟨Γ, a, j⟩) := rfl

@[simp] theorem setBody_apply (body : Body) :
    setBody body ⟨Γ, a, j⟩ = ((), ⟨Γ, { a with body }, j⟩) := rfl

@[simp] theorem setClassBody_apply (classBody : ClassBody) :
    setClassBody classBody ⟨Γ, a, j⟩ = ((), ⟨Γ, { a with classBody }, j⟩) := rfl

theorem after_eq {ρ : Type} {s : Stmt ρ} (h : s.declares? = none) : Γ.after s = Γ := by
  rw [LocalScopes.after, h]

/-- Declarations stay in the innermost scope. -/
theorem after_cons {ρ : Type} (s : LocalScope) (x : Stmt ρ) :
    ∃ s', LocalScopes.after (s :: Γ) x = s' :: Γ := by
  unfold LocalScopes.after
  cases x.declares? with
  | none => exact ⟨s, rfl⟩
  | some y => exact ⟨_, rfl⟩

theorem foldl_after_cons {ρ : Type} (ss : List (Stmt ρ)) (s : LocalScope) :
    ∃ s', ss.foldl LocalScopes.after (s :: Γ) = s' :: Γ := by
  induction ss generalizing s with
  | nil => exact ⟨s, rfl⟩
  | cons x ss ih =>
    obtain ⟨s', hs'⟩ := after_cons Γ s x
    rw [List.foldl_cons, hs']
    exact ih s'

theorem params_apply (ps : List Name) (s : LocalScope) :
    ∃ s', (Resolve.declareParams (s :: Γ) ps).value = s' :: Γ ∧
      params ps ⟨s :: Γ, a, j⟩ =
        ((), ⟨s' :: Γ, a, j.reportAll (Resolve.declareParams (s :: Γ) ps).notes⟩) := by
  induction ps generalizing s j with
  | nil => exact ⟨s, rfl, rfl⟩
  | cons p ps ih =>
    obtain ⟨s', hs', hparams⟩ := ih (j.reportAll
      (Resolve.noteIf (LocalScopes.isRedeclared (s :: Γ) p.text) p.token .redeclared).notes)
      ((p.text, true) :: s)
    refine ⟨s', hs', ?_⟩
    simp only [params, Walking.bind_apply, declare_apply, define_apply]
    refine hparams.trans ?_
    rw [Journal.reportAll_reportAll]
    rfl

end

/-! ### The walk -/

mutual

theorem expr_apply : (e : Expr Unit) → WellFormed.expr e → ∀ Γ a j, expr e ⟨Γ, a, j⟩ =
    ((Resolve.expr a Γ e).value, ⟨Γ, a, j.reportAll (Resolve.expr a Γ e).notes⟩)
  | .literal _, _, _, _, _ => rfl
  | .grouping inner, h, Γ, a, j => by simp [expr, Resolve.expr, expr_apply inner h]
  | .unary _ _ operand, h, Γ, a, j => by simp [expr, Resolve.expr, expr_apply operand h]
  | .binary left _ _ right, h, Γ, a, j => by
    simp [expr, Resolve.expr, expr_apply left h.1, expr_apply right h.2]
  | .logical left _ _ right, h, Γ, a, j => by
    simp [expr, Resolve.expr, expr_apply left h.1, expr_apply right h.2]
  | .var x _, _, Γ, a, j => by simp [expr, Resolve.expr]
  | .assign x _ value, h, Γ, a, j => by simp [expr, Resolve.expr, expr_apply value h.2]
  | .call callee _ arguments, h, Γ, a, j => by
    simp [expr, Resolve.expr, expr_apply callee h.1, exprs_apply arguments h.2]
  | .get object _, h, Γ, a, j => by simp [expr, Resolve.expr, expr_apply object h.1]
  | .set object _ value, h, Γ, a, j => by
    simp [expr, Resolve.expr, expr_apply value h.2.2, expr_apply object h.1]
  | .update object _ _ _ value, h, Γ, a, j => by
    simp [expr, Resolve.expr, expr_apply value h.2.2, expr_apply object h.1]
  | .this line _, _, Γ, ⟨body, classBody⟩, j => by cases classBody <;> rfl
  | .super line _ x, _, Γ, ⟨body, classBody⟩, j => by cases classBody <;> rfl
  | .function _ body, h, Γ, a, j => by simp [expr, Resolve.expr, code_apply body h]

theorem exprs_apply : (es : List (Expr Unit)) → WellFormed.exprs es → ∀ Γ a j,
    exprs es ⟨Γ, a, j⟩ =
      ((Resolve.exprs a Γ es).value, ⟨Γ, a, j.reportAll (Resolve.exprs a Γ es).notes⟩)
  | [], _, _, _, _ => rfl
  | e :: es, h, Γ, a, j => by
    simp [exprs, Resolve.exprs, expr_apply e h.1, exprs_apply es h.2]

theorem optionalExpr_apply : (o : Option (Expr Unit)) → WellFormed.optionalExpr o → ∀ Γ a j,
    optionalExpr o ⟨Γ, a, j⟩ = ((Resolve.optionalExpr a Γ o).value,
      ⟨Γ, a, j.reportAll (Resolve.optionalExpr a Γ o).notes⟩)
  | none, _, _, _, _ => rfl
  | some e, h, Γ, a, j => by simp [optionalExpr, Resolve.optionalExpr, expr_apply e h]

theorem code_apply : (c : Code Unit) → WellFormed.code c → ∀ body Γ a j,
    code body c ⟨Γ, a, j⟩ = ((Resolve.code a body Γ c).value,
      ⟨Γ, a, j.reportAll (Resolve.code a body Γ c).notes⟩)
  | .mk ps ss, h, body, Γ, a, j => by
    -- Parameters and statements declare in the new scope only, which is taken away whole.
    obtain ⟨s, hs, hparams⟩ := params_apply Γ { a with body } j ps []
    obtain ⟨s', hs'⟩ := foldl_after_cons Γ ss s
    simp [code, Resolve.code, hparams, stmts_apply ss h.2, hs, hs']

theorem methods_apply : (ms : List (Method Unit)) → WellFormed.methods ms → ∀ Γ a j,
    methods ms ⟨Γ, a, j⟩ =
      ((Resolve.methods a Γ ms).value, ⟨Γ, a, j.reportAll (Resolve.methods a Γ ms).notes⟩)
  | [], _, _, _, _ => rfl
  | .mk x body :: ms, h, Γ, a, j => by
    simp [methods, Resolve.methods, code_apply body h.2.1, methods_apply ms h.2.2]

theorem stmt_apply : (s : Stmt Unit) → WellFormed.stmt s → ∀ Γ a j, stmt s ⟨Γ, a, j⟩ =
    ((Resolve.stmt a Γ s).value, ⟨Γ.after s, a, j.reportAll (Resolve.stmt a Γ s).notes⟩)
  | .expression e, h, Γ, a, j => by
    simp [stmt, Resolve.stmt, expr_apply e h, after_eq Γ (s := .expression e) rfl]
  | .print e, h, Γ, a, j => by
    simp [stmt, Resolve.stmt, expr_apply e h, after_eq Γ (s := .print e) rfl]
  | .var x initial, h, Γ, a, j => by
    simp [stmt, Resolve.stmt, optionalExpr_apply initial h.2, LocalScopes.after, Stmt.declares?]
  | .block body, h, Γ, a, j => by
    obtain ⟨s', hs'⟩ := foldl_after_cons Γ body []
    simp [stmt, Resolve.stmt, stmts_apply body h, hs', after_eq Γ (s := .block body) rfl]
  | .branch condition yes no, h, Γ, a, j => by
    simp [stmt, Resolve.stmt, expr_apply condition h.1, stmt_apply yes h.2.1.2,
      after_eq Γ h.2.1.1, optionalStmt_apply no h.2.2,
      after_eq Γ (s := .branch condition yes no) rfl]
  | .loop condition body, h, Γ, a, j => by
    simp [stmt, Resolve.stmt, expr_apply condition h.1, stmt_apply body h.2.2,
      after_eq Γ h.2.1, after_eq Γ (s := .loop condition body) rfl]
  | .function x body, h, Γ, a, j => by
    simp [stmt, Resolve.stmt, code_apply body h.2, LocalScopes.after, Stmt.declares?]
  | .ret line value, h, Γ, a, j => by
    simp [stmt, Resolve.stmt, optionalExpr_apply value h, Bool.and_comm,
      after_eq Γ (s := .ret line value) rfl]
  | .classDef x none ms, h, Γ, a, j => by
    simp [stmt, Resolve.stmt, methods_apply ms h.2.2, LocalScopes.after, Stmt.declares?]
  | .classDef x (some (y, _)) ms, h, Γ, a, j => by
    simp [stmt, Resolve.stmt, methods_apply ms h.2.2, LocalScopes.after, Stmt.declares?]

theorem optionalStmt_apply : (o : Option (Stmt Unit)) → WellFormed.optionalStmt o → ∀ Γ a j,
    optionalStmt o ⟨Γ, a, j⟩ = ((Resolve.optionalStmt a Γ o).value,
      ⟨Γ, a, j.reportAll (Resolve.optionalStmt a Γ o).notes⟩)
  | none, _, _, _, _ => rfl
  | some s, h, Γ, a, j => by
    simp [optionalStmt, Resolve.optionalStmt, stmt_apply s h.2, after_eq Γ h.1]

theorem stmts_apply : (ss : List (Stmt Unit)) → WellFormed.stmts ss → ∀ Γ a j,
    stmts ss ⟨Γ, a, j⟩ = ((Resolve.stmts a Γ ss).value,
      ⟨ss.foldl LocalScopes.after Γ, a, j.reportAll (Resolve.stmts a Γ ss).notes⟩)
  | [], _, _, _, _ => rfl
  | s :: ss, h, Γ, a, j => by
    simp [stmts, Resolve.stmts, stmt_apply s h.1, stmts_apply ss h.2]

end

/-- A walk over a whole program finds what resolution does. -/
theorem program_apply (j : Journal) {program : List (Stmt Unit)} (h : WellFormed.stmts program) :
    Walk.program j program =
      ((Resolve.program program).value, j.reportAll (Resolve.program program).notes) := by
  rw [Walk.program, stmts_apply program h]
  rfl

end Walk
end LoxScript
