import LoxScript.Proofs.Binding.Sound
import Mathlib.Data.List.Forall2

/-!
What resolution makes of the parts of accepted programs.

A part that a running program meets is resolved already.  The relations here say which part it was
before, and between which scopes it stands; for each shape of expression and statement there is one
case that says the same of the parts in it.
-/

namespace LoxScript

section
variable (P : List (List (Stmt Unit))) (Γ : Frames)

/-- The second expression is what resolution makes of the first one, which stands inside the scopes
`Γ` in one of the programs. -/
def ExprAt (e₀ : Expr Unit) (e : RExpr) : Prop :=
  ∃ a, Place.Occurs P ⟨a, Γ, .expr e₀⟩ ∧ (Resolve.expr a Γ.scopes e₀).value = e

def CodeAt (c₀ : Code Unit) (c : Code (Option Nat)) : Prop :=
  ∃ a body, Place.Occurs P ⟨a, Γ, .code body c₀⟩ ∧ (Resolve.code a body Γ.scopes c₀).value = c

def MethodsAt (ms₀ : List (Method Unit)) (ms : List (Method (Option Nat))) : Prop :=
  ∃ a, Place.Occurs P ⟨a, Γ, .methods ms₀⟩ ∧ (Resolve.methods a Γ.scopes ms₀).value = ms

def StmtAt (s₀ : Stmt Unit) (s : RStmt) : Prop :=
  ∃ a, Place.Occurs P ⟨a, Γ, .stmt s₀⟩ ∧ (Resolve.stmt a Γ.scopes s₀).value = s

def StmtsAt (ss₀ : List (Stmt Unit)) (ss : List RStmt) : Prop :=
  ∃ a, Place.Occurs P ⟨a, Γ, .stmts ss₀⟩ ∧ (Resolve.stmts a Γ.scopes ss₀).value = ss

end

section
variable {P : List (List (Stmt Unit))} {Γ : Frames}

theorem ExprAt.of_occurs {a : Surroundings} {e : Expr Unit} (h : Place.Occurs P ⟨a, Γ, .expr e⟩) :
    ExprAt P Γ e (Resolve.expr a Γ.scopes e).value := ⟨a, h, rfl⟩

theorem ExprAt.of_operand {a : Surroundings} {e o : Expr Unit}
    (h : Place.Occurs P ⟨a, Γ, .expr e⟩) (ho : o ∈ Place.operands e) :
    ExprAt P Γ o (Resolve.expr a Γ.scopes o).value := by
  refine .of_occurs (h.child ?_)
  cases e with
  | function line c => cases ho
  | _ => exact List.mem_map_of_mem ho

theorem forall₂_exprs {a : Surroundings} {es : List (Expr Unit)}
    (h : ∀ e ∈ es, ExprAt P Γ e (Resolve.expr a Γ.scopes e).value) :
    List.Forall₂ (ExprAt P Γ) es (Resolve.exprs a Γ.scopes es).value := by
  induction es with
  | nil => exact .nil
  | cons e rest ih =>
    exact .cons (h e List.mem_cons_self) (ih fun e' he' => h e' (List.mem_cons_of_mem e he'))

/-- What resolution makes of an expression, by the shape of the expression. -/
inductive ExprAt.View (P : List (List (Stmt Unit))) (Γ : Frames) : Expr Unit → RExpr → Prop
  | literal (v : Literal) : View P Γ (.literal v) (.literal v)
  | grouping {e₀ e} : ExprAt P Γ e₀ e → View P Γ (.grouping e₀) (.grouping e)
  | unary {e₀ e op line} : ExprAt P Γ e₀ e → View P Γ (.unary op line e₀) (.unary op line e)
  | binary {l₀ l r₀ r op line} : ExprAt P Γ l₀ l → ExprAt P Γ r₀ r →
      View P Γ (.binary l₀ op line r₀) (.binary l op line r)
  | logical {l₀ l r₀ r op line} : ExprAt P Γ l₀ l → ExprAt P Γ r₀ r →
      View P Γ (.logical l₀ op line r₀) (.logical l op line r)
  | var {x : Name} : x.IsFree → View P Γ (.var x ()) (.var x (Γ.scopes.distance? x.text))
  | assign {x : Name} {e₀ e} : x.IsFree → ExprAt P Γ e₀ e →
      View P Γ (.assign x () e₀) (.assign x (Γ.scopes.distance? x.text) e)
  | call {f₀ f es₀ es line} : ExprAt P Γ f₀ f → List.Forall₂ (ExprAt P Γ) es₀ es →
      View P Γ (.call f₀ line es₀) (.call f line es)
  | get {e₀ e x} : ExprAt P Γ e₀ e → View P Γ (.get e₀ x) (.get e x)
  | set {e₀ e v₀ v x} : ExprAt P Γ e₀ e → ExprAt P Γ v₀ v →
      View P Γ (.set e₀ x v₀) (.set e x v)
  | update {e₀ e v₀ v x op line} : ExprAt P Γ e₀ e → ExprAt P Γ v₀ v →
      View P Γ (.update e₀ x op line v₀) (.update e x op line v)
  | this {line d ms} : Γ.scopes.distance? "this" = some d → Γ[d]? = some (.receiver ms) →
      View P Γ (.this line ()) (.this line (some d))
  | super {line x d ms} : Γ.scopes.distance? "super" = some (d + 1) →
      Γ.scopes.distance? "this" = some d → Γ[d]? = some (.receiver ms) →
      Γ[d + 1]? = some (.superclass ms) →
      View P Γ (.super line () x) (.super line (some (d + 1)) x)
  | function {line c₀ c} : CodeAt P Γ c₀ c → View P Γ (.function line c₀) (.function line c)

theorem ExprAt.view {e₀ : Expr Unit} {e : RExpr} (h : ExprAt P Γ e₀ e) : View P Γ e₀ e := by
  obtain ⟨a, h, rfl⟩ := h
  have part {o : Expr Unit} := of_operand (o := o) h
  cases e₀ with
  | literal v => exact .literal v
  | grouping inner => exact .grouping (part (by simp [Place.operands]))
  | unary op line operand => exact .unary (part (by simp [Place.operands]))
  | binary left op line right =>
    exact .binary (part (by simp [Place.operands])) (part (by simp [Place.operands]))
  | logical left op line right =>
    exact .logical (part (by simp [Place.operands])) (part (by simp [Place.operands]))
  | var x ref => exact .var h.isSound.wellFormed
  | assign x ref value =>
    exact .assign h.isSound.wellFormed.1 (part (by simp [Place.operands]))
  | call callee line arguments =>
    refine .call (part (by simp [Place.operands])) (forall₂_exprs fun e' he' => ?_)
    exact part (by simp [Place.operands, he'])
  | get object x => exact .get (part (by simp [Place.operands]))
  | set object x value =>
    exact .set (part (by simp [Place.operands])) (part (by simp [Place.operands]))
  | update object x op line value =>
    exact .update (part (by simp [Place.operands])) (part (by simp [Place.operands]))
  | this line ref =>
    have hn := h.isSound.notes
    simp only [Place.notes, Resolve.expr, Noted.notes_bind, Noted.notes_pure, List.append_nil,
      Resolve.noteIf_eq_nil, beq_eq_false_iff_ne] at hn
    obtain ⟨d, ms, hd, hm⟩ := h.isSound.enclosed.this hn
    have hv : (Resolve.expr a Γ.scopes (.this line ref)).value = .this line (some d) := by
      simp [Resolve.expr, hn, hd]
    rw [hv]
    exact .this hd hm
  | super line ref method =>
    have hn := h.isSound.notes
    simp only [Place.notes, Resolve.expr, Noted.notes_bind, Noted.notes_pure, List.append_nil,
      List.append_eq_nil_iff, Resolve.noteIf_eq_nil, beq_eq_false_iff_ne] at hn
    have hc : a.classBody = .derived := by
      cases hc : a.classBody with
      | outside => exact absurd hc hn.1
      | base => exact absurd hc hn.2
      | derived => rfl
    obtain ⟨d, ms, hd, hd', hm, hm'⟩ := h.isSound.enclosed.super hc
    have hv : (Resolve.expr a Γ.scopes (.super line ref method)).value =
        .super line (some (d + 1)) method := by
      simp [Resolve.expr, hd]
    rw [hv]
    exact .super hd hd' hm hm'
  | function line body =>
    exact .function ⟨a, .function, h.child (by simp [Place.children]), rfl⟩

theorem declares?_resolve (a : Surroundings) (scopes : LocalScopes) (s : Stmt Unit) :
    (Resolve.stmt a scopes s).value.declares? = s.declares? := by
  cases s with
  | classDef x parent ms => cases parent <;> rfl
  | _ => rfl

theorem StmtAt.declares? {s₀ : Stmt Unit} {s : RStmt} (h : StmtAt P Γ s₀ s) :
    s.declares? = s₀.declares? := by
  obtain ⟨a, -, rfl⟩ := h
  exact declares?_resolve a Γ.scopes s₀

/-- A statement of a program that declares nothing. -/
def BodyAt (P : List (List (Stmt Unit))) (Γ : Frames) (s₀ : Stmt Unit) (s : RStmt) : Prop :=
  StmtAt P Γ s₀ s ∧ s.declares? = none

theorem BodyAt.of_occurs {a : Surroundings} {s : Stmt Unit} (h : Place.Occurs P ⟨a, Γ, .stmt s⟩)
    (hs : s.declares? = none) : BodyAt P Γ s (Resolve.stmt a Γ.scopes s).value :=
  ⟨⟨a, h, rfl⟩, (declares?_resolve a Γ.scopes s).trans hs⟩

theorem Resolve.nodup_of_declareParams {s : LocalScope} {outer : LocalScopes} {params : List Name}
    (h : (declareParams (s :: outer) params).notes = []) :
    (params.map (·.text)).Nodup ∧ ∀ p ∈ params, s.declares p.text = false := by
  induction params generalizing s with
  | nil => exact ⟨.nil, fun p hp => absurd hp List.not_mem_nil⟩
  | cons p rest ih =>
    simp only [declareParams, Noted.notes_bind, List.append_eq_nil_iff, noteIf_eq_nil] at h
    obtain ⟨hp, hrest⟩ := h
    obtain ⟨hnodup, hfresh⟩ := ih hrest
    have hne : ∀ q ∈ rest, p.text ≠ q.text ∧ s.declares q.text = false := by
      intro q hq
      have := hfresh q hq
      simpa [LocalScope.declares] using this
    refine ⟨List.nodup_cons.2 ⟨fun hm => ?_, hnodup⟩, List.forall_mem_cons.2 ⟨hp, fun q hq => ?_⟩⟩
    · obtain ⟨q, hq, he⟩ := List.mem_map.1 hm
      exact (hne q hq).1 he.symm
    · exact (hne q hq).2

theorem CodeAt.body {c₀ : Code Unit} {c : Code (Option Nat)} (h : CodeAt P Γ c₀ c) :
    ∃ ss₀, c₀ = .mk c.params ss₀ ∧
      StmtsAt P (⟨.function c, Frames.parameterNames c.params⟩ :: Γ) ss₀ c.body ∧
      (∀ p ∈ c.params, p.IsFree) ∧ (c.params.map (·.text)).Nodup := by
  obtain ⟨a, body, h, hc⟩ := h
  obtain ⟨params, ss₀⟩ := c₀
  have hn := h.isSound.notes
  simp only [Place.notes, Resolve.code, Noted.notes_bind, Noted.notes_pure, List.append_nil,
    List.append_eq_nil_iff] at hn
  have hv := hc
  simp only [Resolve.code, Noted.value_bind, Noted.value_pure,
    Resolve.value_declareParams_nil] at hv
  have hparams : c.params = params := by rw [← hv]; rfl
  rw [hparams]
  refine ⟨ss₀, rfl, ⟨{ a with body }, ?_, by rw [← hv]; rfl⟩, h.isSound.wellFormed.1,
    (Resolve.nodup_of_declareParams hn.1).1⟩
  rw [← hc]
  exact h.child (by simp [Place.children])

theorem MethodsAt.forall₂ {ms₀ : List (Method Unit)} {ms : List (Method (Option Nat))}
    (h : MethodsAt P Γ ms₀ ms) :
    List.Forall₂ (fun f₀ f => f₀.name = f.name ∧ CodeAt P Γ f₀.code f.code) ms₀ ms := by
  obtain ⟨a, h, rfl⟩ := h
  have hm : ∀ f ∈ ms₀, Place.Occurs P
      ⟨a, Γ, .code (if f.name.text = "init" then .initializer else .method) f.code⟩ :=
    fun f hf => h.child (List.mem_map_of_mem hf)
  clear h
  induction ms₀ with
  | nil => exact .nil
  | cons f rest ih =>
    obtain ⟨x, c⟩ := f
    exact .cons ⟨rfl, a, _, hm _ List.mem_cons_self, rfl⟩
      (ih fun f hf => hm f (List.mem_cons_of_mem _ hf))

theorem MethodsAt.exists_of_mem {ms₀ : List (Method Unit)} {ms : List (Method (Option Nat))}
    (h : MethodsAt P Γ ms₀ ms) {f : Method (Option Nat)} (hf : f ∈ ms) :
    ∃ f₀ : Method Unit, f₀.name = f.name ∧ CodeAt P Γ f₀.code f.code := by
  have hall := h.forall₂
  clear h
  induction hall with
  | nil => cases hf
  | cons hg _ ih =>
    rcases List.mem_cons.1 hf with rfl | hf
    · exact ⟨_, hg⟩
    · exact ih hf

/-- What resolution makes of a statement, by the shape of the statement. -/
inductive StmtAt.View (P : List (List (Stmt Unit))) (Γ : Frames) : Stmt Unit → RStmt → Prop
  | expression {e₀ e} : ExprAt P Γ e₀ e → View P Γ (.expression e₀) (.expression e)
  | print {e₀ e} : ExprAt P Γ e₀ e → View P Γ (.print e₀) (.print e)
  | empty {x : Name} : x.IsFree → Γ.scopes.isRedeclared x.text = false →
      View P Γ (.var x none) (.var x none)
  | var {x : Name} {e₀ e} : x.IsFree → Γ.scopes.isRedeclared x.text = false →
      ExprAt P (Γ.declare x.text false) e₀ e → View P Γ (.var x (some e₀)) (.var x (some e))
  | block {ss₀ ss} : StmtsAt P (⟨.block ss, []⟩ :: Γ) ss₀ ss → View P Γ (.block ss₀) (.block ss)
  | branch {e₀ e yes₀ yes no₀ no} : ExprAt P Γ e₀ e → BodyAt P Γ yes₀ yes →
      Option.Rel (BodyAt P Γ) no₀ no → View P Γ (.branch e₀ yes₀ no₀) (.branch e yes no)
  | loop {e₀ e s₀ s} : ExprAt P Γ e₀ e → BodyAt P Γ s₀ s → View P Γ (.loop e₀ s₀) (.loop e s)
  | function {x : Name} {c₀ c} : x.IsFree → Γ.scopes.isRedeclared x.text = false →
      CodeAt P (Γ.declare x.text true) c₀ c → View P Γ (.function x c₀) (.function x c)
  | ret {line e₀ e} : Option.Rel (ExprAt P Γ) e₀ e → View P Γ (.ret line e₀) (.ret line e)
  | base {x : Name} {ms₀ ms} : x.IsFree → Γ.scopes.isRedeclared x.text = false →
      MethodsAt P (.receiver ms :: Γ.declare x.text true) ms₀ ms →
      View P Γ (.classDef x none ms₀) (.classDef x none ms)
  | derived {x y : Name} {ref ms₀ ms} : x.IsFree → Γ.scopes.isRedeclared x.text = false →
      x.text ≠ y.text → ExprAt P Γ (.var y ()) (.var y ref) →
      MethodsAt P (.receiver ms :: .superclass ms :: Γ.declare x.text true) ms₀ ms →
      View P Γ (.classDef x (some (y, ())) ms₀) (.classDef x (some (y, ref)) ms)

theorem StmtAt.view {s₀ : Stmt Unit} {s : RStmt} (h : StmtAt P Γ s₀ s) : View P Γ s₀ s := by
  obtain ⟨a, h, rfl⟩ := h
  have hn := h.isSound.notes
  have hw := h.isSound.wellFormed
  cases s₀ with
  | expression e => exact .expression (.of_occurs (h.child (by simp [Place.children])))
  | print e => exact .print (.of_occurs (h.child (by simp [Place.children])))
  | var x initial =>
    simp only [Place.notes, Resolve.stmt, Noted.notes_bind, List.append_eq_nil_iff,
      Resolve.noteIf_eq_nil] at hn
    cases initial with
    | none => exact .empty hw.1 hn.1
    | some e =>
      refine .var hw.1 hn.1 ⟨a, h.child (by simp [Place.children]), ?_⟩
      rw [Frames.scopes_declare]
  | block body => exact .block ⟨a, h.child (by simp [Place.children]), rfl⟩
  | branch condition yes no =>
    refine .branch (.of_occurs (h.child (by simp [Place.children])))
      (.of_occurs (h.child (by simp [Place.children])) hw.2.1.1) ?_
    cases no with
    | none => exact .none
    | some s => exact .some (.of_occurs (h.child (by simp [Place.children])) hw.2.2.1)
  | loop condition body =>
    exact .loop (.of_occurs (h.child (by simp [Place.children])))
      (.of_occurs (h.child (by simp [Place.children])) hw.2.1)
  | function x body =>
    simp only [Place.notes, Resolve.stmt, Noted.notes_bind, List.append_eq_nil_iff,
      Resolve.noteIf_eq_nil] at hn
    refine .function hw.1 hn.1 ⟨a, .function, h.child (by simp [Place.children]), ?_⟩
    rw [Frames.scopes_declare]
  | ret line value =>
    refine .ret ?_
    cases value with
    | none => exact .none
    | some e => exact .some (.of_occurs (h.child (by simp [Place.children])))
  | classDef x parent ms =>
    cases parent with
    | none =>
      simp only [Place.notes, Resolve.stmt, Noted.notes_bind, List.append_eq_nil_iff,
        Resolve.noteIf_eq_nil] at hn
      refine .base hw.1 hn.1 ⟨{ a with classBody := .base }, ?_, ?_⟩
      · refine h.child ?_
        simp [Place.children, Place.ofMethods, Frame.receiver]
      · simp [Frame.receiver]
    | some y =>
      obtain ⟨y, ⟨⟩⟩ := y
      simp only [Place.notes, Resolve.stmt, Noted.notes_bind, List.append_eq_nil_iff,
        Resolve.noteIf_eq_nil, beq_eq_false_iff_ne] at hn
      have hne : x.text ≠ y.text := Ne.symm hn.2.1
      refine .derived hw.1 hn.1 hne ⟨a, h.child (by simp [Place.children]), ?_⟩
        ⟨{ a with classBody := .derived }, ?_, ?_⟩
      · rw [Resolve.reference_declare_of_ne hne]
        rfl
      · refine h.child ?_
        simp [Place.children, Place.ofMethods, Frame.receiver, Frame.superclass]
      · simp [Frame.receiver, Frame.superclass]

/-- A declaration is the first one of its name in its scope. -/
theorem StmtAt.isRedeclared {s₀ : Stmt Unit} {s : RStmt} (h : StmtAt P Γ s₀ s) {x : Name}
    (hx : s.declares? = some x) : Γ.scopes.isRedeclared x.text = false := by
  cases h.view with
  | empty _ hn | var _ hn _ | function _ hn _ | base _ hn _ | derived _ hn _ _ _ =>
    cases hx
    exact hn
  | _ => cases hx

theorem StmtsAt.nil {ss₀ : List (Stmt Unit)} (h : StmtsAt P Γ ss₀ []) : ss₀ = [] := by
  obtain ⟨a, -, hs⟩ := h
  cases ss₀ with
  | nil => rfl
  | cons s rest => cases hs

theorem StmtsAt.cons {ss₀ : List (Stmt Unit)} {s : RStmt} {rest : List RStmt}
    (h : StmtsAt P Γ ss₀ (s :: rest)) : ∃ s₀ rest₀, ss₀ = s₀ :: rest₀ ∧ StmtAt P Γ s₀ s ∧
      StmtsAt P (Γ.after s) rest₀ rest := by
  obtain ⟨a, h, hs⟩ := h
  cases ss₀ with
  | nil => cases hs
  | cons s₀ rest₀ =>
    cases hs
    refine ⟨s₀, rest₀, rfl, ⟨a, h.child (by simp [Place.children]), rfl⟩,
      ⟨a, h.child ?_, ?_⟩⟩
    · simp [Place.children, Frames.after, declares?_resolve]
    · simp [Frames.scopes_after, LocalScopes.after, declares?_resolve]

end
end LoxScript
