import Mathlib.Data.List.Forall2
import LoxScript.Binding.Resolve
import LoxScript.Machine.State
import LoxScript.Proofs.Surface.Tree

/-!
Resolved trees with and without abbreviations.

Of what reading makes of a program and of the program written out in full, resolution makes trees
that differ in two places only.  The right operand of an operator may have got parentheses, and
where a property was updated on a variable or on `this`, it may be read and then set.
-/

namespace LoxScript
namespace Expansion
open Surface.Elaboration (core full isRepeatable readAssign readSet fullAssign fullSet
  fullLoop_eq)

mutual

/-- The same expression, the second with some of its compound assignments written out. -/
inductive SameExpr : RExpr → RExpr → Prop
  | literal (l : Literal) : SameExpr (.literal l) (.literal l)
  | grouping {e f : RExpr} : SameExpr e f → SameExpr (.grouping e) (.grouping f)
  | unary (op : UnaryOp) (line : Nat) {e f : RExpr} : SameExpr e f →
      SameExpr (.unary op line e) (.unary op line f)
  | binary (op : BinaryOp) (line : Nat) {e e' f f' : RExpr} : SameExpr e f → SameExpr e' f' →
      SameExpr (.binary e op line e') (.binary f op line f')
  /-- The right operand is put in parentheses. -/
  | parentheses (op : BinaryOp) (line : Nat) {e e' f f' : RExpr} : SameExpr e f → SameExpr e' f' →
      SameExpr (.binary e op line e') (.binary f op line (.grouping f'))
  | logical (op : LogicalOp) (line : Nat) {e e' f f' : RExpr} : SameExpr e f → SameExpr e' f' →
      SameExpr (.logical e op line e') (.logical f op line f')
  | var (x : Name) (ref : Option Nat) : SameExpr (.var x ref) (.var x ref)
  | assign (x : Name) (ref : Option Nat) {e f : RExpr} : SameExpr e f →
      SameExpr (.assign x ref e) (.assign x ref f)
  | call (line : Nat) {e f : RExpr} {es fs : List RExpr} : SameExpr e f →
      List.Forall₂ SameExpr es fs → SameExpr (.call e line es) (.call f line fs)
  | get (x : Name) {e f : RExpr} : SameExpr e f → SameExpr (.get e x) (.get f x)
  | set (x : Name) {e e' f f' : RExpr} : SameExpr e f → SameExpr e' f' →
      SameExpr (.set e x e') (.set f x f')
  | update (x : Name) (op : ArithOp) (line : Nat) {e e' f f' : RExpr} : SameExpr e f →
      SameExpr e' f' → SameExpr (.update e x op line e') (.update f x op line f')
  /-- The receiver is evaluated twice. -/
  | repeated {o : RExpr} (x : Name) (op : ArithOp) (line : Nat) {e f : RExpr} :
      isRepeatable o = true → SameExpr e f →
      SameExpr (.update o x op line e)
        (.set o x (.binary (.get o x) (.arith op) line (.grouping f)))
  | this (line : Nat) (ref : Option Nat) : SameExpr (.this line ref) (.this line ref)
  | super (line : Nat) (ref : Option Nat) (x : Name) :
      SameExpr (.super line ref x) (.super line ref x)
  | function (line : Nat) {c d : Code (Option Nat)} : SameCode c d →
      SameExpr (.function line c) (.function line d)

inductive SameCode : Code (Option Nat) → Code (Option Nat) → Prop
  | mk (params : List Name) {ss ts : List RStmt} : List.Forall₂ SameStmt ss ts →
      SameCode (.mk params ss) (.mk params ts)

inductive SameMethod : Method (Option Nat) → Method (Option Nat) → Prop
  | mk (x : Name) {c d : Code (Option Nat)} : SameCode c d → SameMethod (.mk x c) (.mk x d)

inductive SameStmt : RStmt → RStmt → Prop
  | expression {e f : RExpr} : SameExpr e f → SameStmt (.expression e) (.expression f)
  | print {e f : RExpr} : SameExpr e f → SameStmt (.print e) (.print f)
  | var (x : Name) {e f : Option RExpr} : Option.Rel SameExpr e f → SameStmt (.var x e) (.var x f)
  | block {ss ts : List RStmt} : List.Forall₂ SameStmt ss ts → SameStmt (.block ss) (.block ts)
  | branch {e f : RExpr} {s t : RStmt} {no no' : Option RStmt} : SameExpr e f → SameStmt s t →
      Option.Rel SameStmt no no' → SameStmt (.branch e s no) (.branch f t no')
  | loop {e f : RExpr} {s t : RStmt} : SameExpr e f → SameStmt s t →
      SameStmt (.loop e s) (.loop f t)
  | function (x : Name) {c d : Code (Option Nat)} : SameCode c d →
      SameStmt (.function x c) (.function x d)
  | ret (line : Nat) {e f : Option RExpr} : Option.Rel SameExpr e f →
      SameStmt (.ret line e) (.ret line f)
  | classDef (x : Name) (parent : Option (Name × Option Nat)) {ms ns : List (Method (Option Nat))} :
      List.Forall₂ SameMethod ms ns → SameStmt (.classDef x parent ms) (.classDef x parent ns)

end

/-! ### Resolving both -/

/-- The values are related, and there are no complaints about the second without complaints about
the first. -/
structure Related {α β : Type} (R : α → β → Prop) (x : Noted α) (y : Noted β) : Prop where
  value : R x.value y.value
  notes : x.notes = [] → y.notes = []

namespace Related
variable {α β γ δ : Type} {R : α → β → Prop} {S : γ → δ → Prop}

theorem pure {a : α} {b : β} (h : R a b) : Related R (Pure.pure a) (Pure.pure b) := ⟨h, id⟩

theorem refl (x : Noted α) : Related Eq x x := ⟨rfl, id⟩

theorem bind {x : Noted α} {y : Noted β} {f : α → Noted γ} {g : β → Noted δ} (h : Related R x y)
    (hfg : ∀ a b, R a b → Related S (f a) (g b)) : Related S (x >>= f) (y >>= g) := by
  have hrest := hfg _ _ h.value
  refine ⟨hrest.value, fun hnotes => ?_⟩
  rw [Noted.notes_bind, List.append_eq_nil_iff] at hnotes ⊢
  exact ⟨h.notes hnotes.1, hrest.notes hnotes.2⟩

/-- What comes first is the same. -/
theorem after (x : Noted α) {f : α → Noted γ} {g : α → Noted δ}
    (hfg : ∀ a, Related S (f a) (g a)) : Related S (x >>= f) (x >>= g) := by
  refine (refl x).bind fun a b hab => ?_
  rw [← hab]
  exact hfg a

end Related

/-- Wherever the two stand, resolution makes the same expression of them. -/
def AlikeExpr (e f : Expr Unit) : Prop :=
  ∀ around scopes, Related SameExpr (Resolve.expr around scopes e) (Resolve.expr around scopes f)

def AlikeCode (c d : Code Unit) : Prop :=
  ∀ around body scopes,
    Related SameCode (Resolve.code around body scopes c) (Resolve.code around body scopes d)

def AlikeMethod (f g : Method Unit) : Prop := f.name = g.name ∧ AlikeCode f.code g.code

/-- The names behind the two are the same too. -/
def AlikeStmt (s t : Stmt Unit) : Prop :=
  s.declares? = t.declares? ∧
    ∀ around scopes, Related SameStmt (Resolve.stmt around scopes s) (Resolve.stmt around scopes t)

/-! ### Expressions -/

namespace AlikeExpr
variable {e e' f f' o p : Expr Unit}

theorem literal (l : Literal) : AlikeExpr (.literal l) (.literal l) := by
  intro around scopes
  exact .pure (.literal l)

theorem grouping (h : AlikeExpr e f) : AlikeExpr (.grouping e) (.grouping f) := by
  intro around scopes
  exact (h around scopes).bind fun _ _ hv => .pure (.grouping hv)

theorem unary (op : UnaryOp) (line : Nat) (h : AlikeExpr e f) :
    AlikeExpr (.unary op line e) (.unary op line f) := by
  intro around scopes
  exact (h around scopes).bind fun _ _ hv => .pure (.unary op line hv)

theorem binary (op : BinaryOp) (line : Nat) (h : AlikeExpr e f) (h' : AlikeExpr e' f') :
    AlikeExpr (.binary e op line e') (.binary f op line f') := by
  intro around scopes
  exact (h around scopes).bind fun _ _ hl => (h' around scopes).bind fun _ _ hr =>
    .pure (.binary op line hl hr)

theorem parentheses (op : BinaryOp) (line : Nat) (h : AlikeExpr e f) (h' : AlikeExpr e' f') :
    AlikeExpr (.binary e op line e') (.binary f op line (.grouping f')) := by
  intro around scopes
  have hl := h around scopes
  have hr := h' around scopes
  simp only [Resolve.expr]
  refine ⟨.parentheses op line hl.value hr.value, fun hn => ?_⟩
  simp only [Noted.notes_bind, Noted.notes_pure, List.append_nil, List.append_eq_nil_iff] at hn ⊢
  exact ⟨hl.notes hn.1, hr.notes hn.2⟩

theorem logical (op : LogicalOp) (line : Nat) (h : AlikeExpr e f) (h' : AlikeExpr e' f') :
    AlikeExpr (.logical e op line e') (.logical f op line f') := by
  intro around scopes
  exact (h around scopes).bind fun _ _ hl => (h' around scopes).bind fun _ _ hr =>
    .pure (.logical op line hl hr)

theorem node (op : Infix) (line : Nat) (h : AlikeExpr e f) (h' : AlikeExpr e' f') :
    AlikeExpr (op.node e line e') (op.node f line f') := by
  cases op with
  | binary op => exact h.binary op line h'
  | logical op => exact h.logical op line h'

theorem var (x : Name) : AlikeExpr (.var x ()) (.var x ()) := by
  intro around scopes
  exact .after _ fun ref => .pure (.var x ref)

theorem assign (x : Name) (h : AlikeExpr e f) : AlikeExpr (.assign x () e) (.assign x () f) := by
  intro around scopes
  exact (h around scopes).bind fun _ _ hv => .pure (.assign x _ hv)

/-- `x op= e` and `x = x op (e)`. -/
theorem fullAssign (x : Name) (sign : Surface.Sign) (h : AlikeExpr e f) :
    AlikeExpr (readAssign x sign e) (fullAssign x sign f) := by
  cases sign with
  | plain => exact h.assign x
  | compound op line => exact ((var x).parentheses (.arith op) line h).assign x

theorem call (line : Nat) {es fs : List (Expr Unit)} (h : AlikeExpr e f)
    (hs : List.Forall₂ AlikeExpr es fs) : AlikeExpr (.call e line es) (.call f line fs) := by
  intro around scopes
  have hes : Related (List.Forall₂ SameExpr) (Resolve.exprs around scopes es)
      (Resolve.exprs around scopes fs) := by
    induction hs with
    | nil => exact .pure .nil
    | cons h _ ih =>
      exact (h around scopes).bind fun _ _ hv => ih.bind fun _ _ hvs => .pure (.cons hv hvs)
  exact (h around scopes).bind fun _ _ hv => hes.bind fun _ _ hvs => .pure (.call line hv hvs)

theorem get (x : Name) (h : AlikeExpr o p) : AlikeExpr (.get o x) (.get p x) := by
  intro around scopes
  exact (h around scopes).bind fun _ _ ho => .pure (.get x ho)

theorem set (x : Name) (ho : AlikeExpr o p) (h : AlikeExpr e f) :
    AlikeExpr (.set o x e) (.set p x f) := by
  intro around scopes
  exact (h around scopes).bind fun _ _ hv => (ho around scopes).bind fun _ _ ho =>
    .pure (.set x ho hv)

theorem update (x : Name) (op : ArithOp) (line : Nat) (ho : AlikeExpr o p) (h : AlikeExpr e f) :
    AlikeExpr (.update o x op line e) (.update p x op line f) := by
  intro around scopes
  exact (h around scopes).bind fun _ _ hv => (ho around scopes).bind fun _ _ ho =>
    .pure (.update x op line ho hv)

theorem isRepeatable_resolved (around : Surroundings) (scopes : LocalScopes)
    (h : isRepeatable o = true) : isRepeatable (Resolve.expr around scopes o).value = true := by
  cases o with
  | var | this => rfl
  | _ => cases h

/-- The receiver is resolved twice, and to the same tree each time. -/
theorem repeated (x : Name) (op : ArithOp) (line : Nat) (hr : isRepeatable o = true)
    (h : AlikeExpr e f) :
    AlikeExpr (.update o x op line e)
      (.set o x (.binary (.get o x) (.arith op) line (.grouping f))) := by
  intro around scopes
  have hv := h around scopes
  simp only [Resolve.expr]
  refine ⟨.repeated x op line (isRepeatable_resolved around scopes hr) hv.value, fun hn => ?_⟩
  simp only [Noted.notes_bind, Noted.notes_pure, List.append_nil, List.append_eq_nil_iff] at hn ⊢
  exact ⟨⟨hn.2, hv.notes hn.1⟩, hn.2⟩

/-- Only a variable and `this` are written out as receivers that may be evaluated twice. -/
theorem core_eq_full {o : Surface.Expr} (h : isRepeatable (full.expr o) = true) :
    core.expr o = full.expr o := by
  cases o with
  | var | this => rfl
  | infixed left op line right => cases op <;> cases h
  | assign x sign value => cases sign <;> cases h
  | set object x sign value =>
    exfalso
    cases sign with
    | plain => cases h
    | compound op line =>
      change isRepeatable (fullSet _ x (.compound op line) _) = true at h
      rw [fullSet] at h
      split at h <;> cases h
  | _ => cases h

/-- `r.x op= e` and, if `r` may be evaluated twice, `r.x = r.x op (e)`. -/
theorem fullSet {o : Surface.Expr} (x : Name) (sign : Surface.Sign)
    (ho : AlikeExpr (core.expr o) (full.expr o)) (h : AlikeExpr e f) :
    AlikeExpr (readSet (core.expr o) x sign e) (fullSet (full.expr o) x sign f) := by
  cases sign with
  | plain => exact ho.set x h
  | compound op line =>
    show AlikeExpr (.update (core.expr o) x op line e) (if isRepeatable (full.expr o) then
      .set (full.expr o) x (.binary (.get (full.expr o) x) (.arith op) line (.grouping f))
      else .update (full.expr o) x op line f)
    by_cases hr : isRepeatable (full.expr o) = true
    · rw [if_pos hr, core_eq_full hr]
      exact repeated x op line hr h
    · rw [if_neg hr]
      exact ho.update x op line h

theorem this (line : Nat) : AlikeExpr (.this line ()) (.this line ()) := by
  intro around scopes
  exact .after _ fun _ => .pure (.this line _)

theorem super (line : Nat) (x : Name) : AlikeExpr (.super line () x) (.super line () x) := by
  intro around scopes
  exact .after _ fun _ => .after _ fun _ => .pure (.super line _ x)

theorem function (line : Nat) {c d : Code Unit} (h : AlikeCode c d) :
    AlikeExpr (.function line c) (.function line d) := by
  intro around scopes
  exact (h around .function scopes).bind fun _ _ hc => .pure (.function line hc)

end AlikeExpr

theorem related_optionalExpr {e f : Option (Expr Unit)} (h : Option.Rel AlikeExpr e f)
    (around : Surroundings) (scopes : LocalScopes) :
    Related (Option.Rel SameExpr) (Resolve.optionalExpr around scopes e)
      (Resolve.optionalExpr around scopes f) := by
  cases h with
  | none => exact .pure .none
  | some h =>
    exact (h around scopes).bind fun _ _ hv => .pure (.some hv)

/-! ### Statements -/

theorem related_stmts {ss ts : List (Stmt Unit)} (h : List.Forall₂ AlikeStmt ss ts)
    (around : Surroundings) (scopes : LocalScopes) :
    Related (List.Forall₂ SameStmt) (Resolve.stmts around scopes ss)
      (Resolve.stmts around scopes ts) := by
  induction h generalizing scopes with
  | nil => exact .pure .nil
  | @cons s t _ _ h _ ih =>
    obtain ⟨hdeclares, h⟩ := h
    have hafter : scopes.after s = scopes.after t := by
      rw [LocalScopes.after, LocalScopes.after, hdeclares]
    have hrest := ih (scopes.after s)
    nth_rewrite 2 [hafter] at hrest
    exact (h around scopes).bind fun _ _ hs => hrest.bind fun _ _ hss => .pure (.cons hs hss)

theorem alike_mk (params : List Name) {ss ts : List (Stmt Unit)}
    (h : List.Forall₂ AlikeStmt ss ts) : AlikeCode (.mk params ss) (.mk params ts) := by
  intro around body scopes
  exact .after _ fun inner => (related_stmts h _ inner).bind fun _ _ hss => .pure (.mk params hss)

theorem related_methods {ms ns : List (Method Unit)} (h : List.Forall₂ AlikeMethod ms ns)
    (around : Surroundings) (scopes : LocalScopes) :
    Related (List.Forall₂ SameMethod) (Resolve.methods around scopes ms)
      (Resolve.methods around scopes ns) := by
  induction h with
  | nil => exact .pure .nil
  | @cons f g _ _ h _ ih =>
    obtain ⟨x, c⟩ := f
    obtain ⟨y, d⟩ := g
    obtain ⟨rfl, hcode⟩ := h
    exact (hcode around _ scopes).bind fun _ _ hc => ih.bind fun _ _ hms =>
      .pure (.cons (.mk x hc) hms)

namespace AlikeStmt
variable {e f : Expr Unit} {s t : Stmt Unit}

theorem expression (h : AlikeExpr e f) : AlikeStmt (.expression e) (.expression f) := by
  refine ⟨rfl, fun around scopes => ?_⟩
  exact (h around scopes).bind fun _ _ hv => .pure (.expression hv)

theorem print (h : AlikeExpr e f) : AlikeStmt (.print e) (.print f) := by
  refine ⟨rfl, fun around scopes => ?_⟩
  exact (h around scopes).bind fun _ _ hv => .pure (.print hv)

theorem var (x : Name) {e f : Option (Expr Unit)} (h : Option.Rel AlikeExpr e f) :
    AlikeStmt (.var x e) (.var x f) := by
  refine ⟨rfl, fun around scopes => ?_⟩
  exact .after _ fun _ => (related_optionalExpr h around _).bind fun _ _ hv => .pure (.var x hv)

theorem block {ss ts : List (Stmt Unit)} (h : List.Forall₂ AlikeStmt ss ts) :
    AlikeStmt (.block ss) (.block ts) := by
  refine ⟨rfl, fun around scopes => ?_⟩
  exact (related_stmts h around _).bind fun _ _ hss => .pure (.block hss)

theorem branch {no no' : Option (Stmt Unit)} (h : AlikeExpr e f) (hs : AlikeStmt s t)
    (hno : Option.Rel AlikeStmt no no') : AlikeStmt (.branch e s no) (.branch f t no') := by
  refine ⟨rfl, fun around scopes => ?_⟩
  have hotherwise : Related (Option.Rel SameStmt) (Resolve.optionalStmt around scopes no)
      (Resolve.optionalStmt around scopes no') := by
    cases hno with
    | none => exact .pure .none
    | some h =>
      exact (h.2 around scopes).bind fun _ _ hs => .pure (.some hs)
  exact (h around scopes).bind fun _ _ hv => (hs.2 around scopes).bind fun _ _ hs =>
    hotherwise.bind fun _ _ hno => .pure (.branch hv hs hno)

theorem loop (h : AlikeExpr e f) (hs : AlikeStmt s t) : AlikeStmt (.loop e s) (.loop f t) := by
  refine ⟨rfl, fun around scopes => ?_⟩
  exact (h around scopes).bind fun _ _ hv => (hs.2 around scopes).bind fun _ _ hs =>
    .pure (.loop hv hs)

theorem function (x : Name) {c d : Code Unit} (h : AlikeCode c d) :
    AlikeStmt (.function x c) (.function x d) := by
  refine ⟨rfl, fun around scopes => ?_⟩
  exact .after _ fun _ => (h around .function _).bind fun _ _ hc => .pure (.function x hc)

theorem ret (line : Nat) {e f : Option (Expr Unit)} (h : Option.Rel AlikeExpr e f) :
    AlikeStmt (.ret line e) (.ret line f) := by
  refine ⟨rfl, fun around scopes => ?_⟩
  have hv := related_optionalExpr h around scopes
  cases h with
  | none => exact .after _ fun _ => .after _ fun _ => hv.bind fun _ _ hv => .pure (.ret line hv)
  | some => exact .after _ fun _ => .after _ fun _ => hv.bind fun _ _ hv => .pure (.ret line hv)

theorem classDef (x : Name) (parent : Option (Name × Unit)) {ms ns : List (Method Unit)}
    (h : List.Forall₂ AlikeMethod ms ns) :
    AlikeStmt (.classDef x parent ms) (.classDef x parent ns) := by
  refine ⟨rfl, fun around scopes => ?_⟩
  cases parent with
  | none =>
    exact .after _ fun _ => (related_methods h _ _).bind fun _ _ hms => .pure (.classDef x none hms)
  | some parent =>
    exact .after _ fun _ => .after _ fun _ => .after _ fun ref => (related_methods h _ _).bind
      fun _ _ hms => .pure (.classDef x (some (parent.1, ref)) hms)

/-- A `for` is read as the loop that it is written out as. -/
theorem forLoop {initial initial' : Option (Stmt Unit)}
    {condition condition' step step' : Option (Expr Unit)}
    (hi : Option.Rel AlikeStmt initial initial') (hc : Option.Rel AlikeExpr condition condition')
    (hs : Option.Rel AlikeExpr step step') (hb : AlikeStmt s t) :
    AlikeStmt (.forLoop initial condition step s) (.forLoop initial' condition' step' t) := by
  have hcond : AlikeExpr (condition.getD (.literal (.bool true)))
      (condition'.getD (.literal (.bool true))) := by
    cases hc with
    | none => exact .literal _
    | some h => exact h
  have hloop : AlikeStmt (.forLoop none condition step s) (.forLoop none condition' step' t) := by
    cases hs with
    | none => exact .loop hcond hb
    | some h => exact .loop hcond (.block (.cons hb (.cons (.expression h) .nil)))
  cases hi with
  | none => exact hloop
  | some h => exact .block (.cons h (.cons hloop .nil))

end AlikeStmt

/-! ### Whole programs -/

mutual

theorem alike_expr : (e : Surface.Expr) → AlikeExpr (core.expr e) (full.expr e)
  | .literal l => .literal l
  | .grouping inner => (alike_expr inner).grouping
  | .unary op line operand => (alike_expr operand).unary op line
  | .infixed left op line right => (alike_expr left).node op line (alike_expr right)
  | .var x => .var x
  | .assign x sign value => (alike_expr value).fullAssign x sign
  | .call callee line arguments => (alike_expr callee).call line (alike_exprs arguments)
  | .get object x => (alike_expr object).get x
  | .set object x sign value => (alike_expr object).fullSet x sign (alike_expr value)
  | .this line => .this line
  | .super line x => .super line x
  | .function line body => .function line (alike_code body)

theorem alike_exprs : (es : List Surface.Expr) →
    List.Forall₂ AlikeExpr (core.exprs es) (full.exprs es)
  | [] => .nil
  | e :: es => .cons (alike_expr e) (alike_exprs es)

theorem alike_optionalExpr : (o : Option Surface.Expr) →
    Option.Rel AlikeExpr (core.optionalExpr o) (full.optionalExpr o)
  | none => .none
  | some e => .some (alike_expr e)

theorem alike_code : (c : Surface.Code) → AlikeCode (core.code c) (full.code c)
  | .mk params body => alike_mk params (alike_stmts body)

theorem alike_methods : (ms : List Surface.Method) →
    List.Forall₂ AlikeMethod (core.methods ms) (full.methods ms)
  | [] => .nil
  | .mk _ body :: ms => .cons ⟨rfl, alike_code body⟩ (alike_methods ms)

theorem alike_stmt : (s : Surface.Stmt) → AlikeStmt (core.stmt s) (full.stmt s)
  | .expression e => .expression (alike_expr e)
  | .print e => .print (alike_expr e)
  | .var x initial => .var x (alike_optionalExpr initial)
  | .block body => .block (alike_stmts body)
  | .branch condition yes no =>
    .branch (alike_expr condition) (alike_stmt yes) (alike_optionalStmt no)
  | .loop condition body => .loop (alike_expr condition) (alike_stmt body)
  | .function x body => .function x (alike_code body)
  | .ret line value => .ret line (alike_optionalExpr value)
  | .classDef x parent declared => .classDef x parent (alike_methods declared)
  | .forLoop initial condition step body => by
    have hloop := AlikeStmt.forLoop (alike_optionalStmt initial) (alike_optionalExpr condition)
      (alike_optionalExpr step) (alike_stmt body)
    rwa [← fullLoop_eq (full.optionalStmt initial)] at hloop

theorem alike_optionalStmt : (o : Option Surface.Stmt) →
    Option.Rel AlikeStmt (core.optionalStmt o) (full.optionalStmt o)
  | none => .none
  | some s => .some (alike_stmt s)

theorem alike_stmts : (ss : List Surface.Stmt) →
    List.Forall₂ AlikeStmt (core.stmts ss) (full.stmts ss)
  | [] => .nil
  | s :: ss => .cons (alike_stmt s) (alike_stmts ss)

end

end Expansion
end LoxScript
