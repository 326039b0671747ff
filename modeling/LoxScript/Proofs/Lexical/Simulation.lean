import Mathlib
import LoxScript.Proofs.Lexical.Continuations
import LoxScript.Proofs.Lexical.Stores
import LoxScript.Session

/-!
Resolved programs run like the evaluator by name.

Both take the same steps: two states that are the same lead to two that are, or both runs end in the
same way.
-/

namespace LoxScript
namespace Lexical

section
variable (P : List (List (Stmt Unit))) (owners : Owners)

/-- What is looked at is the same; the scopes of the blocks being run are before `n`. -/
inductive SameFocus (n : Nat) : LoxScript.Focus → Focus → Prop
  | evaluate {e e₀ env σ k k₀} : SameExpr P owners env σ e e₀ → SameValueCont P owners n k k₀ →
      SameFocus n (.evaluate e env k) (.evaluate e₀ σ k₀)
  /-- The superclass of a class, whose own name is declared already. -/
  | name {Γ x env σ k k₀} : Corresponds owners Γ env σ → SameValueCont P owners n k k₀ →
      SameFocus n (.evaluate (.var x (Γ.scopes.distance? x.text)) env k)
        (.evaluate (.var x ()) σ k₀)
  | deliver {v w k k₀} : SameValue P owners v w → SameValueCont P owners n k k₀ →
      SameFocus n (.deliver v k) (.deliver w k₀)
  | execute {Γ s s₀ env σ k k₀} : StmtAt P Γ s₀ s → Corresponds owners (Γ.after s) env σ →
      SameStmtCont P owners n k k₀ → SameFocus n (.execute s env k) (.execute s₀ σ k₀)
  | complete {c c₀ k k₀} : SameCompletion P owners c c₀ → SameStmtCont P owners n k k₀ →
      SameFocus n (.complete c k) (.complete c₀ k₀)

/-- The states are the same but for what is looked at. -/
structure Alike (m : LoxScript.Machine) (m₀ : Machine) : Prop where
  pending : StmtsAt P [] m₀.pending m.pending
  store : SameStore P owners m.store m₀.store
  output : m.output = m₀.output
  depth : m.depth = m₀.depth

end

/-- Both go on in states that are the same, or both end in the same way. -/
inductive SameStep (P : List (List (Stmt Unit))) : LoxScript.Step → Step → Prop
  | next {owners m m₀} : Alike P owners m m₀ →
      SameFocus P owners m.store.size m.focus m₀.focus → SameStep P (.next m) (.next m₀)
  | stop {m m₀ e} : m.output = m₀.output → SameStep P (.stop m e) (.stop m₀ e)

section
variable {P : List (List (Stmt Unit))} {owners owners' : Owners} {m : LoxScript.Machine}
  {m₀ : Machine} {Γ : Frames} {env : Environment} {σ : Scope} {k : LoxScript.ValueCont}
  {k₀ : ValueCont} {v : LoxScript.Value} {w : Value}

namespace Alike

/-- Another store comes in the place of each. -/
theorem withStore (h : Alike P owners m m₀) {s : LoxScript.Store} {t : Store}
    (hs : SameStore P owners' s t) :
    Alike P owners' { m with store := s } { m₀ with store := t } :=
  ⟨h.pending, hs, h.output, h.depth⟩

theorem stop (h : Alike P owners m m₀) (e : Ending) : SameStep P (.stop m e) (.stop m₀ e) :=
  .stop h.output

theorem delivering (h : Alike P owners m m₀) (hv : SameValue P owners v w)
    (hk : SameValueCont P owners m.store.size k k₀) :
    SameStep P (m.delivering v k) (m₀.delivering w k₀) :=
  .next ⟨h.pending, h.store, h.output, h.depth⟩ (.deliver hv hk)

theorem evaluating (h : Alike P owners m m₀) {e : RExpr} {e₀ : Expr Unit}
    (he : SameExpr P owners env σ e e₀) (hk : SameValueCont P owners m.store.size k k₀) :
    SameStep P (m.evaluating e env k) (m₀.evaluating e₀ σ k₀) :=
  .next ⟨h.pending, h.store, h.output, h.depth⟩ (.evaluate he hk)

theorem completing (h : Alike P owners m m₀) {c : LoxScript.Completion} {c₀ : Completion}
    (hc : SameCompletion P owners c c₀) {k : LoxScript.StmtCont} {k₀ : StmtCont}
    (hk : SameStmtCont P owners m.store.size k k₀) :
    SameStep P (m.completing c k) (m₀.completing c₀ k₀) :=
  .next ⟨h.pending, h.store, h.output, h.depth⟩ (.complete hc hk)

theorem executing (h : Alike P owners m m₀) {s : RStmt} {s₀ : Stmt Unit}
    (hs : StmtAt P Γ s₀ s) (hc : Corresponds owners (Γ.after s) env σ) {k : LoxScript.StmtCont}
    {k₀ : StmtCont} (hk : SameStmtCont P owners m.store.size k k₀) :
    SameStep P (m.executing s env k) (m₀.executing s₀ σ k₀) :=
  .next ⟨h.pending, h.store, h.output, h.depth⟩ (.execute hs hc hk)

/-- A statement that declares nothing sees the names from before it. -/
theorem executingBody (h : Alike P owners m m₀) {s : RStmt} {s₀ : Stmt Unit}
    (hs : SameBody P owners env σ s s₀) {k : LoxScript.StmtCont}
    {k₀ : StmtCont} (hk : SameStmtCont P owners m.store.size k k₀) :
    SameStep P (m.executing s env k) (m₀.executing s₀ σ k₀) := by
  obtain ⟨Γ, ⟨hs, hnone⟩, hc⟩ := hs
  refine h.executing hs ?_ hk
  rw [Frames.after, hnone]
  exact hc

theorem deliveringResult (h : Alike P owners m m₀) {r : Except Fault LoxScript.Value}
    {r₀ : Except Fault Value}
    (hr : ValueOf.RelatedOutcome (SameClosure P owners) (SameMethod P owners) r r₀) (t : Token)
    (hk : SameValueCont P owners m.store.size k k₀) :
    SameStep P (m.deliveringResult r t k) (m₀.deliveringResult r₀ t k₀) := by
  cases hr with
  | ok hv => exact h.delivering hv hk
  | error f => exact h.stop _

/-! ### Names -/

theorem lookingUp (h : Alike P owners m m₀) (hc : Corresponds owners Γ env σ) (x : String)
    (t : Token) (hk : SameValueCont P owners m.store.size k k₀) :
    SameStep P (m.lookingUp x (Γ.scopes.distance? x) t env k) (m₀.lookingUp x t σ k₀) := by
  have hl := hc.leads x
  unfold LoxScript.Machine.lookingUp Machine.lookingUp
  generalize Γ.scopes.distance? x = ref at hl
  generalize σ.find? x = l at hl
  cases hl with
  | globally =>
    have hx := h.store.globals x
    dsimp only
    rw [LoxScript.Store.globals, Scopes.get?_root]
    rw [LoxScript.Store.find?] at hx
    generalize (m.store.scopes.bindings ⟨0⟩).find? x = v at hx
    generalize m₀.store.globals.find? x = w at hx
    cases hx with
    | none => exact h.stop _
    | some hv => exact h.delivering hv hk
  | @locally d e l he hl =>
    have hx := h.store.held l.index _ hl
    dsimp only
    rw [Scopes.getAt, he]
    dsimp only
    rw [LoxScript.Store.find?] at hx
    generalize (m.store.scopes.bindings e.scope).find? x = v at hx
    generalize m₀.store.cell l = w at hx
    cases hx with
    | none => exact h.stop _
    | some hv => exact h.delivering hv hk

theorem assigning (h : Alike P owners m m₀) (hc : Corresponds owners Γ env σ) (x : Name)
    (hv : SameValue P owners v w) (hk : SameValueCont P owners m.store.size k k₀) :
    SameStep P (m.assigning x (Γ.scopes.distance? x.text) env v k) (m₀.assigning x σ w k₀) := by
  have hl := hc.leads x.text
  unfold LoxScript.Machine.assigning Machine.assigning
  generalize Γ.scopes.distance? x.text = ref at hl
  generalize σ.find? x.text = l at hl
  cases hl with
  | globally =>
    have hx := h.store.globals x.text
    have hbinds : m.store.binds LoxScript.Store.globals x.text =
        m₀.store.globals.binds x.text := by
      rw [LoxScript.Store.binds, Bindings.binds, Bindings.binds]
      rw [LoxScript.Store.find?] at hx
      show ((m.store.scopes.bindings ⟨0⟩).find? x.text).isSome = _
      generalize (m.store.scopes.bindings ⟨0⟩).find? x.text = v at hx
      generalize m₀.store.globals.find? x.text = w at hx
      cases hx <;> rfl
    dsimp only
    rw [hbinds]
    split
    · refine (h.withStore (h.store.setGlobal x.text hv)).delivering hv ?_
      exact hk.mono (.refl owners _) (Nat.le_of_eq (LoxScript.Store.size_define _ _ _ _).symm)
    · exact h.stop _
  | @locally d e l he hl =>
    dsimp only
    rw [he]
    refine (h.withStore (h.store.setCell hl hv)).delivering hv ?_
    exact hk.mono (.refl owners _) (Nat.le_of_eq (LoxScript.Store.size_define _ _ _ _).symm)

/-- What a reserved name stands for, at the distance at which it was found. -/
theorem read (h : Alike P owners m m₀) (hc : Corresponds owners Γ env σ) {x : String} {d : Nat}
    (hd : Γ.scopes.distance? x = some d) :
    (∃ v w, m.store.scopes.getAt env d x = .ok v ∧ (σ.find? x).bind m₀.store.cell = some w ∧
      SameValue P owners v w) ∨
    (m.store.scopes.getAt env d x = .error (.unbound x) ∧
      (σ.find? x).bind m₀.store.cell = none) := by
  have hl := hc.leads x
  rw [hd] at hl
  generalize σ.find? x = l at hl
  cases hl with
  | @locally _ e l he hl =>
    have hx := h.store.held l.index _ hl
    rw [Scopes.getAt, he]
    dsimp only [Option.bind_some]
    rw [LoxScript.Store.find?] at hx
    generalize (m.store.scopes.bindings e.scope).find? x = v at hx
    generalize m₀.store.cell l = w at hx
    cases hx with
    | none => exact .inr ⟨rfl, rfl⟩
    | some hv => exact .inl ⟨_, _, rfl, rfl, hv⟩

theorem lookingUpSuper (h : Alike P owners m m₀) (hc : Corresponds owners Γ env σ) {d : Nat}
    (hsuper : Γ.scopes.distance? "super" = some (d + 1))
    (hthis : Γ.scopes.distance? "this" = some d) (x : Name)
    (hk : SameValueCont P owners m.store.size k k₀) :
    SameStep P (m.lookingUpSuper (some (d + 1)) x env k) (m₀.lookingUpSuper x σ k₀) := by
  unfold LoxScript.Machine.lookingUpSuper Machine.lookingUpSuper
  simp only [Nat.add_sub_cancel]
  rcases h.read hc hsuper with ⟨v, w, hv, hw, hvw⟩ | ⟨hv, hw⟩
  · rcases h.read hc hthis with ⟨v', w', hv', hw', hvw'⟩ | ⟨hv', hw'⟩
    · rw [hv, hw, hv', hw']
      cases hvw with
      | @«class» c d hcd =>
        dsimp only
        have hm := hcd.2.2 x.text
        generalize c.method? x.text = f at hm
        generalize d.method? x.text = g at hm
        cases hm with
        | none => exact h.stop _
        | some hfg =>
          obtain ⟨owners', hgrow, hs, hvalue⟩ := h.store.bindValue hfg hvw'
          refine (h.withStore hs).delivering hvalue (hk.mono hgrow ?_)
          rw [LoxScript.Store.size_bindValue]
          exact Nat.le_succ _
      | _ => exact h.stop _
    · rw [hv, hw, hv', hw']
      cases hvw <;> exact h.stop _
  · rw [hv, hw]
    exact h.stop _

/-! ### Calls -/

theorem entering (h : Alike P owners m m₀) {f : LoxScript.Closure} {g : Closure}
    (hf : SameClosure P owners f g) {vs : List LoxScript.Value} {ws : List Value}
    (hvs : List.Forall₂ (SameValue P owners) vs ws) (hlen : vs.length = f.arity)
    {r : LoxScript.CallResult} {r₀ : CallResult} (hr : SameResult P owners r r₀)
    (hk : SameValueCont P owners m.store.size k k₀) :
    SameStep P (m.entering f vs r k) (m₀.entering g ws r₀ k₀) := by
  obtain ⟨owners', hgrow, hs, hrest⟩ := h.store.call hf hvs hlen
  have hlt := LoxScript.Store.size_lt_enter m.store f.environment
    (LoxScript.Machine.parameterBindings f vs)
  have hcall : SameStmtCont P owners' m.store.size (.call r k) (.call r₀ k₀) :=
    .call (hr.mono hgrow.prefix_) (hk.mono hgrow (Nat.le_refl _))
  rw [LoxScript.Machine.entering_eq]
  exact .next ⟨h.pending, hs, h.output, congrArg (· + 1) h.depth⟩
    (.complete .normal (.sequence hrest h.store.positive hlt hcall))

theorem invoking (h : Alike P owners m m₀) (settings : Settings) {c : LoxScript.Callable}
    {d : Callable} (hcd : c.Related (SameClosure P owners) (SameMethod P owners) d)
    {vs : List LoxScript.Value} {ws : List Value} (hvs : List.Forall₂ (SameValue P owners) vs ws) (hlen : vs.length = c.arity)
    (hk : SameValueCont P owners m.store.size k k₀) :
    SameStep P (m.invoking settings c vs k) (m₀.invoking settings d ws k₀) := by
  cases hcd with
  | native f =>
    cases f
    refine (h.withStore h.store.tick).delivering ?_ hk
    show SameValue P owners (.number (settings.clock m.store.ticks)) _
    rw [h.store.ticks]
    exact .number _
  | @function f g hf =>
    have hr : SameResult P owners
        (if f.isInitializer then .receiver f.environment else .returned)
        (if g.isInitializer then .receiver g.environment else .returned) := by
      obtain ⟨-, hinit, Γ, -, hc, hreceiver⟩ := hf
      rw [← hinit]
      cases hi : f.isInitializer with
      | true =>
        obtain ⟨ms, Δ, rfl⟩ := hreceiver hi
        exact .receiver hc
      | false => exact .returned
    exact h.entering hf hvs hlen hr hk
  | @«class» c d hcd =>
    obtain ⟨hs, hmade⟩ := h.store.makeInstance hcd
    have h' := h.withStore hs
    have hinit := hcd.2.2 "init"
    have hlen : vs.length = c.arity := hlen
    unfold LoxScript.Machine.invoking Machine.invoking
    simp only [LoxScript.Machine.make_eq]
    rw [ClassOf.arity] at hlen
    rw [ClassOf.initializer?] at hlen ⊢
    rw [ClassOf.initializer?]
    generalize c.method? "init" = f at hinit hlen
    generalize d.method? "init" = g at hinit
    cases hinit with
    | none => exact h'.delivering hmade hk
    | some hfg =>
      obtain ⟨owners', hgrow, hs', hclosure⟩ := hs.bind hfg hmade
      have hpre := hgrow.prefix_
      refine (h'.withStore hs').entering hclosure (hvs.imp fun _ _ hv => hv.mono hpre) hlen
        (.made (hmade.mono hpre)) (hk.mono hgrow ?_)
      rw [LoxScript.Store.size_bind]
      exact Nat.le_succ _

theorem calling (h : Alike P owners m m₀) (settings : Settings) (hv : SameValue P owners v w)
    {vs : List LoxScript.Value} {ws : List Value} (hvs : List.Forall₂ (SameValue P owners) vs ws)
    (line : Nat) (hk : SameValueCont P owners m.store.size k k₀) :
    SameStep P (m.calling settings v vs line k) (m₀.calling settings w ws line k₀) := by
  have hc := hv.callable?
  unfold LoxScript.Machine.calling Machine.calling
  generalize v.callable? = c at hc
  generalize w.callable? = d at hc
  cases hc with
  | none => exact h.stop _
  | some hcd =>
    dsimp only
    rw [← hvs.length_eq, ← hcd.arity (fun _ _ hf => hf.arity) (fun _ _ hf => hf.arity), ← h.depth]
    split
    · exact h.stop _
    · rename_i hlen
      split
      · exact h.stop _
      · exact h.invoking settings hcd hvs (Decidable.not_not.1 hlen) hk

theorem nextArgument (h : Alike P owners m m₀) (settings : Settings) (hv : SameValue P owners v w)
    {vs : List LoxScript.Value} {ws : List Value} (hvs : List.Forall₂ (SameValue P owners) vs ws)
    {es : List RExpr} {es₀ : List (Expr Unit)} (hes : List.Forall₂ (SameExpr P owners env σ) es es₀)
    (line : Nat) (hk : SameValueCont P owners m.store.size k k₀) :
    SameStep P (m.nextArgument settings line v vs es env k)
      (m₀.nextArgument settings line w ws es₀ σ k₀) := by
  cases hes with
  | nil => exact h.calling settings hv (List.forall₂_reverse_iff.2 hvs) line hk
  | cons he hes => exact h.evaluating he (.argument hv hvs hes hk)

/-! ### Properties and classes -/

theorem takingProperty (h : Alike P owners m m₀) (i : Nat) {c : LoxScript.ClassObject}
    {d : ClassObject} (hcd : SameClass P owners c d) (x : Name)
    {next : LoxScript.Machine → LoxScript.Value → LoxScript.Step} {next₀ : Machine → Value → Step}
    (hnext : ∀ owners' s t v w, owners.Grow m.store.size owners' → m.store.size ≤ s.size →
      Alike P owners' { m with store := s } { m₀ with store := t } → SameValue P owners' v w →
      SameStep P (next { m with store := s } v) (next₀ { m₀ with store := t } w)) :
    SameStep P (m.takingProperty i c x next) (m₀.takingProperty i d x next₀) := by
  have hp := h.store.property? i hcd x.text
  unfold LoxScript.Machine.takingProperty Machine.takingProperty
  generalize m.store.property? i c x.text = p at hp
  generalize m₀.store.property? i d x.text = q at hp
  cases hp with
  | none => exact h.stop _
  | some hpq =>
    obtain ⟨owners', hgrow, hs, hv⟩ := h.store.take hpq (.instance i hcd)
    exact hnext owners' _ _ _ _ hgrow (SameStore.size_le_take _ _ _) (h.withStore hs) hv

/-- A class is made, and its name gets it for a value. -/
theorem makingClass (h : Alike P owners m m₀) (hc : Corresponds owners Γ env σ) {x : String}
    (hx : Declares Γ x) {methods : Bindings LoxScript.Closure} {methods₀ : Bindings Closure}
    (hms : ∀ x, Option.Rel (SameMethod P owners) (methods.find? x) (methods₀.find? x))
    {parent : Option LoxScript.ClassObject} {parent₀ : Option ClassObject}
    (hparent : Option.Rel (SameClass P owners) parent parent₀) {k : LoxScript.StmtCont}
    {k₀ : StmtCont} (hk : SameStmtCont P owners m.store.size k k₀) :
    SameStep P
      (((m.make (·.makeClass x methods parent)).2.change
        (·.define env x (m.make (·.makeClass x methods parent)).1)).completing .normal k)
      ({ m₀ with store := (m₀.store.makeClass x methods₀ parent₀).2.declare σ x
                  (m₀.store.makeClass x methods₀ parent₀).1 }.completing .normal k₀) := by
  obtain ⟨hs, hv⟩ := h.store.makeClass x hms hparent
  refine (h.withStore (hs.declare hc hx hv)).completing .normal (hk.mono (.refl owners _) ?_)
  exact Nat.le_of_eq (LoxScript.Store.size_define _ _ _ _).symm

theorem declaringBase (h : Alike P owners m m₀) (hc : Corresponds owners Γ env σ) {x : Name}
    (hx : Declares Γ x.text) {ms : List (Method (Option Nat))} {ms₀ : List (Method Unit)}
    (hms : MethodsAt P (.receiver ms :: Γ) ms₀ ms) {k : LoxScript.StmtCont} {k₀ : StmtCont}
    (hk : SameStmtCont P owners m.store.size k k₀) :
    SameStep P (m.declaringClass x none ms env k) (m₀.declaringClass x none ms₀ σ k₀) :=
  h.makingClass hc hx (SameStore.methodTable hms hc) .none hk

theorem declaringDerived (h : Alike P owners m m₀) (hc : Corresponds owners Γ env σ) {x : Name}
    (hx : Declares Γ x.text) {ms : List (Method (Option Nat))} {ms₀ : List (Method Unit)}
    (hms : MethodsAt P (.receiver ms :: .superclass ms :: Γ) ms₀ ms) {c : LoxScript.ClassObject}
    {d : ClassObject} (hcd : SameClass P owners c d) {k : LoxScript.StmtCont} {k₀ : StmtCont}
    (hk : SameStmtCont P owners m.store.size k k₀) :
    SameStep P (m.declaringClass x (some c) ms env k)
      (m₀.declaringClass x (some d) ms₀ σ k₀) := by
  obtain ⟨owners', hgrow, hs, hc'⟩ :=
    h.store.bindOne hc "super" (.class hcd) (Frame.superclass ms) rfl
  have hlt := LoxScript.Store.size_lt_enter m.store env [("super", .class c)]
  have hk' := hk.mono hgrow (Nat.le_of_lt hlt)
  exact (h.withStore hs).makingClass (hc.mono hgrow.prefix_) hx (SameStore.methodTable hms hc')
    (.some (hcd.mono hgrow.prefix_)) hk'

/-! ### The kinds of steps -/

theorem evaluate (h : Alike P owners m m₀) {e : RExpr} {e₀ : Expr Unit} (he : ExprAt P Γ e₀ e)
    (hc : Corresponds owners Γ env σ) (hk : SameValueCont P owners m.store.size k k₀) :
    SameStep P (m.evaluate e env k) (m₀.evaluate e₀ σ k₀) := by
  cases he.view with
  | literal l => exact h.delivering (ValueOf.related_ofLiteral l) hk
  | grouping hi => exact h.evaluating ⟨Γ, hi, hc⟩ hk
  | unary ho => exact h.evaluating ⟨Γ, ho, hc⟩ (.unary hk)
  | binary hl hr => exact h.evaluating ⟨Γ, hl, hc⟩ (.binaryLeft ⟨Γ, hr, hc⟩ hk)
  | logical hl hr => exact h.evaluating ⟨Γ, hl, hc⟩ (.logical ⟨Γ, hr, hc⟩ hk)
  | @var x _ => exact h.lookingUp hc x.text x.token hk
  | assign _ hv => exact h.evaluating ⟨Γ, hv, hc⟩ (.assign hc hk)
  | call hf hes =>
    have hes' := hes.flip.imp fun e e₀ he => (⟨Γ, he, hc⟩ : SameExpr P owners env σ e e₀)
    exact h.evaluating ⟨Γ, hf, hc⟩ (.callee hes' hk)
  | get ho => exact h.evaluating ⟨Γ, ho, hc⟩ (.get hk)
  | set ho hv => exact h.evaluating ⟨Γ, ho, hc⟩ (.setObject ⟨Γ, hv, hc⟩ hk)
  | update ho hv => exact h.evaluating ⟨Γ, ho, hc⟩ (.updateObject ⟨Γ, hv, hc⟩ hk)
  | @this line d ms hd _ =>
    have := h.lookingUp hc "this" ⟨.keyword .this_, line⟩ hk
    rwa [hd] at this
  | super hd hd' _ _ => exact h.lookingUpSuper hc hd hd' _ hk
  | function hcode =>
    obtain ⟨hs, hv⟩ := h.store.makeFunction (sameClosure_of_code hcode hc none)
    exact (h.withStore hs).delivering hv hk

/-- The name that a statement declares has its location before the statement is executed. -/
theorem declares_after {s : RStmt} {x : Name} (hs : s.declares? = some x) :
    Declares (Γ.after s) x.text := by
  rw [Frames.after, hs]
  cases Γ with
  | nil =>
    rintro _ ⟨⟩
  | cons f Γ =>
    rintro _ ⟨⟩
    simp [LocalScope.declares]

/-- Whether a name has its initial value does not matter to its location. -/
theorem corresponds_ready {x : String} {ready ready' : Bool}
    (hc : Corresponds owners (Γ.declare x ready) env σ) :
    Corresponds owners (Γ.declare x ready') env σ := by
  cases Γ with
  | nil => exact hc
  | cons f Γ =>
    cases hc with
    | nested hc hnames hown => exact .nested hc hnames hown

theorem execute (h : Alike P owners m m₀) {s : RStmt} {s₀ : Stmt Unit} (hs : StmtAt P Γ s₀ s)
    (hc : Corresponds owners (Γ.after s) env σ) {k : LoxScript.StmtCont} {k₀ : StmtCont}
    (hk : SameStmtCont P owners m.store.size k k₀) :
    SameStep P (m.execute s env k) (m₀.execute s₀ σ k₀) := by
  cases hs.view with
  | expression he => exact h.evaluating ⟨Γ, he, hc⟩ (.discard hk)
  | print he => exact h.evaluating ⟨Γ, he, hc⟩ (.print hk)
  | empty _ _ =>
    refine (h.withStore (h.store.declare hc (declares_after rfl) .nil)).completing .normal ?_
    exact hk.mono (.refl owners _) (Nat.le_of_eq (LoxScript.Store.size_define _ _ _ _).symm)
  | var _ _ he =>
    exact h.evaluating ⟨_, he, corresponds_ready hc⟩ (.define hc (declares_after rfl) hk)
  | block hss =>
    have hlt := LoxScript.Store.size_lt_enter m.store env []
    refine (h.withStore (h.store.enter env)).completing .normal ?_
    refine .sequence ⟨_, hss, Corresponds.block hc _ _, fun x hx => ?_⟩ h.store.positive hlt hk
    exact absurd hx (h.store.not_mem_next x)
  | branch he hyes hno =>
    refine h.evaluating ⟨Γ, he, hc⟩ (.branch ⟨Γ, hyes, hc⟩ ?_ hk)
    cases hno with
    | none => exact .none
    | some hno => exact .some ⟨Γ, hno, hc⟩
  | loop he hbody => exact h.evaluating ⟨Γ, he, hc⟩ (.loopTest ⟨Γ, he, hc⟩ ⟨Γ, hbody, hc⟩ hk)
  | @function x _ _ _ _ hcode =>
    obtain ⟨hs, hv⟩ := h.store.makeFunction (sameClosure_of_code hcode hc (some x.text))
    have hdeclared := h.withStore (hs.declare hc (declares_after rfl) hv)
    refine hdeclared.completing .normal (hk.mono (.refl owners _) ?_)
    exact Nat.le_of_eq (LoxScript.Store.size_define _ _ _ _).symm
  | ret hv =>
    cases hv with
    | none => exact h.completing (.returned .nil) hk
    | some he => exact h.evaluating ⟨Γ, he, hc⟩ (.ret hk)
  | base _ _ hms => exact h.declaringBase hc (declares_after rfl) hms hk
  | @derived x y ref ms₀ ms _ _ hne hy hms =>
    cases hy.view with
    | var _ =>
      have hd : Γ.scopes.distance? y.text = (Γ.declare x.text true).scopes.distance? y.text := by
        rw [Frames.scopes_declare, LocalScopes.distance?_declare_of_ne hne]
      refine .next ⟨h.pending, h.store, h.output, h.depth⟩ ?_
      have hk' := SameValueCont.inherit (y := y) hc (declares_after rfl) hms hk
      rw [hd]
      exact .name hc hk'

theorem deliver (h : Alike P owners m m₀) (settings : Settings) (hv : SameValue P owners v w)
    (hk : SameValueCont P owners m.store.size k k₀) :
    SameStep P (m.deliver settings v k) (m₀.deliver settings w k₀) := by
  cases hk with
  | unary hk => exact h.deliveringResult (hv.unary _) _ hk
  | binaryLeft he hk =>
    obtain ⟨Γ, he, hc⟩ := he
    exact h.evaluating ⟨Γ, he, hc⟩ (.binaryRight hv hk)
  | binaryRight hl hk => exact h.deliveringResult (hl.binary _ hv) _ hk
  | logical he hk =>
    simp only [LoxScript.Machine.deliver.eq_def, Machine.deliver.eq_def]
    rw [hv.isDecidedBy]
    split
    · exact h.delivering hv hk
    · exact h.evaluating he hk
  | assign hc hk => exact h.assigning hc _ hv hk
  | callee hes hk => exact h.nextArgument settings hv .nil hes _ hk
  | argument hf hvs hes hk => exact h.nextArgument settings hf (.cons hv hvs) hes _ hk
  | get hk =>
    cases hv with
    | «instance» i hcd =>
      simp only [LoxScript.Machine.deliver.eq_def, Machine.deliver.eq_def]
      refine h.takingProperty i hcd _ fun owners' s t v w hgrow hsize h' hv => ?_
      exact h'.delivering hv (hk.mono hgrow hsize)
    | _ => exact h.stop _
  | setObject he hk =>
    cases hv with
    | «instance» i hcd => exact h.evaluating he (.setValue hk)
    | _ => exact h.stop _
  | setValue hk => exact (h.withStore (h.store.setField _ _ hv)).delivering hv hk
  | updateObject he hk =>
    cases hv with
    | «instance» i hcd =>
      simp only [LoxScript.Machine.deliver.eq_def, Machine.deliver.eq_def]
      refine h.takingProperty i hcd _ fun owners' s t v w hgrow hsize h' hv => ?_
      exact h'.evaluating (he.mono hgrow.prefix_) (.updateValue hv (hk.mono hgrow hsize))
    | _ => exact h.stop _
  | @updateValue _ i x op line _ _ k k₀ hcurrent hk =>
    have hr := hcurrent.arith op hv
    simp only [LoxScript.Machine.deliver.eq_def, Machine.deliver.eq_def]
    generalize op.apply _ v = r at hr
    generalize op.apply _ w = r₀ at hr
    cases hr with
    | ok hr => exact (h.withStore (h.store.setField i x.text hr)).delivering hr hk
    | error f => exact h.stop _
  | discard hk => exact h.completing .normal hk
  | print hk =>
    refine .next ⟨h.pending, h.store, ?_, h.depth⟩ (.complete .normal hk)
    show m.output ++ v.display ++ "\n" = m₀.output ++ w.display ++ "\n"
    rw [h.output, hv.display]
  | define hc hx hk =>
    refine (h.withStore (h.store.declare hc hx hv)).completing .normal ?_
    exact hk.mono (.refl owners _) (Nat.le_of_eq (LoxScript.Store.size_define _ _ _ _).symm)
  | ret hk => exact h.completing (.returned hv) hk
  | branch hyes hno hk =>
    simp only [LoxScript.Machine.deliver.eq_def, Machine.deliver.eq_def]
    rw [hv.isTruthy]
    split
    · exact h.executingBody hyes hk
    · cases hno with
      | none => exact h.completing .normal hk
      | some hno => exact h.executingBody hno hk
  | loopTest he hs hk =>
    simp only [LoxScript.Machine.deliver.eq_def, Machine.deliver.eq_def]
    rw [hv.isTruthy]
    split
    · exact h.executingBody hs (.loopBody he hs hk)
    · exact h.completing .normal hk
  | inherit hc hx hms hk =>
    cases hv with
    | «class» hcd => exact h.declaringDerived hc hx hms hcd hk
    | _ => exact h.stop _

/-- The next statement of a block; if it is a declaration, its name gets a location first. -/
theorem executingNext (h : Alike P owners m m₀) {s : RStmt} {later : List RStmt}
    {ss₀ : List (Stmt Unit)} (hrest : SameRest P owners env σ (s :: later) ss₀)
    (hpos : 0 < env.scope.index) (hlt : env.scope.index < m.store.size) {k : LoxScript.StmtCont}
    {k₀ : StmtCont} (hk : SameStmtCont P owners env.scope.index k k₀) :
    SameStep P (m.complete .normal (.sequence (s :: later) env k))
      (m₀.complete .normal (.sequence ss₀ σ k₀)) := by
  obtain ⟨Γ, hss, hc, hexact⟩ := hrest
  obtain ⟨s₀, later₀, rfl, hs, hlater⟩ := hss.cons
  simp only [LoxScript.Machine.complete.eq_def, Machine.complete.eq_def]
  rw [← hs.declares?]
  cases hx : s.declares? with
  | none =>
    have hafter : Γ.after s = Γ := by rw [Frames.after, hx]
    have hc' : Corresponds owners (Γ.after s) env σ := by
      rw [hafter]
      exact hc
    rw [hafter] at hlater
    exact h.executing hs hc' (.sequence ⟨Γ, hlater, hc, hexact⟩ hpos hlt hk)
  | some x =>
    have hafter : Γ.after s = Γ.declare x.text true := by rw [Frames.after, hx]
    obtain ⟨owners', hgrow, hstore, hc', hexact'⟩ :=
      h.store.declareNext hc hpos hlt hexact (hs.isRedeclared hx)
    rw [hafter] at hlater
    exact (h.withStore hstore).executing hs (hafter ▸ hc')
      (.sequence ⟨_, hlater, hc', hexact'⟩ hpos hlt (hk.mono hgrow (Nat.le_refl _)))

/-- What a call answers. -/
theorem answer (h : Alike P owners m m₀) {c : LoxScript.Completion} {c₀ : Completion}
    (hc : SameCompletion P owners c c₀) {r : LoxScript.CallResult} {r₀ : CallResult}
    (hr : SameResult P owners r r₀) :
    (∃ v w, m.answer c r = .ok v ∧ m₀.answer? c₀ r₀ = some w ∧ SameValue P owners v w) ∨
    (m.answer c r = .error (.unbound "this") ∧ m₀.answer? c₀ r₀ = none) := by
  cases hr with
  | returned =>
    cases hc with
    | normal => exact .inl ⟨_, _, rfl, rfl, .nil⟩
    | returned hv => exact .inl ⟨_, _, rfl, rfl, hv⟩
  | receiver hcorr => exact h.read hcorr (x := "this") rfl
  | made hv => exact .inl ⟨_, _, rfl, rfl, hv⟩

theorem complete (h : Alike P owners m m₀) {c : LoxScript.Completion} {c₀ : Completion}
    (hc : SameCompletion P owners c c₀) {k : LoxScript.StmtCont} {k₀ : StmtCont}
    (hk : SameStmtCont P owners m.store.size k k₀) :
    SameStep P (m.complete c k) (m₀.complete c₀ k₀) := by
  cases hk with
  | @sequence _ ss ss₀ env σ k k₀ hrest hpos hlt hk =>
    have hk' : SameStmtCont P owners m.store.size k k₀ :=
      hk.mono (.refl owners _) (Nat.le_of_lt hlt)
    cases hc with
    | normal =>
      cases ss with
      | nil =>
        obtain ⟨Γ, hss, -, -⟩ := hrest
        rw [hss.nil]
        exact h.completing .normal hk'
      | cons s later => exact h.executingNext hrest hpos hlt hk
    | returned hv => exact h.completing (.returned hv) hk'
  | loopBody he hs hk =>
    cases hc with
    | normal => exact h.evaluating he (.loopTest he hs hk)
    | returned hv => exact h.completing (.returned hv) hk
  | call hr hk =>
    simp only [LoxScript.Machine.complete.eq_def, Machine.complete.eq_def]
    rcases h.answer hc hr with ⟨v, w, hv, hw, hvw⟩ | ⟨hv, hw⟩
    · rw [hv, hw]
      have hdepth : m.depth - 1 = m₀.depth - 1 := congrArg (· - 1) h.depth
      exact .next ⟨h.pending, h.store, h.output, hdepth⟩ (.deliver hvw hk)
    · rw [hv, hw]
      exact h.stop _
  | finish =>
    simp only [LoxScript.Machine.complete.eq_def, Machine.complete.eq_def]
    have hp := h.pending
    generalize m.pending = pending at hp
    cases pending with
    | nil =>
      rw [hp.nil]
      exact h.stop _
    | cons s rest =>
      obtain ⟨s₀, rest₀, he, hs, hrest⟩ := hp.cons
      rw [he]
      have hafter : ∀ s : RStmt, Frames.after [] s = [] := fun s => by
        rw [Frames.after]
        split <;> rfl
      rw [hafter] at hrest
      refine .next ⟨hrest, h.store, h.output, h.depth⟩ (.execute hs ?_ .finish)
      rw [hafter]
      exact .globals

/-- From states that are the same, both take the same step. -/
theorem step (h : Alike P owners m m₀) (hfocus : SameFocus P owners m.store.size m.focus m₀.focus)
    (settings : Settings) : SameStep P (m.step settings) (m₀.step settings) := by
  unfold LoxScript.Machine.step Machine.step
  generalize m.focus = f at hfocus
  generalize m₀.focus = f₀ at hfocus
  cases hfocus with
  | evaluate he hk =>
    obtain ⟨Γ, he, hc⟩ := he
    exact h.evaluate he hc hk
  | @name Γ x env σ k k₀ hc hk => exact h.lookingUp hc x.text x.token hk
  | deliver hv hk => exact h.deliver settings hv hk
  | execute hs hc hk => exact h.execute hs hc hk
  | complete hc hk => exact h.complete hc hk

/-- From states that are the same, both print the same and end in the same way, if they end. -/
theorem run (h : Alike P owners m m₀) (hfocus : SameFocus P owners m.store.size m.focus m₀.focus)
    (settings : Settings) (fuel : Nat) :
    (m.run settings fuel).2 = (m₀.run settings fuel).2 ∧
      (m.run settings fuel).1.output = (m₀.run settings fuel).1.output := by
  induction fuel generalizing owners m m₀ with
  | zero => exact ⟨rfl, h.output⟩
  | succ fuel ih =>
    have hs := h.step hfocus settings
    rw [LoxScript.Machine.run, Machine.run]
    generalize m.step settings = r at hs
    generalize m₀.step settings = r₀ at hs
    cases hs with
    | next h' hfocus' => exact ih h' hfocus'
    | stop hout => exact ⟨rfl, hout⟩

end Alike

/-- Nothing has been made yet but the globals that come with the language. -/
theorem sameStore_initial (P : List (List (Stmt Unit))) : SameStore P [] .initial .initial := by
  have hglobals : ∀ x, LoxScript.Store.initial.find? ⟨0⟩ x =
      Bindings.find? x ([("clock", .native .clock)] : Bindings LoxScript.Value) := fun _ => rfl
  refine ⟨.nil, rfl, nofun, fun i x v hi hv => ?_, nofun, Nat.one_pos, fun x => ?_, rfl,
    fun _ _ => .none, rfl, rfl⟩
  · have hlt : i.index < 1 := LoxScript.Store.lt_size_of_find? hv
    omega
  · rw [hglobals]
    show Option.Rel _ _ (Bindings.find? x ([("clock", .native .clock)] : Bindings Value))
    rw [Bindings.find?_cons, Bindings.find?_cons]
    split
    · exact .some (.native .clock)
    · exact .none

end
end Lexical

/-- Names can be looked up by name.  A program without mistakes and the evaluator by name have
printed the same after any number of steps; and when one of them has ended, the other has ended in
the same way: finished, failed with the same error, or for a name without a value. -/
theorem resolved_runs_by_name {source : String} {program : List RStmt}
    (h : compile source = .ok program) (settings : Settings) (fuel : Nat) :
    ((Machine.start program .initial).run settings fuel).2 =
        ((Lexical.Machine.start (Reading.ofText source).statements).run settings fuel).2 ∧
      ((Machine.start program .initial).run settings fuel).1.output =
        ((Lexical.Machine.start (Reading.ofText source).statements).run settings fuel).1.output := by
  obtain ⟨haccepted, hvalue⟩ := accepted_of_compile h
  have hpending : StmtsAt [(Reading.ofText source).statements] [] (Reading.ofText source).statements
      program :=
    ⟨⟨.outermost, .outside⟩, ⟨_, List.mem_cons_self, haccepted, .outermost⟩, hvalue⟩
  have hstart : Lexical.Alike [(Reading.ofText source).statements] []
      (Machine.start program .initial) (.start (Reading.ofText source).statements) :=
    ⟨hpending, Lexical.sameStore_initial _, rfl, rfl⟩
  exact hstart.run (.complete .normal .finish) settings fuel

/-- A function goes on to see the global that it saw when it was declared. -/
theorem resolved_runs_by_name_past_declaration :
    ∃ program m, compile "var a = nil; { fun f() { print a; } f(); var a = true; f(); }" =
        .ok program ∧
      (Lexical.Machine.start (Reading.ofText
        "var a = nil; { fun f() { print a; } f(); var a = true; f(); }").statements).run {} 50 =
        (m, some .finished) ∧ m.output = "nil\nnil\n" := by
  have h : compile "var a = nil; { fun f() { print a; } f(); var a = true; f(); }" = .ok
      [.var ⟨"a", 1⟩ (some (.literal .nil)), .block
        [.function ⟨"f", 1⟩ (.mk [] [.print (.var ⟨"a", 1⟩ none)]),
          .expression (.call (.var ⟨"f", 1⟩ (some 0)) 1 []),
          .var ⟨"a", 1⟩ (some (.literal (.bool true))),
          .expression (.call (.var ⟨"f", 1⟩ (some 0)) 1 [])]] := by cbv
  obtain ⟨hending, houtput⟩ := resolved_runs_by_name h {} 50
  exact ⟨_, _, h, Prod.ext rfl (hending.symm.trans rfl), houtput.symm.trans rfl⟩

end LoxScript
