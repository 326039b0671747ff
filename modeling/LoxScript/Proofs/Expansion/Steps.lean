import LoxScript.Proofs.Expansion.Stores
import LoxScript.Proofs.Machine.Meeting

/-!
Steps of a program and of the program written out.

Nearly always one step answers one step.  A pair of parentheses takes the program that is written
out one step more, and an update of a property takes it several: the receiver is evaluated again to
read the property, and the outcome of the operation is delivered before the property gets it.  None
of these steps has an effect, so that the two states belong together behind them again.
-/

namespace LoxScript
namespace Expansion
open Surface.Elaboration (isRepeatable)

inductive SameCompletion : Completion → Completion → Prop
  | normal : SameCompletion .normal .normal
  | returned {v w : Value} : SameValue v w → SameCompletion (.returned v) (.returned w)

inductive SameResult : CallResult → CallResult → Prop
  | returned : SameResult .returned .returned
  | receiver (env : Environment) : SameResult (.receiver env) (.receiver env)
  | made {v w : Value} : SameValue v w → SameResult (.made v) (.made w)

mutual

/-- The same is done with a value. -/
inductive SameValueCont : ValueCont → ValueCont → Prop
  | unary {op line k k'} : SameValueCont k k' → SameValueCont (.unary op line k) (.unary op line k')
  | binaryLeft {op line e f env k k'} : SameExpr e f → SameValueCont k k' →
      SameValueCont (.binaryLeft op line e env k) (.binaryLeft op line f env k')
  | parentheses {op line e f env k k'} : SameExpr e f → SameValueCont k k' →
      SameValueCont (.binaryLeft op line e env k) (.binaryLeft op line (.grouping f) env k')
  | binaryRight {op line v w k k'} : SameValue v w → SameValueCont k k' →
      SameValueCont (.binaryRight op line v k) (.binaryRight op line w k')
  | logical {op e f env k k'} : SameExpr e f → SameValueCont k k' →
      SameValueCont (.logical op e env k) (.logical op f env k')
  | assign {x ref env k k'} : SameValueCont k k' →
      SameValueCont (.assign x ref env k) (.assign x ref env k')
  | callee {line es fs env k k'} : List.Forall₂ SameExpr es fs → SameValueCont k k' →
      SameValueCont (.callee line es env k) (.callee line fs env k')
  | argument {line v w vs ws es fs env k k'} : SameValue v w → List.Forall₂ SameValue vs ws →
      List.Forall₂ SameExpr es fs → SameValueCont k k' →
      SameValueCont (.argument line v vs es env k) (.argument line w ws fs env k')
  | get {x k k'} : SameValueCont k k' → SameValueCont (.get x k) (.get x k')
  | setObject {x e f env k k'} : SameExpr e f → SameValueCont k k' →
      SameValueCont (.setObject x e env k) (.setObject x f env k')
  | setValue {i x k k'} : SameValueCont k k' → SameValueCont (.setValue i x k) (.setValue i x k')
  | updateObject {x op line e f env k k'} : SameExpr e f → SameValueCont k k' →
      SameValueCont (.updateObject x op line e env k) (.updateObject x op line f env k')
  | updateValue {i x op line v w k k'} : SameValue v w → SameValueCont k k' →
      SameValueCont (.updateValue i x op line v k) (.updateValue i x op line w k')
  /-- The property is set to the outcome of the operation. -/
  | repeated {i x op line v w k k'} : SameValue v w → SameValueCont k k' →
      SameValueCont (.updateValue i x op line v k)
        (.binaryRight (.arith op) line w (.setValue i x k'))
  | discard {k k'} : SameStmtCont k k' → SameValueCont (.discard k) (.discard k')
  | print {k k'} : SameStmtCont k k' → SameValueCont (.print k) (.print k')
  | define {x env k k'} : SameStmtCont k k' → SameValueCont (.define x env k) (.define x env k')
  | ret {k k'} : SameStmtCont k k' → SameValueCont (.ret k) (.ret k')
  | branch {s t no no' env k k'} : SameStmt s t → Option.Rel SameStmt no no' →
      SameStmtCont k k' → SameValueCont (.branch s no env k) (.branch t no' env k')
  | loopTest {e f s t env k k'} : SameExpr e f → SameStmt s t → SameStmtCont k k' →
      SameValueCont (.loopTest e s env k) (.loopTest f t env k')
  | inherit {x y ms ns env k k'} : List.Forall₂ SameMethod ms ns → SameStmtCont k k' →
      SameValueCont (.inherit x y ms env k) (.inherit x y ns env k')

inductive SameStmtCont : StmtCont → StmtCont → Prop
  | sequence {ss ts env k k'} : List.Forall₂ SameStmt ss ts → SameStmtCont k k' →
      SameStmtCont (.sequence ss env k) (.sequence ts env k')
  | loopBody {e f s t env k k'} : SameExpr e f → SameStmt s t → SameStmtCont k k' →
      SameStmtCont (.loopBody e s env k) (.loopBody f t env k')
  | call {r r' k k'} : SameResult r r' → SameValueCont k k' →
      SameStmtCont (.call r k) (.call r' k')
  | finish : SameStmtCont .finish .finish

end

inductive SameFocus : Focus → Focus → Prop
  | evaluate {e f env k k'} : SameExpr e f → SameValueCont k k' →
      SameFocus (.evaluate e env k) (.evaluate f env k')
  | deliver {v w k k'} : SameValue v w → SameValueCont k k' →
      SameFocus (.deliver v k) (.deliver w k')
  | execute {s t env k k'} : SameStmt s t → SameStmtCont k k' →
      SameFocus (.execute s env k) (.execute t env k')
  | complete {c c' k k'} : SameCompletion c c' → SameStmtCont k k' →
      SameFocus (.complete c k) (.complete c' k')

/-- The states are the same but for what is looked at. -/
structure Alike (m m' : Machine) : Prop where
  pending : List.Forall₂ SameStmt m.pending m'.pending
  store : SameStore m.store m'.store
  output : m.output = m'.output
  depth : m.depth = m'.depth

/-- The states are the same, the second with its code written out. -/
def Together (m m' : Machine) : Prop := Alike m m' ∧ SameFocus m.focus m'.focus

/-! ### Names -/

/-- What a use of a name comes to. -/
inductive SameReading : Except Ending Value → Except Ending Value → Prop
  | ok {v w : Value} : SameValue v w → SameReading (.ok v) (.ok w)
  | error (e : Ending) : SameReading (.error e) (.error e)

end Expansion

/-- The value of a name, or how a run ends that looks it up. -/
def Store.read (s : Store) (x : String) (ref : Option Nat) (t : Token) (env : Environment) :
    Except Ending Value :=
  match ref with
  | some d => (s.scopes.getAt env d x).mapError .unreachable
  | none => (s.scopes.get? globals x).elim (.error (.failed ⟨.undefinedVariable x, t⟩)) .ok

theorem Machine.lookingUp_eq (m : Machine) (x : String) (ref : Option Nat) (t : Token)
    (env : Environment) (k : ValueCont) :
    m.lookingUp x ref t env k = match m.store.read x ref t env with
      | .ok v => m.delivering v k
      | .error e => .stop m e := by
  cases ref with
  | some d =>
    rw [lookingUp, Store.read]
    cases m.store.scopes.getAt env d x <;> rfl
  | none =>
    rw [lookingUp, Store.read]
    cases m.store.scopes.get? Store.globals x <;> rfl

namespace Expansion
open Surface.Elaboration (isRepeatable)

theorem SameStore.getAt {s t : Store} (h : SameStore s t) (env : Environment) (d : Nat)
    (x : String) :
    (∃ v w, s.scopes.getAt env d x = .ok v ∧ t.scopes.getAt env d x = .ok w ∧ SameValue v w) ∨
      ∃ f, s.scopes.getAt env d x = .error f ∧ t.scopes.getAt env d x = .error f := by
  unfold Scopes.getAt
  cases env.ancestor? d with
  | none => exact .inr ⟨_, rfl, rfl⟩
  | some e =>
    have hx := h.bindings e.scope x
    rw [Store.find?, Store.find?] at hx
    dsimp only
    generalize (s.scopes.bindings e.scope).find? x = v at hx
    generalize (t.scopes.bindings e.scope).find? x = w at hx
    cases hx with
    | none => exact .inr ⟨_, rfl, rfl⟩
    | some hv => exact .inl ⟨_, _, rfl, rfl, hv⟩

theorem SameStore.read {s t : Store} (h : SameStore s t) (x : String) (ref : Option Nat)
    (tok : Token) (env : Environment) :
    SameReading (s.read x ref tok env) (t.read x ref tok env) := by
  cases ref with
  | some d =>
    rw [Store.read, Store.read]
    rcases h.getAt env d x with ⟨v, w, hv, hw, hvw⟩ | ⟨f, hv, hw⟩
    · rw [hv, hw]
      exact .ok hvw
    · rw [hv, hw]
      exact .error _
  | none =>
    have hx := h.bindings ⟨0⟩ x
    rw [Store.find?, Store.find?] at hx
    rw [Store.read, Store.read, Store.globals, Scopes.get?_root, Scopes.get?_root]
    generalize (s.scopes.bindings ⟨0⟩).find? x = v at hx
    generalize (t.scopes.bindings ⟨0⟩).find? x = w at hx
    cases hx with
    | none => exact .error _
    | some hv => exact .ok hv

section
variable {settings : Settings} {m m' : Machine} {k k' : ValueCont} {v w : Value}

/-- Both runs go on to states that belong together, or to the same end. -/
abbrev SameStep (settings : Settings) : Step → Step → Prop := Step.Meet settings Together

namespace Alike

/-- Another store comes in the place of each. -/
theorem withStore (h : Alike m m') {s t : Store} (hs : SameStore s t) :
    Alike { m with store := s } { m' with store := t } :=
  ⟨h.pending, hs, h.output, h.depth⟩

/-- What is looked at does not matter. -/
theorem withFocus (h : Alike m m') (f f' : Focus) :
    Alike { m with focus := f } { m' with focus := f' } :=
  ⟨h.pending, h.store, h.output, h.depth⟩

theorem stop (h : Alike m m') (e : Ending) : SameStep settings (.stop m e) (.stop m' e) :=
  .stop h.output

theorem delivering (h : Alike m m') (hv : SameValue v w) (hk : SameValueCont k k') :
    SameStep settings (m.delivering v k) (m'.delivering w k') :=
  .next ⟨⟨h.pending, h.store, h.output, h.depth⟩, .deliver hv hk⟩

theorem evaluating (h : Alike m m') {e f : RExpr} (he : SameExpr e f) (env : Environment)
    (hk : SameValueCont k k') :
    SameStep settings (m.evaluating e env k) (m'.evaluating f env k') :=
  .next ⟨⟨h.pending, h.store, h.output, h.depth⟩, .evaluate he hk⟩

/-- The parentheses take a step. -/
theorem evaluatingGrouping (h : Alike m m') {e f : RExpr} (he : SameExpr e f) (env : Environment)
    (hk : SameValueCont k k') :
    SameStep settings (m.evaluating e env k) (m'.evaluating (.grouping f) env k') :=
  .right (h.evaluating he env hk)

theorem completing (h : Alike m m') {c c' : Completion} (hc : SameCompletion c c')
    {k k' : StmtCont} (hk : SameStmtCont k k') :
    SameStep settings (m.completing c k) (m'.completing c' k') :=
  .next ⟨⟨h.pending, h.store, h.output, h.depth⟩, .complete hc hk⟩

theorem executing (h : Alike m m') {s t : RStmt} (hs : SameStmt s t) (env : Environment)
    {k k' : StmtCont} (hk : SameStmtCont k k') :
    SameStep settings (m.executing s env k) (m'.executing t env k') :=
  .next ⟨⟨h.pending, h.store, h.output, h.depth⟩, .execute hs hk⟩

theorem deliveringResult (h : Alike m m') {r r' : Except Fault Value}
    (hr : ValueOf.RelatedOutcome SameClosure SameClosure r r') (t : Token)
    (hk : SameValueCont k k') :
    SameStep settings (m.deliveringResult r t k) (m'.deliveringResult r' t k') := by
  cases hr with
  | ok hv => exact h.delivering hv hk
  | error f => exact h.stop _

theorem lookingUp (h : Alike m m') (x : String) (ref : Option Nat) (t : Token)
    (env : Environment) (hk : SameValueCont k k') :
    SameStep settings (m.lookingUp x ref t env k) (m'.lookingUp x ref t env k') := by
  have hread := h.store.read x ref t env
  rw [Machine.lookingUp_eq, Machine.lookingUp_eq]
  generalize m.store.read x ref t env = r at hread
  generalize m'.store.read x ref t env = r' at hread
  cases hread with
  | ok hv => exact h.delivering hv hk
  | error e => exact h.stop e

theorem assigning (h : Alike m m') (x : Name) (ref : Option Nat) (env : Environment)
    (hv : SameValue v w) (hk : SameValueCont k k') :
    SameStep settings (m.assigning x ref env v k) (m'.assigning x ref env w k') := by
  unfold Machine.assigning
  cases ref with
  | some d =>
    dsimp only
    cases env.ancestor? d with
    | none => exact h.stop _
    | some e => exact (h.withStore (h.store.define e x.text hv)).delivering hv hk
  | none =>
    have hbinds : m.store.binds Store.globals x.text = m'.store.binds Store.globals x.text := by
      have hx := h.store.bindings Store.globals.scope x.text
      rw [Store.find?, Store.find?] at hx
      rw [Store.binds, Store.binds, Bindings.binds, Bindings.binds]
      generalize (m.store.scopes.bindings Store.globals.scope).find? x.text = v at hx
      generalize (m'.store.scopes.bindings Store.globals.scope).find? x.text = w at hx
      cases hx <;> rfl
    dsimp only
    rw [hbinds]
    split
    · exact (h.withStore (h.store.define Store.globals x.text hv)).delivering hv hk
    · exact h.stop _

theorem lookingUpSuper (h : Alike m m') (ref : Option Nat) (x : Name) (env : Environment)
    (hk : SameValueCont k k') :
    SameStep settings (m.lookingUpSuper ref x env k) (m'.lookingUpSuper ref x env k') := by
  cases ref with
  | none => exact h.stop _
  | some d =>
    unfold Machine.lookingUpSuper
    dsimp only
    rcases h.store.getAt env d "super" with ⟨v, w, hv, hw, hvw⟩ | ⟨f, hv, hw⟩
    · rcases h.store.getAt env (d - 1) "this" with ⟨v', w', hv', hw', hvw'⟩ | ⟨f, hv', hw'⟩
      · rw [hv, hw, hv', hw']
        cases hvw with
        | @«class» c d hcd =>
          dsimp only
          have hm := hcd.2.2 x.text
          generalize c.method? x.text = f at hm
          generalize d.method? x.text = g at hm
          cases hm with
          | none => exact h.stop _
          | some hfg =>
            obtain ⟨hs, hvalue⟩ := h.store.bindValue hfg hvw'
            exact (h.withStore hs).delivering hvalue hk
        | _ => exact h.stop _
      · rw [hv, hw, hv', hw']
        cases hvw <;> exact h.stop _
    · rw [hv, hw]
      exact h.stop _

/-! ### Calls -/

theorem entering (h : Alike m m') {f g : Closure} (hf : SameClosure f g) {vs ws : List Value}
    (hvs : List.Forall₂ SameValue vs ws) {r r' : CallResult} (hr : SameResult r r')
    (hk : SameValueCont k k') :
    SameStep settings (m.entering f vs r k) (m'.entering g ws r' k') := by
  have hs := h.store.enter f.environment (sameValue_parameterBindings hf hvs)
  rw [Machine.entering_eq, Machine.entering_eq, ← h.store.size, ← hf.environment]
  exact .next ⟨⟨h.pending, hs, h.output, congrArg (· + 1) h.depth⟩,
    .complete .normal (.sequence hf.code.body (.call hr hk))⟩

theorem invoking (h : Alike m m') {c d : Callable}
    (hcd : c.Related SameClosure SameClosure d) {vs ws : List Value}
    (hvs : List.Forall₂ SameValue vs ws) (hk : SameValueCont k k') :
    SameStep settings (m.invoking settings c vs k) (m'.invoking settings d ws k') := by
  cases hcd with
  | native f =>
    cases f
    refine (h.withStore h.store.tick).delivering ?_ hk
    show SameValue (.number (settings.clock m.store.ticks)) _
    rw [h.store.ticks]
    exact .number _
  | @function f g hf =>
    have hr : SameResult (if f.isInitializer then .receiver f.environment else .returned)
        (if g.isInitializer then .receiver g.environment else .returned) := by
      rw [hf.isInitializer, hf.environment]
      split
      · exact .receiver _
      · exact .returned
    exact h.entering hf hvs hr hk
  | @«class» c d hcd =>
    obtain ⟨hs, hmade⟩ := h.store.makeInstance hcd
    have h' := h.withStore hs
    have hinit := hcd.2.2 "init"
    unfold Machine.invoking
    simp only [Machine.make_eq]
    rw [ClassOf.initializer?, ClassOf.initializer?]
    generalize c.method? "init" = f at hinit
    generalize d.method? "init" = g at hinit
    cases hinit with
    | none => exact h'.delivering hmade hk
    | some hfg =>
      obtain ⟨hs', hclosure⟩ := hs.bind hfg hmade
      exact (h'.withStore hs').entering hclosure hvs (.made hmade) hk

theorem calling (h : Alike m m') (hv : SameValue v w) {vs ws : List Value}
    (hvs : List.Forall₂ SameValue vs ws) (line : Nat) (hk : SameValueCont k k') :
    SameStep settings (m.calling settings v vs line k) (m'.calling settings w ws line k') := by
  have hc := hv.callable?
  unfold Machine.calling
  generalize v.callable? = c at hc
  generalize w.callable? = d at hc
  cases hc with
  | none => exact h.stop _
  | some hcd =>
    dsimp only
    rw [← hvs.length_eq, ← hcd.arity (fun _ _ hf => hf.arity) (fun _ _ hf => hf.arity), ← h.depth]
    split
    · exact h.stop _
    · split
      · exact h.stop _
      · exact h.invoking hcd hvs hk

theorem nextArgument (h : Alike m m') (hv : SameValue v w) {vs ws : List Value}
    (hvs : List.Forall₂ SameValue vs ws) {es fs : List RExpr} (hes : List.Forall₂ SameExpr es fs)
    (line : Nat) (env : Environment) (hk : SameValueCont k k') :
    SameStep settings (m.nextArgument settings line v vs es env k)
      (m'.nextArgument settings line w ws fs env k') := by
  cases hes with
  | nil => exact h.calling hv (List.forall₂_reverse_iff.2 hvs) line hk
  | cons he hes => exact h.evaluating he env (.argument hv hvs hes hk)

/-! ### Properties and classes -/

theorem takingProperty (h : Alike m m') (i : Nat) {c d : ClassObject} (hcd : SameClass c d)
    (x : Name) {next next' : Machine → Value → Step}
    (hnext : ∀ s t v w, Alike { m with store := s } { m' with store := t } → SameValue v w →
      SameStep settings (next { m with store := s } v) (next' { m' with store := t } w)) :
    SameStep settings (m.takingProperty i c x next) (m'.takingProperty i d x next') := by
  have hp := h.store.property? i hcd x.text
  unfold Machine.takingProperty
  generalize m.store.property? i c x.text = p at hp
  generalize m'.store.property? i d x.text = q at hp
  cases hp with
  | none => exact h.stop _
  | some hpq =>
    obtain ⟨hs, hv⟩ := h.store.take hpq (.instance i hcd)
    exact hnext _ _ _ _ (h.withStore hs) hv

/-- A class is made, and its name gets it for a value. -/
theorem makingClass (h : Alike m m') (x : String) {ms ns : Bindings Closure}
    (hms : ∀ y, Option.Rel SameClosure (ms.find? y) (ns.find? y))
    {parent parent' : Option ClassObject} (hparent : Option.Rel SameClass parent parent')
    (env : Environment) {k k' : StmtCont} (hk : SameStmtCont k k') :
    SameStep settings
      (((m.make (·.makeClass x ms parent)).2.change
        (·.define env x (m.make (·.makeClass x ms parent)).1)).completing .normal k)
      (((m'.make (·.makeClass x ns parent')).2.change
        (·.define env x (m'.make (·.makeClass x ns parent')).1)).completing .normal k') := by
  obtain ⟨hs, hv⟩ := h.store.makeClass x hms hparent
  exact (h.withStore (hs.define env x hv)).completing .normal hk

theorem declaringClass (h : Alike m m') (x : Name) {parent parent' : Option ClassObject}
    (hparent : Option.Rel SameClass parent parent') {ms ns : List (Method (Option Nat))}
    (hms : List.Forall₂ SameMethod ms ns) (env : Environment) {k k' : StmtCont}
    (hk : SameStmtCont k k') :
    SameStep settings (m.declaringClass x parent ms env k)
      (m'.declaringClass x parent' ns env k') := by
  cases hparent with
  | none => exact h.makingClass x.text (sameClosure_methodTable env hms) .none env hk
  | some hcd =>
    have htable : ∀ y, Option.Rel SameClosure
        ((Machine.methodTable (.nested ⟨m.store.size⟩ env) ms).find? y)
        ((Machine.methodTable (.nested ⟨m'.store.size⟩ env) ns).find? y) := by
      rw [h.store.size]
      exact sameClosure_methodTable _ hms
    have h' := h.withStore (h.store.bindOne env "super" (.class hcd))
    exact h'.makingClass x.text htable (.some hcd) env hk

/-! ### One step -/

/-- Variables and `this` are looked up. -/
theorem evaluate_repeatable {o : RExpr} (hr : isRepeatable o = true) :
    ∃ x ref t, ∀ (m : Machine) env k, m.evaluate o env k = m.lookingUp x ref t env k := by
  cases o with
  | var x ref => exact ⟨x.text, ref, x.token, fun _ _ _ => rfl⟩
  | this line ref => exact ⟨"this", ref, ⟨.keyword .this_, line⟩, fun _ _ _ => rfl⟩
  | _ => cases hr

/-- The property is read of the same receiver as before, with the same failures, and then the
operand is evaluated in both runs. -/
theorem rereading (h : Alike m m') {o : RExpr} {x : String} {ref : Option Nat} {t : Token}
    (ho : ∀ (m : Machine) env k, m.evaluate o env k = m.lookingUp x ref t env k) {i : Nat}
    {c d : ClassObject} (hcd : SameClass c d) {env : Environment}
    (hread : m'.store.read x ref t env = .ok (.instance i d)) (p : Name) (op : ArithOp) (line : Nat)
    {e f : RExpr} (he : SameExpr e f) (hk : SameValueCont k k') :
    SameStep settings
      (m.takingProperty i c p fun m current =>
        m.evaluating e env (.updateValue i p op line current k))
      (m'.evaluating (.binary (.get o p) (.arith op) line (.grouping f)) env
        (.setValue i p k')) := by
  -- the operator, the property and the receiver are looked at in turn
  refine .right (.right (.right ?_))
  show SameStep settings _ (Machine.evaluate { m' with focus := .evaluate o env _ } o env
    (.get p (.binaryLeft (.arith op) line (.grouping f) env (.setValue i p k'))))
  rw [ho, Machine.lookingUp_eq]
  dsimp only
  rw [hread]
  refine .right ?_
  show SameStep settings _ (Machine.takingProperty { m' with focus := _ } i d p fun m v =>
    m.delivering v (.binaryLeft (.arith op) line (.grouping f) env (.setValue i p k')))
  refine (h.withFocus m.focus _).takingProperty i hcd p fun s t v w hs hv => ?_
  exact .right (hs.evaluatingGrouping he env (.repeated hv hk))

/-- `r.p op= e` and `r.p = r.p op (e)`. -/
theorem updating (h : Alike m m') {o : RExpr} (hr : isRepeatable o = true) (p : Name)
    (op : ArithOp) (line : Nat) {e f : RExpr} (he : SameExpr e f) (env : Environment)
    (hk : SameValueCont k k') :
    SameStep settings (m.evaluate (.update o p op line e) env k)
      (m'.evaluate (.set o p (.binary (.get o p) (.arith op) line (.grouping f))) env k') := by
  obtain ⟨x, ref, t, ho⟩ := evaluate_repeatable hr
  have hread := h.store.read x ref t env
  refine .left (.right ?_)
  show SameStep settings
    (Machine.evaluate { m with focus := _ } o env (.updateObject p op line e env k))
    (Machine.evaluate { m' with focus := _ } o env
      (.setObject p (.binary (.get o p) (.arith op) line (.grouping f)) env k'))
  rw [ho, ho, Machine.lookingUp_eq, Machine.lookingUp_eq]
  dsimp only
  generalize m.store.read x ref t env = r at hread
  generalize hr' : m'.store.read x ref t env = r' at hread
  cases hread with
  | error e => exact .stop h.output
  | ok hv =>
    refine .left (.right ?_)
    cases hv with
    | «instance» i hcd =>
      exact (h.withFocus _ _).rereading ho hcd hr' p op line he hk
    | _ => exact .stop h.output

theorem evaluate (h : Alike m m') {e f : RExpr} (he : SameExpr e f) (env : Environment)
    (hk : SameValueCont k k') :
    SameStep settings (m.evaluate e env k) (m'.evaluate f env k') := by
  cases he with
  | literal l => exact h.delivering (ValueOf.related_ofLiteral l) hk
  | grouping he => exact h.evaluating he env hk
  | unary op line he => exact h.evaluating he env (.unary hk)
  | binary op line he he' => exact h.evaluating he env (.binaryLeft he' hk)
  | parentheses op line he he' => exact h.evaluating he env (.parentheses he' hk)
  | logical op line he he' => exact h.evaluating he env (.logical he' hk)
  | var x ref => exact h.lookingUp x.text ref x.token env hk
  | assign x ref he => exact h.evaluating he env (.assign hk)
  | call line he hes => exact h.evaluating he env (.callee hes hk)
  | get x he => exact h.evaluating he env (.get hk)
  | set x he he' => exact h.evaluating he env (.setObject he' hk)
  | update x op line he he' => exact h.evaluating he env (.updateObject he' hk)
  | repeated x op line hr he => exact h.updating hr x op line he env hk
  | this line ref => exact h.lookingUp "this" ref ⟨.keyword .this_, line⟩ env hk
  | super line ref x => exact h.lookingUpSuper ref x env hk
  | function line hcode =>
    obtain ⟨hs, hv⟩ := h.store.makeFunction (sameClosure_made hcode none env)
    exact (h.withStore hs).delivering hv hk

theorem execute (h : Alike m m') {s t : RStmt} (hs : SameStmt s t) (env : Environment)
    {k k' : StmtCont} (hk : SameStmtCont k k') :
    SameStep settings (m.execute s env k) (m'.execute t env k') := by
  cases hs with
  | expression he => exact h.evaluating he env (.discard hk)
  | print he => exact h.evaluating he env (.print hk)
  | var x he =>
    cases he with
    | none => exact (h.withStore (h.store.define env x.text .nil)).completing .normal hk
    | some he => exact h.evaluating he env (.define hk)
  | @block ss ts hss =>
    have hrest : SameStmtCont (.sequence ss (.nested ⟨m.store.size⟩ env) k)
        (.sequence ts (.nested ⟨m'.store.size⟩ env) k') := by
      rw [h.store.size]
      exact .sequence hss hk
    have hs : SameStore (m.store.enter env []).2 (m'.store.enter env []).2 :=
      h.store.enter env fun _ => .none
    exact (h.withStore hs).completing .normal hrest
  | branch he hyes hno => exact h.evaluating he env (.branch hyes hno hk)
  | loop he hbody => exact h.evaluating he env (.loopTest he hbody hk)
  | function x hcode =>
    obtain ⟨hs, hv⟩ := h.store.makeFunction (sameClosure_made hcode (some x.text) env)
    exact (h.withStore (hs.define env x.text hv)).completing .normal hk
  | ret line he =>
    cases he with
    | none => exact h.completing (.returned .nil) hk
    | some he => exact h.evaluating he env (.ret hk)
  | classDef x parent hms =>
    cases parent with
    | none => exact h.declaringClass x .none hms env hk
    | some parent => exact h.evaluating (.var parent.1 parent.2) env (.inherit hms hk)

theorem deliver (h : Alike m m') (hv : SameValue v w) (hk : SameValueCont k k') :
    SameStep settings (m.deliver settings v k) (m'.deliver settings w k') := by
  cases hk with
  | unary hk => exact h.deliveringResult (hv.unary _) _ hk
  | @binaryLeft op line e f env k k' he hk => exact h.evaluating he env (.binaryRight hv hk)
  | @parentheses op line e f env k k' he hk =>
    exact h.evaluatingGrouping he env (.binaryRight hv hk)
  | binaryRight hl hk => exact h.deliveringResult (hl.binary _ hv) _ hk
  | @logical op e f env k k' he hk =>
    simp only [Machine.deliver.eq_def]
    rw [hv.isDecidedBy]
    split
    · exact h.delivering hv hk
    · exact h.evaluating he env hk
  | @assign x ref env k k' hk => exact h.assigning x ref env hv hk
  | @callee line es fs env k k' hes hk => exact h.nextArgument hv .nil hes line env hk
  | @argument line f g vs ws es fs env k k' hf hvs hes hk =>
    exact h.nextArgument hf (.cons hv hvs) hes line env hk
  | @get x k k' hk =>
    cases hv with
    | «instance» i hcd =>
      simp only [Machine.deliver.eq_def]
      refine h.takingProperty i hcd x fun _ _ _ _ h' hv => ?_
      exact h'.delivering hv hk
    | _ => exact h.stop _
  | @setObject x e f env k k' he hk =>
    cases hv with
    | «instance» i hcd => exact h.evaluating he env (.setValue hk)
    | _ => exact h.stop _
  | setValue hk => exact (h.withStore (h.store.setField _ _ hv)).delivering hv hk
  | @updateObject x op line e f env k k' he hk =>
    cases hv with
    | «instance» i hcd =>
      simp only [Machine.deliver.eq_def]
      refine h.takingProperty i hcd x fun _ _ _ _ h' hv => ?_
      exact h'.evaluating he env (.updateValue hv hk)
    | _ => exact h.stop _
  | @updateValue i x op line u u' k k' hcurrent hk =>
    have hr := hcurrent.arith op hv
    simp only [Machine.deliver.eq_def]
    generalize op.apply u v = r at hr
    generalize op.apply u' w = r' at hr
    cases hr with
    | ok hr => exact (h.withStore (h.store.setField i x.text hr)).delivering hr hk
    | error f => exact h.stop _
  | @repeated i x op line u u' k k' hcurrent hk =>
    have hr := hcurrent.arith op hv
    simp only [Machine.deliver.eq_def, BinaryOp.apply]
    generalize op.apply u v = r at hr
    generalize op.apply u' w = r' at hr
    cases hr with
    | ok hr => exact .right ((h.withStore (h.store.setField i x.text hr)).delivering hr hk)
    | error f => exact h.stop _
  | discard hk => exact h.completing .normal hk
  | print hk =>
    refine .next ⟨⟨h.pending, h.store, ?_, h.depth⟩, .complete .normal hk⟩
    show m.output ++ v.display ++ "\n" = m'.output ++ w.display ++ "\n"
    rw [h.output, hv.display]
  | @define x env k k' hk =>
    exact (h.withStore (h.store.define env x hv)).completing .normal hk
  | ret hk => exact h.completing (.returned hv) hk
  | @branch s t no no' env k k' hyes hno hk =>
    simp only [Machine.deliver.eq_def]
    rw [hv.isTruthy]
    split
    · exact h.executing hyes env hk
    · cases hno with
      | none => exact h.completing .normal hk
      | some hno => exact h.executing hno env hk
  | @loopTest e f s t env k k' he hs hk =>
    simp only [Machine.deliver.eq_def]
    rw [hv.isTruthy]
    split
    · exact h.executing hs env (.loopBody he hs hk)
    · exact h.completing .normal hk
  | @inherit x y ms ns env k k' hms hk =>
    cases hv with
    | «class» hcd => exact h.declaringClass x (.some hcd) hms env hk
    | _ => exact h.stop _

/-- What a call answers. -/
theorem answer (h : Alike m m') {c c' : Completion} (hc : SameCompletion c c') {r r' : CallResult}
    (hr : SameResult r r') :
    (∃ v w, m.answer c r = .ok v ∧ m'.answer c' r' = .ok w ∧ SameValue v w) ∨
      ∃ f, m.answer c r = .error f ∧ m'.answer c' r' = .error f := by
  cases hr with
  | returned =>
    cases hc with
    | normal => exact .inl ⟨_, _, rfl, rfl, .nil⟩
    | returned hv => exact .inl ⟨_, _, rfl, rfl, hv⟩
  | receiver env => exact h.store.getAt env 0 "this"
  | made hv => exact .inl ⟨_, _, rfl, rfl, hv⟩

theorem complete (h : Alike m m') {c c' : Completion} (hc : SameCompletion c c')
    {k k' : StmtCont} (hk : SameStmtCont k k') :
    SameStep settings (m.complete c k) (m'.complete c' k') := by
  cases hk with
  | @sequence ss ts env k k' hss hk =>
    cases hc with
    | normal =>
      cases hss with
      | nil => exact h.completing .normal hk
      | cons hs hss => exact h.executing hs env (.sequence hss hk)
    | returned hv => exact h.completing (.returned hv) hk
  | @loopBody e f s t env k k' he hs hk =>
    cases hc with
    | normal => exact h.evaluating he env (.loopTest he hs hk)
    | returned hv => exact h.completing (.returned hv) hk
  | call hr hk =>
    simp only [Machine.complete.eq_def]
    rcases h.answer hc hr with ⟨v, w, hv, hw, hvw⟩ | ⟨f, hv, hw⟩
    · rw [hv, hw]
      exact .next ⟨⟨h.pending, h.store, h.output, congrArg (· - 1) h.depth⟩, .deliver hvw hk⟩
    · rw [hv, hw]
      exact h.stop _
  | finish =>
    simp only [Machine.complete.eq_def]
    have hp := h.pending
    generalize m.pending = ss at hp
    generalize m'.pending = ts at hp
    cases hp with
    | nil => exact h.stop _
    | cons hs hss => exact .next ⟨⟨hss, h.store, h.output, h.depth⟩, .execute hs .finish⟩

end Alike

/-- From states that belong together, both runs come to states that do, or to the same end. -/
theorem Together.step (settings : Settings) {m m' : Machine} (h : Together m m') :
    SameStep settings (m.step settings) (m'.step settings) := by
  obtain ⟨h, hfocus⟩ := h
  unfold Machine.step
  generalize m.focus = focus at hfocus
  generalize m'.focus = focus' at hfocus
  cases hfocus with
  | @evaluate e f env k k' he hk => exact h.evaluate he env hk
  | deliver hv hk => exact h.deliver hv hk
  | @execute s t env k k' hs hk => exact h.execute hs env hk
  | complete hc hk => exact h.complete hc hk

end

end Expansion
end LoxScript
