import LoxScript.Proofs.Joined.States

/-!
Steps on other lines.

A run on other lines takes the same steps, with more statements at the end of the program, and after
more output.  Only at the end of a program can it tell the difference: where there are more
statements, it goes on with them.
-/

namespace LoxScript
namespace Renumber

/-- The same step on other lines, but not one that finishes the program. -/
inductive SameStep (f : Nat → Nat) (later : List RStmt) (earlier : String) : Step → Step → Prop
  | next (m : Machine) : SameStep f later earlier (.next m) (.next (machine f later earlier m))
  | stop (m : Machine) {e : Ending} : e ≠ .finished →
      SameStep f later earlier (.stop m e) (.stop (machine f later earlier m) (ending f e))

/-! ### Changes of the store -/

section
variable (f : Nat → Nat) (later : List RStmt) (earlier : String) (m : Machine)

theorem change_machine {g g' : Store → Store} (h : g' (store f m.store) = store f (g m.store)) :
    (machine f later earlier m).change g' = machine f later earlier (m.change g) :=
  congrArg (fun s => { machine f later earlier m with store := s }) h

theorem make_machine {α β : Type} {F : α → β} {g : Store → α × Store} {g' : Store → β × Store}
    (h : g' (store f m.store) = (F (g m.store).1, store f (g m.store).2)) :
    (machine f later earlier m).make g' =
      (F (m.make g).1, machine f later earlier (m.make g).2) :=
  congrArg (fun p => (p.1, { machine f later earlier m with store := p.2 })) h

theorem change_define (e : Environment) (x : String) (v : Value) :
    (machine f later earlier m).change (·.define e x (value f v)) =
      machine f later earlier (m.change (·.define e x v)) :=
  change_machine f later earlier m (define_store f m.store e x v)

theorem change_setField (i : Nat) (x : String) (v : Value) :
    (machine f later earlier m).change (·.setField i x (value f v)) =
      machine f later earlier (m.change (·.setField i x v)) :=
  change_machine f later earlier m (setField_store f m.store i x v)

theorem make_enter (outer : Environment) (own : Bindings Value) :
    (machine f later earlier m).make (·.enter outer (own.mapValues (value f))) =
      ((m.make (·.enter outer own)).1, machine f later earlier (m.make (·.enter outer own)).2) :=
  make_machine f later earlier (F := id) m (enter_store f m.store outer own)

theorem make_makeFunction (c : Closure) :
    (machine f later earlier m).make (·.makeFunction (closure f c)) =
      (value f (m.make (·.makeFunction c)).1,
        machine f later earlier (m.make (·.makeFunction c)).2) :=
  make_machine f later earlier m (makeFunction_store f m.store c)

theorem make_makeClass (x : String) (ms : Bindings Closure) (parent : Option ClassObject) :
    (machine f later earlier m).make
        (·.makeClass x (ms.mapValues (closure f)) (parent.map (classObject f))) =
      (value f (m.make (·.makeClass x ms parent)).1,
        machine f later earlier (m.make (·.makeClass x ms parent)).2) :=
  make_machine f later earlier m (makeClass_store f m.store x ms parent)

theorem make_makeInstance (c : ClassObject) :
    (machine f later earlier m).make (·.makeInstance (classObject f c)) =
      (value f (m.make (·.makeInstance c)).1,
        machine f later earlier (m.make (·.makeInstance c)).2) :=
  make_machine f later earlier m (makeInstance_store f m.store c)

theorem make_bind (c : Closure) (receiver : Value) :
    (machine f later earlier m).make (·.bind (closure f c) (value f receiver)) =
      (closure f (m.make (·.bind c receiver)).1,
        machine f later earlier (m.make (·.bind c receiver)).2) :=
  make_machine f later earlier m (bind_store f m.store c receiver)

theorem make_bindValue (c : Closure) (receiver : Value) :
    (machine f later earlier m).make (·.bindValue (closure f c) (value f receiver)) =
      (value f (m.make (·.bindValue c receiver)).1,
        machine f later earlier (m.make (·.bindValue c receiver)).2) :=
  make_machine f later earlier m (bindValue_store f m.store c receiver)

theorem print_machine (line : String) :
    (machine f later earlier m).print line = machine f later earlier (m.print line) := by
  simp only [Machine.print_eq, machine, String.append_assoc]

theorem make_take (p : Store.Property) (receiver : Value) :
    (machine f later earlier m).make (·.take (property f p) (value f receiver)) =
      (value f (m.make (·.take p receiver)).1,
        machine f later earlier (m.make (·.take p receiver)).2) :=
  make_machine f later earlier m (take_store f m.store p receiver)

end

section
variable {f : Nat → Nat} {later : List RStmt} {earlier : String} (m : Machine)

/-! ### Ends of a run -/

theorem sameStep_failing (g : Fault) (t : Token) :
    SameStep f later earlier (m.failing g t)
      ((machine f later earlier m).failing g (t.renumber f)) :=
  .stop m nofun

theorem sameStep_unreachable (g : ReachFault) :
    SameStep f later earlier (.stop m (.unreachable g))
      (.stop (machine f later earlier m) (.unreachable g)) :=
  .stop m nofun

theorem sameStep_deliveringResult (r : Except Fault Value) (t : Token) (k : ValueCont) :
    SameStep f later earlier (m.deliveringResult r t k)
      ((machine f later earlier m).deliveringResult (r.map (value f)) (t.renumber f)
        (valueCont f k)) := by
  cases r with
  | ok v => exact .next _
  | error g => exact sameStep_failing m g t

/-! ### Names -/

theorem getAt_machine (env : Environment) (d : Nat) (x : String) :
    (machine f later earlier m).store.scopes.getAt env d x =
      (m.store.scopes.getAt env d x).map (value f) :=
  Scopes.getAt_map (value f) m.store.scopes env d x

theorem sameStep_lookingUp (x : String) (ref : Option Nat) (t : Token) (env : Environment)
    (k : ValueCont) :
    SameStep f later earlier (m.lookingUp x ref t env k)
      ((machine f later earlier m).lookingUp x ref (t.renumber f) env (valueCont f k)) := by
  cases ref with
  | some d =>
    simp only [Machine.lookingUp, getAt_machine]
    cases m.store.scopes.getAt env d x with
    | ok v => exact .next _
    | error g => exact sameStep_unreachable m g
  | none =>
    have h : (machine f later earlier m).store.scopes.get? Store.globals x =
        (m.store.scopes.get? Store.globals x).map (value f) :=
      Scopes.get?_map (value f) m.store.scopes ⟨0⟩ x
    simp only [Machine.lookingUp, h]
    cases m.store.scopes.get? Store.globals x with
    | some v => exact .next _
    | none => exact sameStep_failing m _ t

theorem sameStep_assigning (x : Name) (ref : Option Nat) (env : Environment) (v : Value)
    (k : ValueCont) :
    SameStep f later earlier (m.assigning x ref env v k)
      ((machine f later earlier m).assigning (x.renumber f) ref env (value f v)
        (valueCont f k)) := by
  cases ref with
  | some d =>
    simp only [Machine.assigning]
    cases env.ancestor? d with
    | some e =>
      dsimp only
      rw [Name.text_renumber, change_define]
      exact .next _
    | none => exact sameStep_unreachable m _
  | none =>
    have h : (machine f later earlier m).store.binds Store.globals (x.renumber f).text =
        m.store.binds Store.globals x.text :=
      binds_store f m.store Store.globals x.text
    simp only [Machine.assigning, h]
    split
    · rw [Name.text_renumber, change_define]
      exact .next _
    · exact sameStep_failing m _ x.token

theorem sameStep_lookingUpSuper (ref : Option Nat) (x : Name) (env : Environment) (k : ValueCont) :
    SameStep f later earlier (m.lookingUpSuper ref x env k)
      ((machine f later earlier m).lookingUpSuper ref (x.renumber f) env (valueCont f k)) := by
  cases ref with
  | none => exact sameStep_unreachable m _
  | some d =>
    simp only [Machine.lookingUpSuper, getAt_machine]
    cases m.store.scopes.getAt env d "super" with
    | error g => exact sameStep_unreachable m g
    | ok parent =>
      cases m.store.scopes.getAt env (d - 1) "this" with
      | error g => cases parent <;> exact sameStep_unreachable m g
      | ok receiver =>
        cases parent with
        | «class» c =>
          have hc : value f (.class c) = .class (classObject f c) := rfl
          have hx : (x.renumber f).text = x.text := rfl
          simp only [Except.map, hc, hx, method?_classObject]
          cases c.method? x.text with
          | none => exact sameStep_failing m _ x.token
          | some g =>
            simp only [Option.map_some, make_bindValue]
            exact .next _
        | _ => exact sameStep_unreachable m _

/-! ### Calls and properties -/

theorem foldl_put {α β γ : Type} (F : α → γ) (key : β → String) (v : β → α) (l : List β)
    (b : Bindings α) :
    l.foldl (fun b p => b.put (key p) (F (v p))) (b.mapValues F) =
      (l.foldl (fun b p => b.put (key p) (v p)) b).mapValues F := by
  induction l generalizing b with
  | nil => rfl
  | cons p rest ih => rw [List.foldl_cons, List.foldl_cons, Bindings.put_mapValues, ih]

theorem parameterBindings_closure (c : Closure) (arguments : List Value) :
    Machine.parameterBindings (closure f c) (arguments.map (value f)) =
      (Machine.parameterBindings c arguments).mapValues (value f) := by
  unfold Machine.parameterBindings
  rw [show (closure f c).code.params = _ from code_params f c.code, List.zip_map, List.foldl_map]
  exact foldl_put (value f) (fun p : Name × Value => p.1.text) (·.2) _ []

theorem sameStep_entering (c : Closure) (arguments : List Value) (result : CallResult)
    (k : ValueCont) :
    SameStep f later earlier (m.entering c arguments result k)
      ((machine f later earlier m).entering (closure f c) (arguments.map (value f))
        (callResult f result) (valueCont f k)) := by
  have hbody : (closure f c).code.body = stmts f c.code.body := code_body f c.code
  simp only [Machine.entering, parameterBindings_closure, hbody,
    show (closure f c).environment = c.environment from rfl, make_enter]
  exact .next _

theorem sameStep_invoking (settings : Settings) (c : Callable) (arguments : List Value)
    (k : ValueCont) :
    SameStep f later earlier (m.invoking settings c arguments k)
      ((machine f later earlier m).invoking settings (callable f c) (arguments.map (value f))
        (valueCont f k)) := by
  cases c with
  | native g =>
    cases g
    exact .next _
  | function c =>
    have hresult : (if (closure f c).isInitializer then
          CallResult.receiver (closure f c).environment else .returned) =
        callResult f (if c.isInitializer then .receiver c.environment else .returned) := by
      show (if c.isInitializer then CallResult.receiver c.environment else .returned) = _
      split <;> rfl
    have h : SameStep f later earlier _ _ := sameStep_entering m c arguments
      (if c.isInitializer then .receiver c.environment else .returned) k
    rwa [← hresult] at h
  | «class» c =>
    simp only [callable, Machine.invoking, make_makeInstance, initializer?_classObject]
    cases c.initializer? with
    | none => exact .next _
    | some g =>
      simp only [Option.map_some, make_bind]
      exact sameStep_entering _ _ arguments (.made _) k

theorem sameStep_calling (settings : Settings) (callee : Value) (arguments : List Value)
    (line : Nat) (k : ValueCont) :
    SameStep f later earlier (m.calling settings callee arguments line k)
      ((machine f later earlier m).calling settings (value f callee) (arguments.map (value f))
        (f line) (valueCont f k)) := by
  simp only [Machine.calling, callable?_value]
  cases callee.callable? with
  | none => exact sameStep_failing m _ ⟨.symbol .rightParen, line⟩
  | some c =>
    simp only [Option.map_some, arity_callable, List.length_map]
    split
    · exact sameStep_failing m _ ⟨.symbol .rightParen, line⟩
    · rw [show (machine f later earlier m).depth = m.depth from rfl]
      split
      · exact sameStep_failing m _ ⟨.symbol .rightParen, line⟩
      · exact sameStep_invoking m settings c arguments k

theorem sameStep_nextArgument (settings : Settings) (line : Nat) (callee : Value)
    (before : List Value) (es : List RExpr) (env : Environment) (k : ValueCont) :
    SameStep f later earlier (m.nextArgument settings line callee before es env k)
      ((machine f later earlier m).nextArgument settings (f line) (value f callee)
        (before.map (value f)) (exprs f es) env (valueCont f k)) := by
  cases es with
  | nil =>
    show SameStep f later earlier _ (Machine.calling _ _ _ (before.map (value f)).reverse _ _)
    rw [← List.map_reverse]
    exact sameStep_calling m settings callee before.reverse line k
  | cons e es => exact .next _

theorem sameStep_takingProperty (i : Nat) (c : ClassObject) (x : Name)
    {next next' : Machine → Value → Step}
    (h : ∀ m v, SameStep f later earlier (next m v)
      (next' (machine f later earlier m) (value f v))) :
    SameStep f later earlier (m.takingProperty i c x next)
      ((machine f later earlier m).takingProperty i (classObject f c) (x.renumber f) next') := by
  have hp : (machine f later earlier m).store.property? i (classObject f c) (x.renumber f).text =
      (m.store.property? i c x.text).map (property f) := property?_store f m.store i c x.text
  simp only [Machine.takingProperty, hp]
  cases m.store.property? i c x.text with
  | none => exact sameStep_failing m _ x.token
  | some p =>
    have hm := make_take f later earlier m p (.instance i c)
    simp only [Option.map_some]
    rw [show ValueOf.instance i (classObject f c) = value f (.instance i c) from rfl, hm]
    exact h _ _

/-! ### Declarations -/

theorem methodTable_methods (env : Environment) (ms : List (Method (Option Nat))) :
    Machine.methodTable env (methods f ms) =
      (Machine.methodTable env ms).mapValues (closure f) := by
  have hms : methods f ms = ms.map fun g => .mk (g.name.renumber f) (code f g.code) := by
    induction ms with
    | nil => rfl
    | cons g rest ih =>
      obtain ⟨x, c⟩ := g
      rw [methods, ih]
      rfl
  unfold Machine.methodTable
  rw [hms, List.foldl_map]
  exact foldl_put (closure f) (fun g : Method (Option Nat) => g.name.text)
    (fun g => { name := some g.name.text, code := g.code, environment := env,
                isInitializer := g.name.text == "init" }) ms []

theorem sameStep_declaringClass (x : Name) (parent : Option ClassObject)
    (ms : List (Method (Option Nat))) (env : Environment) (k : StmtCont) :
    SameStep f later earlier (m.declaringClass x parent ms env k)
      ((machine f later earlier m).declaringClass (x.renumber f) (parent.map (classObject f))
        (methods f ms) env (stmtCont f k)) := by
  cases parent with
  | none =>
    have hc := make_makeClass f later earlier m x.text (Machine.methodTable env ms) none
    rw [Option.map_none] at hc ⊢
    simp only [Machine.declaringClass, methodTable_methods, Name.text_renumber, hc, change_define]
    exact .next _
  | some c =>
    have he := make_enter f later earlier m env [("super", .class c)]
    rw [show Bindings.mapValues (value f) [("super", .class c)] =
      [("super", .class (classObject f c))] from rfl] at he
    have hc := make_makeClass f later earlier (m.make (·.enter env [("super", .class c)])).2 x.text
      (Machine.methodTable (m.make (·.enter env [("super", .class c)])).1 ms) (some c)
    rw [Option.map_some] at hc ⊢
    simp only [Machine.declaringClass, he, methodTable_methods, hc, change_define,
      Name.text_renumber]
    exact .next _

/-! ### Every step -/

theorem sameStep_evaluate (e : RExpr) (env : Environment) (k : ValueCont) :
    SameStep f later earlier (m.evaluate e env k)
      ((machine f later earlier m).evaluate (expr f e) env (valueCont f k)) := by
  cases e with
  | literal l =>
    show SameStep f later earlier _ (Machine.delivering _ (.ofLiteral l) _)
    rw [← value_ofLiteral f]
    exact .next _
  | var x ref => exact sameStep_lookingUp m x.text ref x.token env k
  | this line ref => exact sameStep_lookingUp m "this" ref ⟨.keyword .this_, line⟩ env k
  | super line ref x => exact sameStep_lookingUpSuper m ref x env k
  | function line c =>
    have h := make_makeFunction f later earlier m
      { name := none, code := c, environment := env, isInitializer := false }
    simp only [closure] at h
    simp only [expr, Machine.evaluate, h]
    exact .next _
  | _ => exact .next _

theorem sameStep_deliver (settings : Settings) (v : Value) (k : ValueCont) :
    SameStep f later earlier (m.deliver settings v k)
      ((machine f later earlier m).deliver settings (value f v) (valueCont f k)) := by
  cases k with
  | unary op line k =>
    show SameStep f later earlier _ (Machine.deliveringResult _ (op.apply (value f v)) _ _)
    rw [unary_value]
    exact sameStep_deliveringResult m _ ⟨.symbol op.symbol, line⟩ k
  | binaryRight op line left k =>
    show SameStep f later earlier _
      (Machine.deliveringResult _ (op.apply (value f left) (value f v)) _ _)
    rw [binary_value]
    exact sameStep_deliveringResult m _ ⟨.symbol op.symbol, line⟩ k
  | logical op right env k =>
    simp only [valueCont, Machine.deliver, isDecidedBy_value]
    split <;> exact .next _
  | assign x ref env k => exact sameStep_assigning m x ref env v k
  | callee line es env k => exact sameStep_nextArgument m settings line v [] es env k
  | argument line callee before es env k =>
    exact sameStep_nextArgument m settings line callee (v :: before) es env k
  | get x k =>
    cases v with
    | «instance» i c =>
      simp only [valueCont, value, Machine.deliver]
      exact sameStep_takingProperty m i c x fun m v => .next _
    | _ => exact sameStep_failing m _ x.token
  | setObject x e env k =>
    cases v with
    | «instance» i c => exact .next _
    | _ => exact sameStep_failing m _ x.token
  | setValue i x k =>
    simp only [valueCont, Machine.deliver, Name.text_renumber, change_setField]
    exact .next _
  | updateObject x op line e env k =>
    cases v with
    | «instance» i c =>
      simp only [valueCont, value, Machine.deliver]
      exact sameStep_takingProperty m i c x fun m v => .next _
    | _ => exact sameStep_failing m _ x.token
  | updateValue i x op line current k =>
    simp only [valueCont, Machine.deliver, arith_value]
    cases op.apply current v with
    | ok w =>
      simp only [Except.map, Name.text_renumber, change_setField]
      exact .next _
    | error g => exact sameStep_failing m g ⟨.symbol op.symbol, line⟩
  | print k =>
    simp only [valueCont, Machine.deliver, display_value, print_machine]
    exact .next _
  | define x env k =>
    simp only [valueCont, Machine.deliver, change_define]
    exact .next _
  | branch yes no env k =>
    simp only [valueCont, Machine.deliver.eq_def, isTruthy_value]
    split
    · exact .next _
    · cases no <;> exact .next _
  | loopTest condition body env k =>
    simp only [valueCont, Machine.deliver, isTruthy_value]
    split <;> exact .next _
  | inherit x y ms env k =>
    cases v with
    | «class» c => exact sameStep_declaringClass m x (some c) ms env k
    | _ => exact sameStep_failing m _ y.token
  | _ => exact .next _

theorem sameStep_execute (s : RStmt) (env : Environment) (k : StmtCont) :
    SameStep f later earlier (m.execute s env k)
      ((machine f later earlier m).execute (stmt f s) env (stmtCont f k)) := by
  cases s with
  | var x initial =>
    cases initial with
    | none =>
      have h := change_define f later earlier m env x.text .nil
      simp only [value] at h
      simp only [stmt, optionalExpr, Machine.execute, Name.text_renumber, h]
      exact .next _
    | some e => exact .next _
  | block body =>
    have h := make_enter f later earlier m env []
    simp only [Bindings.mapValues, List.map_nil] at h
    simp only [stmt, Machine.execute, h]
    exact .next _
  | function x c =>
    have h := make_makeFunction f later earlier m
      { name := some x.text, code := c, environment := env, isInitializer := false }
    simp only [closure] at h
    simp only [stmt, Machine.execute, Name.text_renumber, h, change_define]
    exact .next _
  | ret line e => cases e <;> exact .next _
  | classDef x parent ms =>
    cases parent with
    | none => exact sameStep_declaringClass m x none ms env k
    | some parent => exact .next _
  | _ => exact .next _

theorem answer_machine (c : Completion) (result : CallResult) :
    (machine f later earlier m).answer (completion f c) (callResult f result) =
      (m.answer c result).map (value f) := by
  cases result with
  | returned => cases c <;> rfl
  | receiver env => exact getAt_machine m env 0 "this"
  | made v => rfl

theorem sameStep_complete (c : Completion) (k : StmtCont) (hk : k ≠ .finish) :
    SameStep f later earlier (m.complete c k)
      ((machine f later earlier m).complete (completion f c) (stmtCont f k)) := by
  cases k with
  | sequence ss env k => cases c <;> cases ss <;> exact .next _
  | loopBody e s env k => cases c <;> exact .next _
  | call result k =>
    simp only [stmtCont, Machine.complete.eq_def, answer_machine]
    cases m.answer c result with
    | ok v => exact .next _
    | error g => exact sameStep_unreachable m g
  | finish => exact absurd rfl hk

/-- Every step is the same, but for the one after the last statement. -/
theorem sameStep_step (settings : Settings) :
    SameStep f later earlier (m.step settings) ((machine f later earlier m).step settings) ∨
      ∃ c, m.focus = .complete c .finish ∧ m.pending = [] := by
  obtain ⟨focus, pending, store, output, depth⟩ := m
  cases focus with
  | evaluate e env k => exact .inl (sameStep_evaluate _ e env k)
  | deliver v k => exact .inl (sameStep_deliver _ settings v k)
  | execute s env k => exact .inl (sameStep_execute _ s env k)
  | complete c k =>
    by_cases hk : k = .finish
    · subst hk
      cases pending with
      | nil => exact .inr ⟨c, rfl, rfl⟩
      | cons s rest => exact .inl (.next _)
    · exact .inl (sameStep_complete _ c k hk)

end

/-! ### Runs -/

theorem step_finish {m : Machine} {c : Completion} (settings : Settings)
    (hf : m.focus = .complete c .finish) (hp : m.pending = []) :
    m.step settings = .stop m .finished := by
  obtain ⟨focus, pending, store, output, depth⟩ := m
  cases hf
  cases hp
  rfl

section
variable (f : Nat → Nat) (later : List RStmt) (earlier : String) (settings : Settings)

/-- The whole run on other lines. -/
theorem run_machine (m : Machine) (n : Nat) :
    (machine f [] earlier m).run settings n =
      (machine f [] earlier (m.run settings n).1, (m.run settings n).2.map (ending f)) := by
  induction n generalizing m with
  | zero => rfl
  | succ n ih =>
    rw [Machine.run, Machine.run]
    rcases sameStep_step (f := f) m settings with h | ⟨c, hf, hp⟩
    · generalize m.step settings = r at h
      generalize (machine f [] earlier m).step settings = r' at h
      cases h with
      | next m' => exact ih m'
      | stop m' he => rfl
    · have hf' : (machine f [] earlier m).focus = .complete (completion f c) .finish :=
        congrArg (focus f) hf
      have hp' : (machine f [] earlier m).pending = [] := by
        show stmts f m.pending ++ [] = []
        rw [hp]
        rfl
      rw [step_finish settings hf hp, step_finish settings hf' hp']
      rfl

/-- A run that does not come to the end of the program is not changed by more statements there. -/
theorem run_machine_of_ne (m : Machine) (n : Nat) (h : (m.run settings n).2 ≠ some .finished) :
    (machine f later earlier m).run settings n =
      (machine f later earlier (m.run settings n).1, (m.run settings n).2.map (ending f)) := by
  induction n generalizing m with
  | zero => rfl
  | succ n ih =>
    rw [Machine.run] at h ⊢
    have hs : SameStep f later earlier _ _ ∨ _ := sameStep_step m settings
    rcases hs with hs | ⟨c, hf, hp⟩
    · rw [Machine.run]
      generalize m.step settings = r at h hs
      generalize (machine f later earlier m).step settings = r' at hs
      cases hs with
      | next m' => exact ih m' h
      | stop m' he => rfl
    · rw [step_finish settings hf hp] at h
      exact absurd rfl h

/-- A run that comes to the end of the program comes to the statements there. -/
theorem run_machine_finished {m : Machine} {n : Nat} (h : (m.run settings n).2 = some .finished) :
    ∃ i c, (machine f later earlier m).run settings i =
        (machine f later earlier (m.run settings n).1, none) ∧
      (m.run settings n).1.focus = .complete c .finish ∧ (m.run settings n).1.pending = [] := by
  induction n generalizing m with
  | zero => cases h
  | succ n ih =>
    rw [Machine.run] at h ⊢
    have hs : SameStep f later earlier _ _ ∨ _ := sameStep_step m settings
    rcases hs with hs | ⟨c, hf, hp⟩
    · generalize m.step settings = r at h hs
      generalize hr' : (machine f later earlier m).step settings = r' at hs
      cases hs with
      | next m' =>
        obtain ⟨i, c, hrun, hfocus⟩ := ih h
        refine ⟨i + 1, c, ?_, hfocus⟩
        rw [Machine.run, hr']
        exact hrun
      | stop m' he => exact absurd (Option.some.inj h) he
    · rw [step_finish settings hf hp]
      exact ⟨0, c, rfl, hf, hp⟩

/-- How the last statement has ended is not looked at any more. -/
theorem run_finish (c c' : Completion) (pending : List RStmt) (s : Store) (output : String)
    (depth n : Nat) :
    ((Machine.mk (.complete c .finish) pending s output depth).run settings n).2 =
        ((Machine.mk (.complete c' .finish) pending s output depth).run settings n).2 ∧
      ((Machine.mk (.complete c .finish) pending s output depth).run settings n).1.output =
        ((Machine.mk (.complete c' .finish) pending s output depth).run settings n).1.output ∧
      ((Machine.mk (.complete c .finish) pending s output depth).run settings n).1.store =
        ((Machine.mk (.complete c' .finish) pending s output depth).run settings n).1.store := by
  cases n with
  | zero => exact ⟨rfl, rfl, rfl⟩
  | succ n => cases pending <;> exact ⟨rfl, rfl, rfl⟩

end
end Renumber
end LoxScript
