import LoxScript.Proofs.Binding.Steps

/-!
Where the values and the calls of a running program come from.

A state holds values in what it looks at, in what waits, in scopes and in fields.  After a step it
holds what it held before, plain values, the one object that the step makes, and the one call that
it begins.  What a step does to the store is said once here as well: a scope that was there keeps
its bindings unless the step writes to it.
-/

namespace LoxScript

/-- Something that a state holds: a value, or a call whose body has not ended. -/
inductive Item where
  | value (v : Value)
  | call (result : CallResult) (next : ValueCont)

def CallResult.items : CallResult → List Item
  | .made v => [.value v]
  | .returned | .receiver _ => []

def Completion.items : Completion → List Item
  | .normal => []
  | .returned v => [.value v]

mutual

def ValueCont.items : ValueCont → List Item
  | .unary _ _ k | .binaryLeft _ _ _ _ k | .logical _ _ _ k | .assign _ _ _ k | .callee _ _ _ k
  | .get _ k | .setObject _ _ _ k | .setValue _ _ k | .updateObject _ _ _ _ _ k => k.items
  | .binaryRight _ _ left k => .value left :: k.items
  | .argument _ callee earlier _ _ k => .value callee :: (earlier.map .value ++ k.items)
  | .updateValue _ _ _ _ current k => .value current :: k.items
  | .discard k | .print k | .define _ _ k | .ret k | .branch _ _ _ k | .loopTest _ _ _ k
  | .inherit _ _ _ _ k => k.items

def StmtCont.items : StmtCont → List Item
  | .sequence _ _ k | .loopBody _ _ _ k => k.items
  | .call result k => .call result k :: (result.items ++ k.items)
  | .finish => []

end

def Focus.items : Focus → List Item
  | .evaluate _ _ k => k.items
  | .deliver v k => .value v :: k.items
  | .execute _ _ k => k.items
  | .complete c k => c.items ++ k.items

/-- The value of a name in some scope, or of a field of some instance. -/
def Store.Holds (s : Store) (v : Value) : Prop :=
  (∃ i x, s.find? i x = some v) ∨ ∃ i x, (s.fieldsOf i).find? x = some v

namespace Machine

inductive Has (m : Machine) : Item → Prop
  | focus {it : Item} : it ∈ m.focus.items → Has m it
  | store {v : Value} : m.store.Holds v → Has m (.value v)

/-- All arguments of a call are there: what is called, with what, and what is done after it. -/
inductive Invokes (m : Machine) : Value → List Value → ValueCont → Prop
  | bare {v line env k} : m.focus = .deliver v (.callee line [] env k) → Invokes m v [] k
  | applied {v line callee earlier env k} :
      m.focus = .deliver v (.argument line callee earlier [] env k) →
      Invokes m callee (v :: earlier).reverse k

/-- A method becomes a value, with its receiver. -/
inductive Takes (m : Machine) : Closure → Value → Prop
  | get {i c x k f} : m.focus = .deliver (.instance i c) (.get x k) →
      m.store.property? i c x.text = some (.method f) → Takes m f (.instance i c)
  | update {i c x op line e env k f} :
      m.focus = .deliver (.instance i c) (.updateObject x op line e env k) →
      m.store.property? i c x.text = some (.method f) → Takes m f (.instance i c)
  | super {line d x env k c f r} : m.focus = .evaluate (.super line (some d) x) env k →
      m.store.scopes.getAt env d "super" = .ok (.class c) →
      m.store.scopes.getAt env (d - 1) "this" = .ok r → c.method? x.text = some f → Takes m f r

/-- A method in the scope that the step makes for its receiver. -/
def bound (m : Machine) (f : Closure) : Closure := { f with environment := m.inside f.environment }

/-- A function that is written as such is made in the environment around it. -/
inductive Closes (m : Machine) : Closure → Prop
  | expression {line code env k} : m.focus = .evaluate (.function line code) env k →
      Closes m { name := none, code, environment := env, isInitializer := false }
  | declaration {x code env k} : m.focus = .execute (.function x code) env k →
      Closes m { name := some x.text, code, environment := env, isInitializer := false }

/-- The step makes an object. -/
inductive Creates (m : Machine) : Value → Prop
  | function {f} : m.Closes f → Creates m (.function m.store.identities f)
  | method {f r} : m.Takes f r → Creates m (.function m.store.identities (m.bound f))
  | base {x ms env k} : m.focus = .execute (.classDef x none ms) env k →
      Creates m (.class (.mk m.store.identities x.text (methodTable env ms) none))
  | derived {c x y ms env k} : m.focus = .deliver (.class c) (.inherit x y ms env k) →
      Creates m (.class (.mk m.store.identities x.text (methodTable (m.inside env) ms) (some c)))
  | instance {c args k} : m.Invokes (.class c) args k →
      Creates m (.instance m.store.fields.size c)

/-- The body of a function is begun: its arguments, what the call answers when the body has ended,
and what is done after it. -/
inductive Starts (m : Machine) : Closure → List Value → CallResult → ValueCont → Prop
  | function {i f args k} : m.Invokes (.function i f) args k →
      Starts m f args (if f.isInitializer then .receiver f.environment else .returned) k
  | initializer {c f args k} : m.Invokes (.class c) args k → c.initializer? = some f →
      Starts m (m.bound f) args (.made (.instance m.store.fields.size c)) k

/-- A name may be bound in the innermost scope of the environment. -/
inductive Writes (m : Machine) : Environment → Prop
  | declared {s env k x} : m.focus = .execute s env k → s.declares? = some x → Writes m env
  | initial {v x env k} : m.focus = .deliver v (.define x env k) → Writes m env
  | inherit {v x y ms env k} : m.focus = .deliver v (.inherit x y ms env k) → Writes m env
  | local {v x d env k e} : m.focus = .deliver v (.assign x (some d) env k) →
      env.ancestor? d = some e → Writes m e
  | global {v x env k} : m.focus = .deliver v (.assign x none env k) → Writes m Store.globals

/-- What the state after a step may hold. -/
inductive Yields (m : Machine) : Item → Prop
  | kept {it} : m.Has it → Yields m it
  | plain {v : Value} : v.IsPlain → Yields m (.value v)
  | created {v} : m.Creates v → Yields m (.value v)
  | started {f args r k} : m.Starts f args r k → Yields m (.call r k)

/-- The step to the second state begins the body of a function, with an argument for each of its
parameters. -/
def EntersBody (m m' : Machine) : Prop :=
  ∃ f args r k e, m.Starts f args r k ∧ args.length = f.code.params.length ∧
    m'.focus = .complete .normal (.sequence f.code.body e (.call r k)) ∧
    m'.store.scopes.bindings e.scope = parameterBindings f args

/-- A store into which that of the state can develop in one step. -/
structure Leaves (m : Machine) (s : Store) : Prop where
  holds : ∀ v, s.Holds v → m.Yields (.value v)
  size : m.store.size ≤ s.size
  fields : m.store.fields.size ≤ s.fields.size
  scopes : ∀ i : ScopeId, i.index < m.store.size →
    s.scopes.bindings i = m.store.scopes.bindings i ∨ ∃ e, m.Writes e ∧ e.scope = i

/-- What can become of a state in one step. -/
structure Follows (m m' : Machine) : Prop where
  items : ∀ it ∈ m'.focus.items, m.Yields it
  leaves : m.Leaves m'.store
  enters : m.depth < m'.depth → m.EntersBody m'

/-- A step, if it leads on, leads to such a state. -/
def Yielding (m : Machine) (r : Step) : Prop := ∀ m', r = .next m' → m.Follows m'

end Machine

namespace Machine
namespace Leaves
variable {m : Machine} {s : Store}

theorem refl (m : Machine) : m.Leaves m.store :=
  ⟨fun _ hv => .kept (.store hv), Nat.le_refl _, Nat.le_refl _, fun _ _ => .inl rfl⟩

/-- A change that no scope sees. -/
theorem of_scopes (h : m.Leaves s) {s' : Store} (hscopes : s'.scopes = s.scopes)
    (hsize : s.fields.size ≤ s'.fields.size)
    (hfields : ∀ i x v, (s'.fieldsOf i).find? x = some v → m.Yields (.value v)) : m.Leaves s' := by
  refine ⟨fun v hv => ?_, ?_, Nat.le_trans h.fields hsize, ?_⟩
  · rcases hv with ⟨i, x, hv⟩ | ⟨i, x, hv⟩
    · rw [Store.find?, hscopes] at hv
      exact h.holds v (.inl ⟨i, x, hv⟩)
    · exact hfields i x v hv
  · have hs : s'.size = s.size := congrArg (·.all.size) hscopes
    exact hs ▸ h.size
  · rw [hscopes]
    exact h.scopes

theorem yields_field (h : m.Leaves s) (i : Nat) (x : String) (v : Value)
    (hv : (s.fieldsOf i).find? x = some v) : m.Yields (.value v) := h.holds v (.inr ⟨i, x, hv⟩)

theorem makeFunction (h : m.Leaves s) (f : Closure) : m.Leaves (s.makeFunction f).2 :=
  h.of_scopes rfl (Nat.le_refl _) h.yields_field

theorem makeClass (h : m.Leaves s) (x : String) (methods : Bindings Closure)
    (parent : Option ClassObject) : m.Leaves (s.makeClass x methods parent).2 :=
  h.of_scopes rfl (Nat.le_refl _) h.yields_field

theorem tick (h : m.Leaves s) : m.Leaves s.tick.2 :=
  h.of_scopes rfl (Nat.le_refl _) h.yields_field

theorem makeInstance (h : m.Leaves s) (c : ClassObject) : m.Leaves (s.makeInstance c).2 := by
  refine h.of_scopes rfl ?_ fun i x v hv => ?_
  · exact Nat.le_of_lt (Nat.lt_of_lt_of_eq (Nat.lt_succ_self _) (Array.size_push _).symm)
  · rw [Store.fieldsOf_makeInstance] at hv
    exact h.yields_field i x v hv

theorem setField (h : m.Leaves s) (i : Nat) (x : String) {v : Value} (hv : m.Yields (.value v)) :
    m.Leaves (s.setField i x v) := by
  refine h.of_scopes rfl (Nat.le_of_eq Array.size_modify.symm) fun j y w hw => ?_
  rcases Store.mem_fieldsOf_setField hw with rfl | hw
  · exact hv
  · exact h.yields_field j y w hw

theorem define (h : m.Leaves s) {e : Environment} (he : m.Writes e) (x : String) {v : Value}
    (hv : m.Yields (.value v)) : m.Leaves (s.define e x v) := by
  refine ⟨fun w hw => ?_, ?_, h.fields, fun i hi => ?_⟩
  · rcases hw with ⟨i, y, hw⟩ | ⟨i, y, hw⟩
    · rcases Scopes.mem_bindings_put hw with rfl | hw
      · exact hv
      · exact h.holds w (.inl ⟨i, y, hw⟩)
    · exact h.yields_field i y w hw
  · rw [Store.size_define]
    exact h.size
  · by_cases hie : i = e.scope
    · exact .inr ⟨e, he, hie.symm⟩
    · rw [Store.bindings_define_of_ne s hie]
      exact h.scopes i hi

theorem enter (h : m.Leaves s) (outer : Environment) {own : Bindings Value}
    (hown : ∀ x v, own.find? x = some v → m.Yields (.value v)) :
    m.Leaves (s.enter outer own).2 := by
  refine ⟨fun w hw => ?_, ?_, h.fields, fun i hi => ?_⟩
  · rcases hw with ⟨i, y, hw⟩ | ⟨i, y, hw⟩
    · rw [Store.find?_enter] at hw
      split at hw
      · exact hown y w hw
      · exact h.holds w (.inl ⟨i, y, hw⟩)
    · exact h.yields_field i y w hw
  · rw [Store.size_enter]
    exact Nat.le_succ_of_le h.size
  · have hne : i ≠ ⟨s.size⟩ := by
      rintro rfl
      exact Nat.not_le_of_lt hi h.size
    rw [Store.bindings_enter_of_ne s outer own hne]
    exact h.scopes i hi

theorem enter_one (h : m.Leaves s) (outer : Environment) (x : String) {v : Value}
    (hv : m.Yields (.value v)) : m.Leaves (s.enter outer [(x, v)]).2 := by
  refine h.enter outer fun y w hw => ?_
  rw [Bindings.find?_cons] at hw
  split at hw
  · exact Option.some.inj hw ▸ hv
  · cases hw

theorem bind (h : m.Leaves s) (f : Closure) {r : Value} (hr : m.Yields (.value r)) :
    m.Leaves (s.bind f r).2 := h.enter_one f.environment "this" hr

theorem bindValue (h : m.Leaves s) (f : Closure) {r : Value} (hr : m.Yields (.value r)) :
    m.Leaves (s.bindValue f r).2 := (h.bind f hr).makeFunction (s.bind f r).1

end Leaves

section
variable {m n : Machine}

theorem yielding_stop (m' : Machine) (e : Ending) : m.Yielding (.stop m' e) := nofun

/-- No call is begun. -/
theorem yielding_focus {f : Focus} (hl : m.Leaves n.store) (hd : n.depth ≤ m.depth)
    (hf : ∀ it ∈ f.items, m.Yields it) : m.Yielding (.next { n with focus := f }) := by
  rintro m' ⟨⟩
  exact ⟨hf, hl, fun hlt => absurd hlt (Nat.not_lt_of_le hd)⟩

theorem yielding_delivering {v : Value} {k : ValueCont} (hl : m.Leaves n.store)
    (hd : n.depth ≤ m.depth) (hv : m.Yields (.value v)) (hk : ∀ it ∈ k.items, m.Yields it) :
    m.Yielding (n.delivering v k) :=
  yielding_focus hl hd (List.forall_mem_cons.2 ⟨hv, hk⟩)

theorem yielding_completing {k : StmtCont} (hl : m.Leaves n.store) (hd : n.depth ≤ m.depth)
    (hk : ∀ it ∈ k.items, m.Yields it) : m.Yielding (n.completing .normal k) :=
  yielding_focus hl hd hk

theorem yields_of_find? {i : ScopeId} {x : String} {v : Value}
    (h : (m.store.scopes.bindings i).find? x = some v) : m.Yields (.value v) :=
  .kept (.store (.inl ⟨i, x, h⟩))

theorem yielding_lookingUp {x : String} {ref : Option Nat} {t : Token} {env : Environment}
    {k : ValueCont} (hk : ∀ it ∈ k.items, m.Yields it) :
    m.Yielding (m.lookingUp x ref t env k) := by
  unfold lookingUp
  split
  · split
    · rename_i v hv
      obtain ⟨e', -, hv⟩ := Scopes.getAt_eq_ok.1 hv
      exact yielding_delivering (.refl m) (Nat.le_refl _) (yields_of_find? hv) hk
    · exact yielding_stop m _
  · split
    · rename_i v hv
      rw [Store.globals, Scopes.get?_root] at hv
      exact yielding_delivering (.refl m) (Nat.le_refl _) (yields_of_find? hv) hk
    · exact yielding_stop m _

theorem yielding_assigning {x : Name} {ref : Option Nat} {env : Environment} {v : Value}
    {k : ValueCont} (hfocus : m.focus = .deliver v (.assign x ref env k))
    (hv : m.Yields (.value v)) (hk : ∀ it ∈ k.items, m.Yields it) :
    m.Yielding (m.assigning x ref env v k) := by
  unfold assigning
  split
  · split
    · rename_i d e he
      have hl := (Leaves.refl m).define (.local hfocus he) x.text hv
      exact yielding_delivering hl (Nat.le_refl _) hv hk
    · exact yielding_stop m _
  · split
    · have hl := (Leaves.refl m).define (.global hfocus) x.text hv
      exact yielding_delivering hl (Nat.le_refl _) hv hk
    · exact yielding_stop m _

theorem yielding_lookingUpSuper {line : Nat} {ref : Option Nat} {x : Name} {env : Environment}
    {k : ValueCont} (hfocus : m.focus = .evaluate (.super line ref x) env k)
    (hk : ∀ it ∈ k.items, m.Yields it) : m.Yielding (m.lookingUpSuper ref x env k) := by
  unfold lookingUpSuper
  split
  · exact yielding_stop m _
  · split
    · rename_i c r hc hr
      split
      · exact yielding_stop m _
      · rename_i f hf
        obtain ⟨e', -, hr'⟩ := Scopes.getAt_eq_ok.1 hr
        have hl := (Leaves.refl m).bindValue f (yields_of_find? hr')
        exact yielding_delivering hl (Nat.le_refl _)
          (.created (.method (.super hfocus hc hr hf))) hk
    · exact yielding_stop m _
    · exact yielding_stop m _
    · exact yielding_stop m _

theorem yielding_takingProperty {i : Nat} {c : ClassObject} {x : Name}
    {next : Machine → Value → Step} (hi : m.Yields (.value (.instance i c)))
    (htakes : ∀ f, m.store.property? i c x.text = some (.method f) → m.Takes f (.instance i c))
    (hnext : ∀ s v, m.Leaves s → m.Yields (.value v) →
      m.Yielding (next { m with store := s } v)) : m.Yielding (m.takingProperty i c x next) := by
  unfold takingProperty
  split
  · exact yielding_stop m _
  · rename_i p hp
    cases p with
    | field v =>
      exact hnext m.store v (.refl m) (.kept (.store (.inr ⟨i, _, Store.property?_field hp⟩)))
    | method f =>
      exact hnext _ _ ((Leaves.refl m).bindValue f hi) (.created (.method (htakes f hp)))

/-- The body of a function is begun with as many arguments as it has parameters. -/
theorem yielding_entering {f : Closure} {args : List Value} {r : CallResult} {k : ValueCont}
    (hl : m.Leaves n.store) (hstarts : m.Starts f args r k)
    (hlen : args.length = f.code.params.length) (hargs : ∀ v ∈ args, m.Yields (.value v))
    (hr : ∀ it ∈ r.items, m.Yields it) (hk : ∀ it ∈ k.items, m.Yields it) :
    m.Yielding (n.entering f args r k) := by
  rw [entering_eq]
  rintro m' ⟨⟩
  refine ⟨?_, hl.enter f.environment fun x v hv => ?_, fun _ => ?_⟩
  · exact List.forall_mem_cons.2 ⟨.started hstarts, List.forall_mem_append.2 ⟨hr, hk⟩⟩
  · exact hargs v (mem_of_find?_parameterBindings hv)
  · exact ⟨f, args, r, k, _, hstarts, hlen, rfl,
      Store.bindings_enter_self n.store f.environment _⟩

theorem yielding_invoking {settings : Settings} {callee : Value} {callable : Callable}
    {args : List Value} {k : ValueCont} (hinvokes : m.Invokes callee args k)
    (hcallable : callee.callable? = some callable) (hlen : args.length = callable.arity)
    (hargs : ∀ v ∈ args, m.Yields (.value v)) (hk : ∀ it ∈ k.items, m.Yields it) :
    m.Yielding (m.invoking settings callable args k) := by
  cases callee with
  | native f =>
    cases hcallable
    exact yielding_delivering (Leaves.refl m).tick (Nat.le_refl _) (.plain trivial) hk
  | function i f =>
    cases hcallable
    refine yielding_entering (.refl m) (.function hinvokes) hlen hargs ?_ hk
    split <;> exact List.forall_mem_nil _
  | «class» c =>
    cases hcallable
    have hmade : m.Yields (.value (.instance m.store.fields.size c)) :=
      .created (.instance hinvokes)
    have hl := (Leaves.refl m).makeInstance c
    simp only [invoking, make_eq]
    split
    · exact yielding_delivering hl (Nat.le_refl _) hmade hk
    · rename_i f hf
      rw [CallableOf.arity, ClassOf.arity, hf] at hlen
      exact yielding_entering (hl.bind f hmade) (.initializer hinvokes hf) hlen hargs
        (List.forall_mem_cons.2 ⟨hmade, List.forall_mem_nil _⟩) hk
  | _ => cases hcallable

theorem yielding_nextArgument {settings : Settings} {line : Nat} {callee : Value}
    {earlier : List Value} {later : List RExpr} {env : Environment} {k : ValueCont}
    (hinvokes : later = [] → m.Invokes callee earlier.reverse k)
    (hcallee : m.Yields (.value callee)) (hargs : ∀ v ∈ earlier, m.Yields (.value v))
    (hk : ∀ it ∈ k.items, m.Yields it) :
    m.Yielding (m.nextArgument settings line callee earlier later env k) := by
  cases later with
  | nil =>
    simp only [nextArgument, calling]
    split
    · exact yielding_stop m _
    · rename_i callable hcallable
      split
      · exact yielding_stop m _
      · rename_i hlen
        split
        · exact yielding_stop m _
        · exact yielding_invoking (hinvokes rfl) hcallable (Decidable.not_not.1 hlen)
            (fun v hv => hargs v (List.mem_reverse.1 hv)) hk
  | cons e later =>
    refine yielding_focus (.refl m) (Nat.le_refl _) ?_
    refine List.forall_mem_cons.2 ⟨hcallee, List.forall_mem_append.2 ⟨?_, hk⟩⟩
    exact List.forall_mem_map.2 hargs

/-- A declaration binds its name, in a store into which the old one has developed. -/
theorem yielding_defining {s : Store} {e : Environment} {x : String} {v : Value} {k : StmtCont}
    (hl : m.Leaves s) (he : m.Writes e) (hv : m.Yields (.value v))
    (hk : ∀ it ∈ k.items, m.Yields it) :
    m.Yielding (({ m with store := s }.change (·.define e x v)).completing .normal k) :=
  yielding_completing (hl.define he x hv) (Nat.le_refl _) hk

theorem yielding_evaluate {e : RExpr} {env : Environment} {k : ValueCont}
    (hfocus : m.focus = .evaluate e env k) (hk : ∀ it ∈ k.items, m.Yields it) :
    m.Yielding (m.evaluate e env k) := by
  cases e with
  | literal v =>
    exact yielding_delivering (.refl m) (Nat.le_refl _) (.plain (by cases v <;> trivial)) hk
  | var x ref => exact yielding_lookingUp hk
  | this line ref => exact yielding_lookingUp hk
  | super line ref x => exact yielding_lookingUpSuper hfocus hk
  | function line code =>
    have hl := (Leaves.refl m).makeFunction
      { name := none, code, environment := env, isInitializer := false }
    exact yielding_delivering hl (Nat.le_refl _) (.created (.function (.expression hfocus))) hk
  | _ => exact yielding_focus (.refl m) (Nat.le_refl _) hk

theorem yielding_execute {s : RStmt} {env : Environment} {k : StmtCont}
    (hfocus : m.focus = .execute s env k) (hk : ∀ it ∈ k.items, m.Yields it) :
    m.Yielding (m.execute s env k) := by
  cases s with
  | var x initial =>
    cases initial with
    | none => exact yielding_defining (.refl m) (.declared hfocus rfl) (.plain trivial) hk
    | some e => exact yielding_focus (.refl m) (Nat.le_refl _) hk
  | block body => exact yielding_completing ((Leaves.refl m).enter env nofun) (Nat.le_refl _) hk
  | function x code =>
    have hl := (Leaves.refl m).makeFunction
      { name := some x.text, code, environment := env, isInitializer := false }
    have hv := Yields.created (.function (.declaration hfocus))
    exact yielding_defining hl (.declared hfocus rfl) hv hk
  | ret line value =>
    cases value with
    | none =>
      refine yielding_focus (.refl m) (Nat.le_refl _) ?_
      exact List.forall_mem_cons.2 ⟨.plain trivial, hk⟩
    | some e => exact yielding_focus (.refl m) (Nat.le_refl _) hk
  | classDef x parent ms =>
    cases parent with
    | none =>
      have hl := (Leaves.refl m).makeClass x.text (methodTable env ms) none
      exact yielding_defining hl (.declared hfocus rfl) (.created (.base hfocus)) hk
    | some y => exact yielding_focus (.refl m) (Nat.le_refl _) hk
  | _ => exact yielding_focus (.refl m) (Nat.le_refl _) hk

theorem yielding_deliveringResult {r : Except Fault Value} {t : Token} {k : ValueCont}
    (hr : ∀ v, r = .ok v → v.IsPlain) (hk : ∀ it ∈ k.items, m.Yields it) :
    m.Yielding (m.deliveringResult r t k) := by
  cases r with
  | ok v => exact yielding_delivering (.refl m) (Nat.le_refl _) (.plain (hr v rfl)) hk
  | error f => exact yielding_stop m _

theorem yielding_deliver {settings : Settings} {v : Value} {k : ValueCont}
    (hfocus : m.focus = .deliver v k) (hv : m.Yields (.value v))
    (hk : ∀ it ∈ k.items, m.Yields it) : m.Yielding (m.deliver settings v k) := by
  cases k with
  | unary op line k => exact yielding_deliveringResult (fun _ => isPlain_unary) hk
  | binaryLeft op line right env k =>
    exact yielding_focus (.refl m) (Nat.le_refl _) (List.forall_mem_cons.2 ⟨hv, hk⟩)
  | binaryRight op line left k =>
    exact yielding_deliveringResult (fun _ => isPlain_binary) (List.forall_mem_cons.1 hk).2
  | logical op right env k =>
    simp only [deliver]
    split
    · exact yielding_delivering (.refl m) (Nat.le_refl _) hv hk
    · exact yielding_focus (.refl m) (Nat.le_refl _) hk
  | assign x ref env k => exact yielding_assigning hfocus hv hk
  | callee line arguments env k =>
    refine yielding_nextArgument ?_ hv (List.forall_mem_nil _) hk
    rintro rfl
    exact .bare hfocus
  | argument line callee earlier later env k =>
    obtain ⟨hcallee, hk⟩ := List.forall_mem_cons.1 hk
    obtain ⟨hearlier, hk⟩ := List.forall_mem_append.1 hk
    refine yielding_nextArgument ?_ hcallee ?_ hk
    · rintro rfl
      exact .applied hfocus
    · exact List.forall_mem_cons.2 ⟨hv, List.forall_mem_map.1 hearlier⟩
  | get x k =>
    cases v with
    | «instance» i c =>
      simp only [deliver]
      refine yielding_takingProperty hv (fun f => .get hfocus) fun s v hl hv => ?_
      exact yielding_delivering hl (Nat.le_refl _) hv hk
    | _ => exact yielding_stop m _
  | setObject x value env k =>
    cases v with
    | «instance» i c => exact yielding_focus (.refl m) (Nat.le_refl _) hk
    | _ => exact yielding_stop m _
  | setValue i x k =>
    exact yielding_delivering ((Leaves.refl m).setField i x.text hv) (Nat.le_refl _) hv hk
  | updateObject x op line value env k =>
    cases v with
    | «instance» i c =>
      simp only [deliver]
      refine yielding_takingProperty hv (fun f => .update hfocus) fun s v hl hv => ?_
      exact yielding_focus hl (Nat.le_refl _) (List.forall_mem_cons.2 ⟨hv, hk⟩)
    | _ => exact yielding_stop m _
  | updateValue i x op line current k =>
    obtain ⟨-, hk⟩ := List.forall_mem_cons.1 hk
    simp only [deliver]
    split
    · rename_i w hw
      have hw : m.Yields (.value w) := .plain (isPlain_arith hw)
      exact yielding_delivering ((Leaves.refl m).setField i x.text hw) (Nat.le_refl _) hw hk
    · exact yielding_stop m _
  | discard k => exact yielding_completing (.refl m) (Nat.le_refl _) hk
  | print k =>
    exact yielding_completing (n := { m with output := m.output ++ v.display ++ "\n" }) (.refl m)
      (Nat.le_refl _) hk
  | define x env k => exact yielding_defining (.refl m) (.initial hfocus) hv hk
  | ret k =>
    exact yielding_focus (.refl m) (Nat.le_refl _) (List.forall_mem_cons.2 ⟨hv, hk⟩)
  | branch yes no env k =>
    simp only [deliver.eq_def]
    split
    · exact yielding_focus (.refl m) (Nat.le_refl _) hk
    · split
      · exact yielding_focus (.refl m) (Nat.le_refl _) hk
      · exact yielding_completing (.refl m) (Nat.le_refl _) hk
  | loopTest condition body env k =>
    simp only [deliver]
    split
    · exact yielding_focus (.refl m) (Nat.le_refl _) hk
    · exact yielding_completing (.refl m) (Nat.le_refl _) hk
  | inherit x y ms env k =>
    cases v with
    | «class» c =>
      have hl := ((Leaves.refl m).enter_one env "super" hv).makeClass x.text
        (methodTable (m.inside env) ms) (some c)
      exact yielding_defining hl (.inherit hfocus) (.created (.derived hfocus)) hk
    | _ => exact yielding_stop m _

theorem yielding_complete {c : Completion} {k : StmtCont}
    (hc : ∀ it ∈ c.items, m.Yields it) (hk : ∀ it ∈ k.items, m.Yields it) :
    m.Yielding (m.complete c k) := by
  have hboth {k' : StmtCont} (hk' : ∀ it ∈ k'.items, m.Yields it) :
      ∀ it ∈ (Focus.complete c k').items, m.Yields it := List.forall_mem_append.2 ⟨hc, hk'⟩
  cases k with
  | sequence later env k =>
    simp only [complete.eq_def]
    split
    · exact yielding_focus (.refl m) (Nat.le_refl _) hk
    · exact yielding_focus (.refl m) (Nat.le_refl _) (hboth hk)
  | loopBody condition body env k =>
    cases c with
    | normal => exact yielding_focus (.refl m) (Nat.le_refl _) hk
    | returned v => exact yielding_focus (.refl m) (Nat.le_refl _) (hboth hk)
  | call r k =>
    obtain ⟨-, hk⟩ := List.forall_mem_cons.1 hk
    obtain ⟨hr, hk⟩ := List.forall_mem_append.1 hk
    simp only [complete.eq_def]
    split
    · rename_i v hv
      refine yielding_delivering (n := { m with depth := m.depth - 1 }) (.refl m)
        (Nat.sub_le _ _) ?_ hk
      cases r with
      | returned =>
        cases c with
        | normal =>
          cases hv
          exact .plain trivial
        | returned w =>
          cases hv
          exact hc _ (List.mem_cons_self ..)
      | receiver env =>
        have hv : m.store.scopes.getAt env 0 "this" = .ok v := hv
        obtain ⟨e', -, hv⟩ := Scopes.getAt_eq_ok.1 hv
        exact yields_of_find? hv
      | made w =>
        cases hv
        exact hr _ (List.mem_cons_self ..)
    · exact yielding_stop m _
  | finish =>
    simp only [complete.eq_def]
    split
    · exact yielding_stop m _
    · exact yielding_focus (n := { m with pending := _ }) (.refl m) (Nat.le_refl _) hk

/-- What a step does to what a state holds. -/
theorem follows_step {settings : Settings} {m' : Machine} (h : m.step settings = .next m') :
    m.Follows m' := by
  have hitems : ∀ it ∈ m.focus.items, m.Yields it := fun _ hit => .kept (.focus hit)
  refine (?_ : m.Yielding (m.step settings)) m' h
  unfold step
  split
  · rename_i e env k hfocus
    rw [hfocus] at hitems
    exact yielding_evaluate hfocus hitems
  · rename_i v k hfocus
    rw [hfocus] at hitems
    obtain ⟨hv, hk⟩ := List.forall_mem_cons.1 hitems
    exact yielding_deliver hfocus hv hk
  · rename_i s env k hfocus
    rw [hfocus] at hitems
    exact yielding_execute hfocus hitems
  · rename_i c k hfocus
    rw [hfocus] at hitems
    obtain ⟨hc, hk⟩ := List.forall_mem_append.1 hitems
    exact yielding_complete hc hk

end
end Machine
end LoxScript
