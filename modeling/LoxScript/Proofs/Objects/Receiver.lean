import LoxScript.Proofs.Objects.Classes

/-!
What `this` refers to, and what calls of classes and of initializers answer.

A function becomes a value where it is written, or as a method with a receiver.  Nothing writes to
the scope of a receiver, so `this` refers to it for as long as the method is around.  An initializer
answers what `this` refers to when its body has ended, and that is still its receiver.
-/

namespace LoxScript

/-- The function is a method in the scope that a step made for its receiver. -/
def IsBound (past : List Machine) (f method : Closure) (receiver : Value) : Prop :=
  ∃ q ∈ past, q.BindsTo method receiver ∧ f = q.bound method

namespace Machine

/-- The body of a function is begun, and the call will answer the result. -/
def RunsBody (m' : Machine) (f : Closure) (result : CallResult) (k : ValueCont) : Prop :=
  ∃ e, m'.focus = .complete .normal (.sequence f.code.body e (.call result k))

/-- A new instance is what a call of the class answers, or what it will answer when the body of the
initializer has ended. -/
def Constructs (m m' : Machine) (c : ClassObject) (k : ValueCont) : Prop :=
  (∀ i c', m.Has (.value (.instance i c')) → i ≠ m.store.fields.size) ∧
    match c.initializer? with
    | none => m'.focus = .deliver (.instance m.store.fields.size c) k
    | some f => m'.RunsBody f (.made (.instance m.store.fields.size c)) k

end Machine

section
variable (settings : Settings) (sources : List String) (past : List Machine) (m : Machine)

/-- A function was made where it is written, or by taking a method from an instance. -/
def IsWrittenOrTaken (i : Nat) (f : Closure) : Prop :=
  ∃ q ∈ past, q.store.identities = i ∧
    (q.Closes f ∨ ∃ method j c, q.Takes method (.instance j c) ∧ f = q.bound method)

/-- The scope of a receiver is what it was made to be. -/
structure KeepsReceiver (f : Closure) (receiver : Value) : Prop where
  isInstance : ∃ i c, receiver = .instance i c
  bindings : m.store.scopes.bindings f.environment.scope = [("this", receiver)]

/-- A use of `this` stands in a method of a class, and is looked at in an activation of such a
method.  It evaluates to the receiver of the method. -/
def ThisIsStableAt (line : Nat) (ref : Option Nat) (env : Environment) (k : ValueCont) : Prop :=
  ∃ Γ d ms f method receiver,
    StandsIn settings sources past m ⟨.this, "this", line, ref⟩ env Γ ∧ ref = some d ∧
    Γ[d]? = some (.receiver ms) ∧ method.code ∈ ms.map Method.code ∧
    IsBound past f method receiver ∧ env.ancestor? d = some f.environment ∧
    m.Delivers settings receiver k

/-- What a call answers whose body has ended. -/
structure Answers (r : CallResult) (k : ValueCont) : Prop where
  begun : ∃ q ∈ past, ∃ f args, q.Starts f args r k
  instances : ∀ q ∈ past, ∀ f args, q.Starts f args r k →
    ∀ c args' k', q.Invokes (.class c) args' k' →
      m.Delivers settings (.instance q.store.fields.size c) k
  initializers : ∀ q ∈ past, ∀ f args, q.Starts f args r k →
    ∀ method receiver, IsBound past f method receiver → method.name = some "init" →
      m.Delivers settings receiver k

/-- Methods keep their receivers, and calls of classes and of initializers answer them. -/
structure ReceiversAreStable : Prop where
  values : ∀ i f, m.Has (.value (.function i f)) → IsWrittenOrTaken past i f
  keeps : ∀ f method receiver, IsBound past f method receiver → KeepsReceiver m f receiver
  this : ∀ line ref env k, m.focus = .evaluate (.this line ref) env k →
    ThisIsStableAt settings sources past m line ref env k
  constructs : ∀ c args k m', m.Invokes (.class c) args k → m.step settings = .next m' →
    m.Constructs m' c k
  answers : ∀ o r k, m.focus = .complete o (.call r k) → Answers settings past m r k
  starts : ∀ f args r k m', m.Starts f args r k → m.step settings = .next m' →
    args.length = f.code.params.length ∧ m'.RunsBody f r k
  enters : ∀ m', m.step settings = .next m' → m.depth < m'.depth → m.EntersBody m'

end

namespace Machine
variable {settings : Settings} {m m' : Machine}

/-- A call that begins the body of a function has an argument for each of its parameters. -/
theorem Starts.runsBody {f : Closure} {args : List Value} {r : CallResult} {k : ValueCont}
    (h : m.Starts f args r k) (hstep : m.step settings = .next m') :
    args.length = f.code.params.length ∧ m'.RunsBody f r k := by
  cases h with
  | function hinvokes =>
    obtain ⟨_, hcallable, hlen, hinvoking⟩ := hinvokes.step_eq hstep
    cases hcallable
    rw [invoking, entering_eq] at hinvoking
    cases hinvoking
    exact ⟨hlen, _, rfl⟩
  | @initializer c f args k hinvokes hf =>
    obtain ⟨_, hcallable, hlen, hinvoking⟩ := hinvokes.step_eq hstep
    cases hcallable
    rw [CallableOf.arity, ClassOf.arity, hf] at hlen
    simp only [invoking, make_eq, hf, entering_eq] at hinvoking
    cases hinvoking
    exact ⟨hlen, _, rfl⟩

/-- What a call of a class begins with: the instance is made, and then the initializer runs if there
is one. -/
theorem Invokes.constructs {c : ClassObject} {args : List Value} {k : ValueCont}
    (h : m.Invokes (.class c) args k) (hstep : m.step settings = .next m')
    (hfresh : ∀ i c', m.Has (.value (.instance i c')) → i < m.store.fields.size) :
    m.Constructs m' c k := by
  refine ⟨fun i c' hi => Nat.ne_of_lt (hfresh i c' hi), ?_⟩
  cases hf : c.initializer? with
  | none =>
    obtain ⟨_, hcallable, -, hinvoking⟩ := h.step_eq hstep
    cases hcallable
    simp only [invoking, make_eq, hf] at hinvoking
    cases hinvoking
    rfl
  | some f => exact ((Starts.initializer h hf).runsBody hstep).2

theorem delivers_of_answer {o : Completion} {r : CallResult} {k : ValueCont} {v : Value}
    (hfocus : m.focus = .complete o (.call r k)) (hv : m.answer o r = .ok v) :
    m.Delivers settings v k := by
  refine ⟨{ m with depth := m.depth - 1, focus := .deliver v k }, ?_, rfl⟩
  simp only [step, hfocus, complete, hv]
  rfl

end Machine

namespace Chronicle
variable {settings : Settings} {past : List Machine} {m : Machine}

theorem keepsReceiver (h : Chronicle settings past m.store) {f method : Closure} {receiver : Value}
    (hf : IsBound past f method receiver) : KeepsReceiver m f receiver := by
  obtain ⟨q, hq, hbinds, rfl⟩ := hf
  obtain ⟨hinstance, hbindings⟩ := h.receiver hq hbinds
  exact ⟨hinstance, hbindings⟩

/-- A function has one receiver. -/
theorem receiver_unique (h : Chronicle settings past m.store) {f g g' : Closure} {r r' : Value}
    (hf : IsBound past f g r) (hf' : IsBound past f g' r') : r = r' := by
  have heq := (h.keepsReceiver hf).bindings.symm.trans (h.keepsReceiver hf').bindings
  cases heq
  rfl

theorem fresh (h : Chronicle settings past m.store) (hm : ∀ it, m.Has it → HasOrigin past it)
    {i : Nat} {c : ClassObject} (hi : m.Has (.value (.instance i c))) :
    i < m.store.fields.size := by
  cases hm _ hi with
  | plain hp => exact hp.elim
  | created hq hcreates =>
    cases hcreates with
    | «instance» hinvokes => exact h.instances _ hq _ _ _ hinvokes

theorem isWrittenOrTaken (h : Chronicle settings past m.store)
    (hm : ∀ it, m.Has it → HasOrigin past it) {i : Nat} {f : Closure}
    (hf : m.Has (.value (.function i f))) : IsWrittenOrTaken past i f := by
  cases hm _ hf with
  | plain hp => exact hp.elim
  | @created q _ hq hcreates =>
    refine ⟨q, hq, ?_⟩
    cases hcreates with
    | function hcloses => exact ⟨rfl, .inl hcloses⟩
    | @method g r htakes =>
      obtain ⟨j, c, rfl⟩ := h.takes q hq g r htakes
      exact ⟨rfl, .inr ⟨g, j, c, htakes, rfl⟩⟩

/-- An initializer answers its receiver, which its scope still binds. -/
theorem answer_receiver (h : Chronicle settings past m.store) {f g : Closure} {r : Value}
    (hf : IsBound past f g r) (o : Completion) :
    m.answer o (.receiver f.environment) = .ok r := by
  obtain ⟨q, hq, hbinds, rfl⟩ := hf
  have hself : (q.bound g).environment.ancestor? 0 = some (q.bound g).environment := rfl
  exact h.getAt_this hq hbinds hself

theorem answers (h : Chronicle settings past m.store) (hm : ∀ it, m.Has it → HasOrigin past it)
    {o : Completion} {r : CallResult} {k : ValueCont}
    (hfocus : m.focus = .complete o (.call r k)) : Answers settings past m r k where
  begun := by
    have hcall : m.Has (.call r k) := .focus (by
      rw [hfocus]
      exact List.mem_append_right _ List.mem_cons_self)
    cases hm _ hcall with
    | started hq hstarts => exact ⟨_, hq, _, _, hstarts⟩
  instances := by
    intro q hq f args hstarts c args' k' hinvokes
    cases hstarts with
    | function hi => cases hi.calls.eq hinvokes.calls
    | initializer hi hf =>
      cases hi.calls.eq hinvokes.calls
      exact Machine.delivers_of_answer hfocus rfl
  initializers := by
    intro q hq f args hstarts g receiver hbound hname
    refine Machine.delivers_of_answer hfocus ?_
    cases hstarts with
    | function hi =>
      have hinit : f.isInitializer = true := by
        obtain ⟨q', hq', hbinds, rfl⟩ := id hbound
        exact (h.isInitializer_iff hq' hbinds).2 hname
      rw [if_pos hinit]
      exact h.answer_receiver hbound o
    | initializer hi hf =>
      exact congrArg Except.ok (h.receiver_unique ⟨q, hq, .initializer hi hf, rfl⟩ hbound)

end Chronicle

theorem World.Traced.thisIsStableAt {settings : Settings} {sources : List String}
    {past : List Machine} {m : Machine} (h : (World.of settings sources past m.store).Traced m)
    {line : Nat} {ref : Option Nat} {env : Environment} {k : ValueCont}
    (hfocus : m.focus = .evaluate (.this line ref) env k) :
    ThisIsStableAt settings sources past m line ref env k := by
  obtain ⟨Γ, e₀, hat, hfits, hstands⟩ := h.inv.standsIn hfocus rfl
  cases hat.view with
  | @this line d ms hd hreceiver =>
    obtain ⟨q, hq, g, r, hbinds, hcode, he⟩ := hfits.activated hreceiver
    have hthis : m.store.scopes.getAt env d "this" = .ok r := h.chronicle.getAt_this hq hbinds he
    refine ⟨Γ, d, ms, _, g, r, hstands, rfl, hreceiver, hcode, ⟨q, hq, hbinds, rfl⟩, he, ?_⟩
    refine ⟨{ m with focus := .deliver r k }, ?_, rfl⟩
    simp only [Machine.step, hfocus, Machine.evaluate, Machine.lookingUp, hthis]
    rfl

/-- In every state of every run of a session, receivers are stable. -/
theorem Session.Reached.receivers_areStable {settings : Settings} {sources : List String}
    {past : List Machine} {s : Session} (hs : s.Reached settings sources past) {source : String}
    {program : List RStmt} (hc : compile source = .ok program) {n : Nat} {m : Machine}
    (hm : (Machine.start program s.store).run settings n = (m, none)) :
    ReceiversAreStable settings (sources ++ [source])
      (past ++ (Machine.start program s.store).passed settings n) m := by
  have h := hs.traced hc hm
  have hchronicle : Chronicle settings _ m.store := h.chronicle
  exact {
    values := fun i f => hchronicle.isWrittenOrTaken fun _ => h.origin
    keeps := fun f g r => hchronicle.keepsReceiver
    this := fun line ref env k => h.thisIsStableAt
    constructs := fun c args k m' hinvokes hstep =>
      hinvokes.constructs hstep fun _ _ => hchronicle.fresh fun _ => h.origin
    answers := fun o r k => hchronicle.answers fun _ => h.origin
    starts := fun f args r k m' hstarts => hstarts.runsBody
    enters := fun m' hstep => (Machine.follows_step hstep).enters }

/-- An initializer is stored as a method, and a later text calls it.  At its early return, the call
is about to answer the instance that the method was taken from. -/
theorem Session.receivers_areStable_at_return :
    ∃ (s : Session) (past : List Machine) (program : List RStmt) (m : Machine) (e : Environment)
      (k : ValueCont),
      s.Reached {} ["class A { init() { return; } } var f = A().init;"] past ∧
      compile "f();" = .ok program ∧ (Machine.start program s.store).run {} 8 = (m, none) ∧
      m.focus = .complete (.returned .nil) (.call (.receiver e) k) ∧
      ReceiversAreStable {} ["class A { init() { return; } } var f = A().init;", "f();"]
        (past ++ (Machine.start program s.store).passed {} 8) m := by
  have h₂ : compile "f();" = .ok [.expression (.call (.var ⟨"f", 1⟩ none) 1 [])] := by cbv
  have h₁ : compile "class A { init() { return; } } var f = A().init;" = .ok
      [.classDef ⟨"A", 1⟩ none [.mk ⟨"init", 1⟩ (.mk [] [.ret 1 none])],
        .var ⟨"f", 1⟩ (some (.get (.call (.var ⟨"A", 1⟩ none) 1 []) ⟨"init", 1⟩))] := by cbv
  have hs : Session.Reached {} _ _ _ :=
    .run 15 "class A { init() { return; } } var f = A().init;" (.fresh {})
  rw [Session.run, Session.runWith, Session.passed, Session.read_of_ok h₁] at hs
  exact ⟨_, _, _, _, _, _, hs, h₂, rfl, rfl, Session.Reached.receivers_areStable hs h₂ (n := 8) rfl⟩

end LoxScript
