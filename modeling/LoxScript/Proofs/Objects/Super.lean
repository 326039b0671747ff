import LoxScript.Proofs.Objects.Classes

/-!
What `super` refers to.

The methods of a class that extends another are closed over a scope that binds the superclass, and
that never changes.  A use of `super` finds that scope just outside the one of the receiver of the
method around it, whatever has become of the names of both classes and whatever the class of the
receiver defines.
-/

namespace LoxScript

section
variable (settings : Settings) (sources : List String) (past : List Machine) (m : Machine)

/-- The environment is one inside an activation of a method of the class, `distance` scopes inside
the scope of its receiver.  The class was made with the methods `ms`. -/
structure InMethodOf (env : Environment) (distance : Nat) (c : ClassObject)
    (ms : List (Method (Option Nat))) (receiver : Value) : Prop where
  made : Made past c
  methods : ∃ outer, c.methods = Machine.methodTable outer ms
  activated : ∃ q ∈ past, ∃ f x, c.methods.find? x = some f ∧ q.BindsTo f receiver ∧
    env.ancestor? distance = some (q.bound f).environment ∧
    m.store.scopes.bindings (q.bound f).environment.scope = [("this", receiver)]

/-- A method of the superclass is bound to the receiver, or it is missing. -/
def FindsAbove (parent : ClassObject) (receiver : Value) (x : Name) (k : ValueCont) : Prop :=
  match parent.lineage.findSome? (·.methods.find? x.text) with
  | some f => ∃ m', m.step settings = .next m' ∧
      m'.focus = .deliver (.function m.store.identities (m.bound f)) k ∧
      m'.store.scopes.bindings (m.bound f).environment.scope = [("this", receiver)]
  | none => m.step settings = .stop m (.failed ⟨.undefinedProperty x.text, x.token⟩)

/-- A use of `super` stands in a method of a class that extends another, and is looked at in an
activation of such a method.  It is searched for in the superclass and in what that extends, and the
receiver is that of the activation. -/
def SuperIsStaticAt (line : Nat) (ref : Option Nat) (x : Name) (env : Environment)
    (k : ValueCont) : Prop :=
  ∃ Γ d ms c parent i c',
    StandsIn settings sources past m ⟨.super, "super", line, ref⟩ env Γ ∧ ref = some (d + 1) ∧
    Γ[d]? = some (.receiver ms) ∧ Γ[d + 1]? = some (.superclass ms) ∧
    InMethodOf past m env d c ms (.instance i c') ∧ c.parent = some parent ∧
    m.store.scopes.getAt env d "this" = .ok (.instance i c') ∧
    FindsAbove settings m parent (.instance i c') x k

/-- What `super` refers to in the methods of a class is settled when the class is made. -/
structure SuperIsStatic : Prop where
  known : ∀ c, m.Knows c → Made past c
  closed : ∀ c parent x f, Made past c → c.parent = some parent → c.methods.find? x = some f →
    m.store.scopes.bindings f.environment.scope = [("super", .class parent)]
  uses : ∀ line ref x env k, m.focus = .evaluate (.super line ref x) env k →
    SuperIsStaticAt settings sources past m line ref x env k

end

namespace Machine
variable {settings : Settings} {m : Machine} {line d : Nat} {x : Name} {env : Environment}
  {k : ValueCont} {parent : ClassObject} {r : Value}

theorem findsAbove (hfocus : m.focus = .evaluate (.super line (some d) x) env k)
    (hsuper : m.store.scopes.getAt env d "super" = .ok (.class parent))
    (hthis : m.store.scopes.getAt env (d - 1) "this" = .ok r) :
    FindsAbove settings m parent r x k := by
  unfold FindsAbove
  rw [← ClassOf.method?_eq_findSome?]
  cases hf : parent.method? x.text with
  | none =>
    simp only [step, hfocus, evaluate, lookingUpSuper, hsuper, hthis, hf]
    rfl
  | some f =>
    refine ⟨{ m with focus := .deliver (.function m.store.identities (m.bound f)) k
                     store := (m.store.bindValue f r).2 }, ?_, rfl, ?_⟩
    · simp only [step, hfocus, evaluate, lookingUpSuper, hsuper, hthis, hf]
      rfl
    · exact Store.bindings_enter_self m.store f.environment [("this", r)]

end Machine

theorem Environment.ancestor?_succ {e e' : Environment} {d : Nat} (h : e.ancestor? d = some e') :
    e.ancestor? (d + 1) = e'.ancestor? 1 := by
  induction d generalizing e with
  | zero =>
    cases h
    rfl
  | succ d ih =>
    cases e with
    | root i => cases h
    | nested i outer => exact ih h

namespace World

/-- The method around a use of `super`: its class extends another, which the scope around that of
the receiver binds. -/
theorem Traced.inMethodOf {W : World} {m : Machine} (h : W.Traced m) {Γ : Frames}
    {env : Environment} (hfits : W.Fits Γ env) {d : Nat} {ms : List (Method (Option Nat))}
    (hreceiver : Γ[d]? = some (.receiver ms)) (hsuperclass : Γ[d + 1]? = some (.superclass ms)) :
    ∃ c parent i c', InMethodOf W.past m env d c ms (.instance i c') ∧ c.parent = some parent ∧
      m.store.scopes.getAt env d "this" = .ok (.instance i c') ∧
      m.store.scopes.getAt env (d + 1) "super" = .ok (.class parent) := by
  have hc := h.chronicle
  obtain ⟨q, hq, f, r, hbinds, -, he⟩ := hfits.activated hreceiver
  obtain ⟨⟨i, c', rfl⟩, hthis⟩ := hc.receiver hq hbinds
  -- The scope of the superclass is the one that the method is closed over.
  obtain ⟨e', he', ⟨q₀, hq₀, hprepares, -⟩, -⟩ := hfits.ancestor_of_get hsuperclass
  have houter : some f.environment = some e' := (Environment.ancestor?_succ he).symm.trans he'
  cases hprepares with
  | @superclass parent name y ms env₀ k₀ hfocus =>
    have henv : f.environment = q₀.inside env₀ := Option.some.inj houter
    obtain ⟨x, hx⟩ := hc.own_method hq₀ hq hfocus hbinds henv
    have hmade : Made W.past (.mk q₀.store.identities name.text
        (Machine.methodTable (q₀.inside env₀) ms) (some parent)) := ⟨q₀, hq₀, .derived hfocus⟩
    have hbindings := hc.superclass hmade rfl hx
    rw [henv] at hbindings
    have hsuper : m.store.scopes.getAt env (d + 1) "super" = .ok (.class parent) := by
      refine Scopes.getAt_eq_ok.2 ⟨_, he', ?_⟩
      rw [hbindings]
      rfl
    exact ⟨_, parent, i, c', ⟨hmade, ⟨_, rfl⟩, q, hq, f, x, hx, hbinds, he, hthis⟩, rfl,
      hc.getAt_this hq hbinds he, hsuper⟩

theorem Traced.superIsStaticAt {settings : Settings} {sources : List String}
    {past : List Machine} {m : Machine} (h : (World.of settings sources past m.store).Traced m)
    {line : Nat} {ref : Option Nat} {x : Name} {env : Environment} {k : ValueCont}
    (hfocus : m.focus = .evaluate (.super line ref x) env k) :
    SuperIsStaticAt settings sources past m line ref x env k := by
  obtain ⟨Γ, e₀, hat, hfits, hstands⟩ := h.inv.standsIn hfocus rfl
  cases hat.view with
  | @super line x d ms hd hd' hreceiver hsuperclass =>
    obtain ⟨c, parent, i, c', hin, hparent, hthis, hsuper⟩ :=
      h.inMethodOf hfits hreceiver hsuperclass
    exact ⟨Γ, d, ms, c, parent, i, c', hstands, rfl, hreceiver, hsuperclass, hin, hparent, hthis,
      Machine.findsAbove hfocus hsuper hthis⟩

end World

/-- In every state of every run of a session, `super` is static. -/
theorem Session.Reached.super_isStatic {settings : Settings} {sources : List String}
    {past : List Machine} {s : Session} (hs : s.Reached settings sources past) {source : String}
    {program : List RStmt} (hc : compile source = .ok program) {n : Nat} {m : Machine}
    (hm : (Machine.start program s.store).run settings n = (m, none)) :
    SuperIsStatic settings (sources ++ [source])
      (past ++ (Machine.start program s.store).passed settings n) m := by
  have h := hs.traced hc hm
  refine ⟨fun c hknows => h.chronicle.made_of_knows (fun _ => h.origin) hknows,
    fun c parent x f hmade hparent hf => h.chronicle.superclass hmade hparent hf,
    fun line ref x env k hfocus => h.superIsStaticAt hfocus⟩

/-- A method is stored, and then the name of the superclass gets another value.  When a later text
calls the method, its `super` still refers to the superclass. -/
theorem Session.super_isStatic_after_assignment :
    ∃ (s : Session) (past : List Machine) (program : List RStmt) (m : Machine) (env : Environment)
      (k : ValueCont),
      s.Reached {} ["class A { m() {} } class B < A { n() { super.m; } } var f = B().n; A = nil;"]
        past ∧
      compile "f();" = .ok program ∧ (Machine.start program s.store).run {} 7 = (m, none) ∧
      m.focus = .evaluate (.super 1 (some 2) ⟨"m", 1⟩) env k ∧
      SuperIsStatic {}
        ["class A { m() {} } class B < A { n() { super.m; } } var f = B().n; A = nil;", "f();"]
        (past ++ (Machine.start program s.store).passed {} 7) m := by
  have h₂ : compile "f();" = .ok [.expression (.call (.var ⟨"f", 1⟩ none) 1 [])] := by cbv
  have h₁ : compile
      "class A { m() {} } class B < A { n() { super.m; } } var f = B().n; A = nil;" = .ok
      [.classDef ⟨"A", 1⟩ none [.mk ⟨"m", 1⟩ (.mk [] [])],
        .classDef ⟨"B", 1⟩ (some (⟨"A", 1⟩, none))
          [.mk ⟨"n", 1⟩ (.mk [] [.expression (.super 1 (some 2) ⟨"m", 1⟩)])],
        .var ⟨"f", 1⟩ (some (.get (.call (.var ⟨"B", 1⟩ none) 1 []) ⟨"n", 1⟩)),
        .expression (.assign ⟨"A", 1⟩ none (.literal .nil))] := by cbv
  have hs : Session.Reached {} _ _ _ :=
    .run 21 "class A { m() {} } class B < A { n() { super.m; } } var f = B().n; A = nil;"
      (.fresh {})
  rw [Session.run, Session.runWith, Session.passed, Session.read_of_ok h₁] at hs
  exact ⟨_, _, _, _, _, _, hs, h₂, rfl, rfl, Session.Reached.super_isStatic hs h₂ (n := 7) rfl⟩

end LoxScript
