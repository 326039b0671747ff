import LoxScript.Proofs.Objects.Chronicle

/-!
The classes that a running program knows, and the methods found in them.

Every class was made by a step, and so were the classes that it extends.  A method is found in one
of them, so it is closed over the environment in which that class was made.
-/

namespace LoxScript

namespace ClassOf
variable {ρ ε : Type}

/-- The class and the classes that it extends, the nearest first. -/
def lineage : ClassOf ρ ε → List (ClassOf ρ ε)
  | mk i name methods none => [mk i name methods none]
  | mk i name methods (some parent) => mk i name methods (some parent) :: parent.lineage

/-- A method is looked for in the class, then in those that it extends, in their order. -/
theorem method?_eq_findSome? (x : String) : (c : ClassOf ρ ε) →
    c.method? x = c.lineage.findSome? (·.methods.find? x)
  | mk i name table none => by
    rw [method?, lineage, List.findSome?_cons, methods]
    cases table.find? x <;> rfl
  | mk i name table (some parent) => by
    rw [method?, lineage, List.findSome?_cons, methods, method?_eq_findSome? x parent]
    cases table.find? x <;> rfl

/-- What holds of a class, and of a parent whenever it holds of a class, holds of those extended. -/
theorem forall_mem_lineage {P : ClassOf ρ ε → Prop}
    (hparent : ∀ c p, P c → c.parent = some p → P p) :
    (c : ClassOf ρ ε) → P c → ∀ d ∈ c.lineage, P d
  | mk _ _ _ none, hc, _, hd => List.mem_singleton.1 hd ▸ hc
  | mk i name table (some parent), hc, d, hd => by
    rw [lineage] at hd
    rcases List.mem_cons.1 hd with rfl | hd
    · exact hc
    · exact forall_mem_lineage hparent parent (hparent _ _ hc rfl) d hd

end ClassOf

namespace Machine

/-- A class that is held as a value, or the class of an instance, or one that such a class
extends. -/
inductive Knows (m : Machine) : ClassObject → Prop
  | value {c} : m.Has (.value (.class c)) → Knows m c
  | instance {i c} : m.Has (.value (.instance i c)) → Knows m c
  | parent {c p} : Knows m c → c.parent = some p → Knows m p

/-- The step delivers a value. -/
def Delivers (settings : Settings) (m : Machine) (v : Value) (k : ValueCont) : Prop :=
  ∃ m', m.step settings = .next m' ∧ m'.focus = .deliver v k

variable {m : Machine}

theorem has_of_deliver {v : Value} {k : ValueCont} (h : m.focus = .deliver v k) :
    m.Has (.value v) := by
  refine .focus ?_
  rw [h]
  exact List.mem_cons_self

theorem Invokes.has {v : Value} {args : List Value} {k : ValueCont} (h : m.Invokes v args k) :
    m.Has (.value v) := by
  cases h with
  | bare h => exact has_of_deliver h
  | applied h =>
    refine .focus ?_
    rw [h]
    exact List.mem_cons_of_mem _ List.mem_cons_self

theorem Calls.invokes {v : Value} (h : m.Calls v) : ∃ args k, m.Invokes v args k := by
  cases h with
  | bare h => exact ⟨_, _, .bare h⟩
  | applied h => exact ⟨_, _, .applied h⟩

/-- A method that is bound is found in a known class. -/
theorem BindsTo.known {f : Closure} {r : Value} (h : m.BindsTo f r) :
    ∃ c x, m.Knows c ∧ c.method? x = some f := by
  cases h with
  | taken h =>
    cases h with
    | get hfocus hp | update hfocus hp =>
      exact ⟨_, _, .instance (has_of_deliver hfocus), Store.property?_method hp⟩
    | super hfocus hc hr hf =>
      obtain ⟨e', -, hc⟩ := Scopes.getAt_eq_ok.1 hc
      exact ⟨_, _, .value (.store (.inl ⟨_, _, hc⟩)), hf⟩
  | initializer hi hf => exact ⟨_, _, .value hi.has, hf⟩

/-- If the step goes on, a method that is bound gets a receiver. -/
theorem Binds.bindsTo {settings : Settings} {m' : Machine} {f : Closure} (h : m.Binds f)
    (hstep : m.step settings = .next m') : ∃ r, m.BindsTo f r := by
  cases h with
  | get hfocus hp => exact ⟨_, .taken (.get hfocus hp)⟩
  | update hfocus hp => exact ⟨_, .taken (.update hfocus hp)⟩
  | @super line d x env k c f hfocus hc hf =>
    simp only [step, hfocus, evaluate, lookingUpSuper, hc] at hstep
    cases hr : m.store.scopes.getAt env (d - 1) "this" with
    | ok r => exact ⟨r, .taken (.super hfocus hc hr hf)⟩
    | error f =>
      simp only [hr] at hstep
      cases hstep
  | initializer hcalls hf =>
    obtain ⟨args, k, hi⟩ := hcalls.invokes
    exact ⟨_, .initializer hi hf⟩

end Machine

/-- One of the steps made the class. -/
def Made (past : List Machine) (c : ClassObject) : Prop := ∃ q ∈ past, q.Creates (.class c)

theorem HasOrigin.made {past : List Machine} {c : ClassObject}
    (h : HasOrigin past (.value (.class c))) : Made past c := by
  cases h with
  | plain h => exact h.elim
  | created hq h => exact ⟨_, hq, h⟩

namespace Chronicle
variable {settings : Settings} {past : List Machine} {s : Store}

/-- A class that is extended was made before the one that extends it. -/
theorem made_parent (h : Chronicle settings past s) {c p : ClassObject} (hc : Made past c)
    (hp : c.parent = some p) : Made past p := by
  obtain ⟨q, hq, hc⟩ := hc
  cases hc with
  | base => cases hp
  | derived hfocus =>
    cases hp
    exact (h.origins q hq _ (Machine.has_of_deliver hfocus)).made

theorem made_of_knows (h : Chronicle settings past s) {m : Machine}
    (hm : ∀ it, m.Has it → HasOrigin past it) {c : ClassObject} (hc : m.Knows c) : Made past c := by
  induction hc with
  | value hv => exact (hm _ hv).made
  | «instance» hi =>
    cases hm _ hi with
    | plain h => exact h.elim
    | created hq hcreates =>
      cases hcreates with
      | «instance» hinvokes => exact (h.origins _ hq _ hinvokes.has).made
  | parent _ hp ih => exact h.made_parent ih hp

/-- A method found from a class upwards is one of a class that was made. -/
theorem made_of_method? (h : Chronicle settings past s) {c : ClassObject} (hc : Made past c)
    {x : String} {f : Closure} (hf : c.method? x = some f) :
    ∃ d, Made past d ∧ d.methods.find? x = some f := by
  rw [ClassOf.method?_eq_findSome?] at hf
  obtain ⟨d, hd, hf⟩ := List.exists_of_findSome?_eq_some hf
  exact ⟨d, ClassOf.forall_mem_lineage (fun _ _ => h.made_parent) c hc d hd, hf⟩

/-- Where a method comes from: it is one of a class that was made. -/
theorem method_of_bindsTo (h : Chronicle settings past s) {q : Machine} (hq : q ∈ past)
    {f : Closure} {r : Value} (hf : q.BindsTo f r) :
    ∃ d x, Made past d ∧ d.methods.find? x = some f := by
  obtain ⟨c, x, hc, hf⟩ := hf.known
  obtain ⟨d, hd, hf⟩ := h.made_of_method? (h.made_of_knows (h.origins q hq) hc) hf
  exact ⟨d, x, hd, hf⟩

/-- Methods are initializers by their name. -/
theorem isInitializer_iff (h : Chronicle settings past s) {q : Machine} (hq : q ∈ past)
    {f : Closure} {r : Value} (hf : q.BindsTo f r) :
    f.isInitializer = true ↔ f.name = some "init" := by
  obtain ⟨d, x, ⟨q', -, hd⟩, hfind⟩ := h.method_of_bindsTo hq hf
  cases hd with
  | base | derived =>
    obtain ⟨g, -, rfl⟩ := Machine.mem_of_find?_methodTable hfind
    simp

/-- The receiver of a method is an instance, and all that the scope of the receiver binds. -/
theorem receiver (h : Chronicle settings past s) {q : Machine} (hq : q ∈ past) {f : Closure}
    {r : Value} (hf : q.BindsTo f r) :
    (∃ i c, r = .instance i c) ∧
      s.scopes.bindings (q.bound f).environment.scope = [("this", r)] := by
  refine ⟨?_, (h.seals q hq _ (.receiver hf)).2⟩
  cases hf with
  | taken ht => exact h.takes q hq f r ht
  | initializer => exact ⟨_, _, rfl⟩

/-- What the name of a receiver refers to. -/
theorem getAt_this (h : Chronicle settings past s) {q : Machine} (hq : q ∈ past) {f : Closure}
    {r : Value} (hf : q.BindsTo f r) {env : Environment} {d : Nat}
    (he : env.ancestor? d = some (q.bound f).environment) :
    s.scopes.getAt env d "this" = .ok r := by
  refine Scopes.getAt_eq_ok.2 ⟨_, he, ?_⟩
  rw [(h.receiver hq hf).2]
  rfl

/-- A class that extends another was declared there, and its methods are closed over a scope in
which `super` is that class, and nothing else is bound. -/
theorem superclass (h : Chronicle settings past s) {c p : ClassObject} (hc : Made past c)
    (hp : c.parent = some p) {x : String} {f : Closure} (hf : c.methods.find? x = some f) :
    s.scopes.bindings f.environment.scope = [("super", .class p)] := by
  obtain ⟨q, hq, hc⟩ := hc
  cases hc with
  | base => cases hp
  | derived hfocus =>
    cases hp
    obtain ⟨g, -, rfl⟩ := Machine.mem_of_find?_methodTable hf
    exact (h.seals q hq _ (.superclass hfocus)).2

/-- A method that is closed over the scope made for a superclass is one of the class declared
then. -/
theorem own_method (h : Chronicle settings past s) {q₀ q : Machine} (hq₀ : q₀ ∈ past)
    (hq : q ∈ past) {p : ClassObject} {x y : Name} {ms : List (Method (Option Nat))}
    {env : Environment} {k : StmtCont}
    (hfocus : q₀.focus = .deliver (.class p) (.inherit x y ms env k)) {f : Closure} {r : Value}
    (hf : q.BindsTo f r) (he : f.environment = q₀.inside env) :
    ∃ z, (Machine.methodTable (q₀.inside env) ms).find? z = some f := by
  obtain ⟨d, z, ⟨q₁, hq₁, hd⟩, hfind⟩ := h.method_of_bindsTo hq hf
  have hseals : q₀.Seals _ := .superclass hfocus
  cases hd with
  | base hbase =>
    obtain ⟨g, -, rfl⟩ := Machine.mem_of_find?_methodTable hfind
    subst he
    exact absurd rfl (h.scope_ne hq₀ hseals (h.writes q₁ hq₁ _ (.declared hbase rfl)))
  | derived hderived =>
    have hf' := hfind
    obtain ⟨g, -, rfl⟩ := Machine.mem_of_find?_methodTable hf'
    have hscope : (⟨q₁.store.size⟩ : ScopeId) = ⟨q₀.store.size⟩ := congrArg Environment.scope he
    have ha := (h.seals q₁ hq₁ _ (.superclass hderived)).1
    rw [hscope] at ha
    obtain rfl := h.unique q₁ hq₁ q₀ hq₀ _ ha (h.seals q₀ hq₀ _ hseals).1
    cases hderived.symm.trans hfocus
    exact ⟨z, hfind⟩

end Chronicle

/-- The activation of a method around a place. -/
theorem World.Fits.activated {W : World} {Γ : Frames} {env : Environment} (hfits : W.Fits Γ env)
    {d : Nat} {ms : List (Method (Option Nat))} (hd : Γ[d]? = some (.receiver ms)) :
    ∃ q ∈ W.past, ∃ f r, q.BindsTo f r ∧ f.code ∈ ms.map Method.code ∧
      env.ancestor? d = some (q.bound f).environment := by
  obtain ⟨e', he', ⟨q, hq, hprepares, hopens⟩, -⟩ := hfits.ancestor_of_get hd
  obtain ⟨m', hstep, -⟩ := hopens
  cases hprepares with
  | receiver hbinds hmem =>
    obtain ⟨r, hbinds⟩ := hbinds.bindsTo hstep
    exact ⟨q, hq, _, r, hbinds, hmem, he'⟩

/-- The place of a use of a name that is looked at. -/
theorem World.Inv.standsIn {settings : Settings} {sources : List String} {past : List Machine}
    {m : Machine} (h : (World.of settings sources past m.store).Inv m) {e : RExpr}
    {env : Environment} {k : ValueCont} (hfocus : m.focus = .evaluate e env k)
    {u : Use (Option Nat)} (hu : e.use? = some u) :
    ∃ Γ e₀, ExprAt (programsOf sources) Γ e₀ e ∧
      (World.of settings sources past m.store).Fits Γ env ∧
      StandsIn settings sources past m u env Γ := by
  obtain ⟨-, -, -, -, -, -, hcurrent⟩ := h.use (.evaluate hfocus hu)
  have hf := h.focus
  rw [hfocus] at hf
  obtain ⟨⟨Γ, e₀, hat, hfits⟩, -, -⟩ := hf
  obtain ⟨hu₀, href⟩ := use_of_exprAt hat hu
  obtain ⟨a, hoccurs, -⟩ := id hat
  exact ⟨Γ, e₀, hat, hfits, ⟨⟨a, _, hoccurs, hu₀⟩, href, hfits.activates, hcurrent⟩⟩

end LoxScript
