import LoxScript.Proofs.Binding.Growth

/-!
Every step keeps the invariant.

The steps that make scopes are the ones to look at: a block, a call, a method bound to its receiver,
and a class with a superclass.  All others pass on what the state holds already.
-/

namespace LoxScript

/-- A value without an identity. -/
def ValueOf.IsPlain : Value → Prop
  | .function _ _ | .class _ | .instance _ _ => False
  | _ => True

/-- Operations make no functions, classes or instances. -/
theorem isPlain_arith {op : ArithOp} {v w r : Value} (h : op.apply v w = .ok r) : r.IsPlain := by
  unfold ArithOp.apply at h
  repeat' split at h
  all_goals
    cases h
    try trivial

theorem isPlain_order {op : OrderOp} {v w r : Value} (h : op.apply v w = .ok r) : r.IsPlain := by
  unfold OrderOp.apply at h
  split at h
  all_goals
    cases h
    try trivial

theorem isPlain_binary {op : BinaryOp} {v w r : Value} (h : op.apply v w = .ok r) : r.IsPlain := by
  cases op with
  | arith op => exact isPlain_arith h
  | order op => exact isPlain_order h
  | equal | notEqual =>
    cases h
    trivial

theorem isPlain_unary {op : UnaryOp} {v r : Value} (h : op.apply v = .ok r) : r.IsPlain := by
  unfold UnaryOp.apply at h
  split at h
  all_goals
    cases h
    try trivial

namespace World

/-- The environment of a call, in which the parameters are bound. -/
theorem Fits.call {W : World} {f : Closure} {arguments : List Value} {Γ : Frames}
    (hfits : W.Fits Γ f.environment) (hlen : arguments.length = f.arity)
    (hopen : W.Opened (.function f.code) (.nested ⟨W.store.size⟩ f.environment)) :
    (W.withStore (W.store.enter f.environment (Machine.parameterBindings f arguments)).2).Fits
      (⟨.function f.code, Frames.parameterNames f.code.params⟩ :: Γ)
      (.nested ⟨W.store.size⟩ f.environment) := by
  have hle := le_enter W f.environment (Machine.parameterBindings f arguments)
  refine .nested (hfits.mono hle) (hle.opened hopen) ?_ ⟨fun x hx => ?_, nofun, nofun⟩
  · exact Store.size_lt_enter W.store f.environment _
  · obtain ⟨p, hp, hpx⟩ := List.any_eq_true.1 hx
    obtain ⟨y, hy, rfl⟩ := List.mem_map.1 hp
    have hxy : y.text = x := eq_of_beq hpx
    subst hxy
    obtain ⟨v, hv⟩ := Machine.find?_parameterBindings hlen (List.mem_reverse.1 hy)
    have hnew := Store.find?_enter W.store f.environment (Machine.parameterBindings f arguments)
      ⟨W.store.size⟩ y.text
    rw [if_pos rfl, hv] at hnew
    exact .inl ⟨v, hnew⟩

theorem leads_entering {W : World} {m : Machine} (hb : W.Base m) {f : Closure}
    {arguments : List Value} {result : CallResult} {k : ValueCont} (hf : W.ClosureOk f)
    (hlen : arguments.length = f.arity) (hargs : ∀ v ∈ arguments, W.ValueOk v)
    (hresult : W.ResultOk result) (hk : W.ValueContOk k)
    (hopen : W.Opened (.function f.code) (.nested ⟨W.store.size⟩ f.environment))
    (henters : ∃ q ∈ W.past,
      q.Enters W.settings (.nested ⟨W.store.size⟩ f.environment) (.call result k)) :
    W.Leads (m.entering f arguments result k) := by
  obtain ⟨⟨Γ, c₀, hat, hfits⟩, -⟩ := hf
  obtain ⟨ss₀, -, hss, -, -⟩ := hat.body
  have hg := Grows.enter hb.settled f.environment (Machine.parameterBindings f arguments)
    fun x v hv => hargs v (Machine.mem_of_find?_parameterBindings hv)
  have hb' := hb.withStore hg
  have hk' : (W.withStore (W.store.enter f.environment
      (Machine.parameterBindings f arguments)).2).StmtContOk
      (.sequence f.code.body (.nested ⟨W.store.size⟩ f.environment) (.call result k)) :=
    ⟨⟨_, ss₀, hss, hfits.call hlen hopen⟩, henters, hresult.mono hg.le, hk.mono hg.le⟩
  rw [hb.store] at hg hk' hb'
  rw [Machine.entering_eq]
  rintro m' ⟨⟩
  exact ⟨hg.le, ⟨rfl, hb'.settled, hb'.pending⟩, nofun, hk'⟩

/-- A step that makes a scope for a call opens it, and begins to run the body. -/
theorem opened_of_entering {W : World} {q m m' : Machine} (hq : q ∈ W.past) {f : Closure}
    {arguments : List Value} {result : CallResult} {k : ValueCont}
    (hm : m.entering f arguments result k = .next m')
    (hstep : q.step W.settings = .next m') (hsize : q.store.size ≤ m.store.size)
    (hprepares : q.Prepares (.function f.code) (.nested ⟨m.store.size⟩ f.environment)) :
    W.Opened (.function f.code) (.nested ⟨m.store.size⟩ f.environment) ∧
      ∃ q ∈ W.past,
        q.Enters W.settings (.nested ⟨m.store.size⟩ f.environment) (.call result k) := by
  rw [Machine.entering_eq] at hm
  cases hm
  have hlt := Store.size_lt_enter m.store f.environment (Machine.parameterBindings f arguments)
  exact ⟨⟨q, hq, hprepares, _, hstep, hlt⟩, q, hq, _, _, hstep, rfl, hsize⟩

theorem leads_invoking {W : World} {m : Machine} (hb : W.Base m) (hm : m ∈ W.past) {v : Value}
    {callee : Callable} {arguments : List Value} {k : ValueCont} (hcalls : m.Calls v)
    (hv : W.ValueOk v) (hcallee : v.callable? = some callee)
    (hlen : arguments.length = callee.arity) (hargs : ∀ v ∈ arguments, W.ValueOk v)
    (hk : W.ValueContOk k)
    (hstep : m.step W.settings = m.invoking W.settings callee arguments k) :
    W.Leads (m.invoking W.settings callee arguments k) := by
  intro m' hm'
  rw [hm'] at hstep
  refine (?_ : W.Leads _) m' hm'
  cases v with
  | native f =>
    cases hcallee
    have hg : W.Grows m.store.tick.2 := .of_scopes hb.settled (by rw [hb.store]; rfl) (by
      have := hb.settled.fields
      rwa [hb.store] at this)
    exact .of_withStore hg.le (leads_delivering (hb.withStore hg) trivial (hk.mono hg.le))
  | function i f =>
    cases hcallee
    have hresult : W.ResultOk (if f.isInitializer then .receiver f.environment else .returned) := by
      split
      · exact hv.2 ‹_›
      · trivial
    obtain ⟨hopen, henters⟩ := opened_of_entering hm hm' hstep (Nat.le_refl _) (.function hcalls)
    rw [← hb.store] at hopen henters
    exact leads_entering hb hv hlen hargs hresult hk hopen henters
  | «class» c =>
    cases hcallee
    have hg := Grows.makeInstance hb.settled c
    rw [hb.store] at hg
    have hb' := hb.withStore hg
    have hc : (W.withStore (m.store.makeInstance c).2).ClassOk c := ClassOk.mono hg.le hv
    have hinst : (W.withStore (m.store.makeInstance c).2).ValueOk (m.store.makeInstance c).1 := hc
    simp only [Machine.invoking, Machine.make_eq] at hm' ⊢
    cases hinit : c.initializer? with
    | none => exact .of_withStore hg.le (leads_delivering hb' hinst (hk.mono hg.le))
    | some f =>
      rw [hinit] at hm'
      dsimp only at hm' ⊢
      have hlen : arguments.length = f.arity := by
        rw [hlen, CallableOf.arity, ClassOf.arity, hinit]
      have hmethod : (W.withStore (m.store.makeInstance c).2).MethodOk f := hc "init" f hinit
      have hg₂ := Grows.bind hg.settled (f := f) hinst
      have hsize : m'.store.size = m.store.size + 2 := by
        rw [Machine.entering_eq] at hm'
        cases hm'
        simp [Store.bind_eq]
        rfl
      have hreceiver : ∀ ms, f.code ∈ ms.map Method.code →
          W.Opened (.receiver ms) (.nested ⟨m.store.size⟩ f.environment) := fun ms hmem =>
        ⟨m, hm, .receiver (.initializer hcalls hinit) hmem, m', hstep, by
          show m.store.size < m'.store.size
          omega⟩
      have hclosure := closureOk_bind hmethod (i := m.store.fields.size) (c := c) hreceiver
      have hsize₂ : ((m.store.makeInstance c).2.bind f (m.store.makeInstance c).1).2.size =
          m.store.size + 1 := Store.size_bind (m.store.makeInstance c).2 f _
      have hprepares := Machine.Prepares.initializer hcalls hinit
      rw [← hsize₂] at hprepares
      obtain ⟨hopen, henters⟩ := opened_of_entering hm hm' hstep
        (hsize₂ ▸ Nat.le_succ _) hprepares
      refine .of_withStore hg.le (.of_withStore hg₂.le ?_)
      exact leads_entering (hb'.withStore hg₂) hclosure hlen
        (fun v hv => ((hargs v hv).mono hg.le).mono hg₂.le) (hinst.mono hg₂.le)
        ((hk.mono hg.le).mono hg₂.le) hopen henters
  | _ => cases hcallee

theorem leads_calling {W : World} {m : Machine} (hb : W.Base m) (hm : m ∈ W.past) {callee : Value}
    {arguments : List Value} {line : Nat} {k : ValueCont} (hcalls : m.Calls callee)
    (hv : W.ValueOk callee) (hargs : ∀ v ∈ arguments, W.ValueOk v) (hk : W.ValueContOk k)
    (hstep : m.step W.settings = m.calling W.settings callee arguments line k) :
    W.Leads (m.calling W.settings callee arguments line k) := by
  unfold Machine.calling at hstep ⊢
  cases hc : callee.callable? with
  | none => exact .stop W m _
  | some c =>
    rw [hc] at hstep
    dsimp only at hstep ⊢
    split
    · exact .stop W m _
    · split
      · exact .stop W m _
      · rename_i hlen hdepth
        rw [if_neg hlen, if_neg hdepth] at hstep
        exact leads_invoking hb hm hcalls hv hc (Decidable.not_not.1 hlen) hargs hk hstep

theorem leads_nextArgument {W : World} {m : Machine} (hb : W.Base m) (hm : m ∈ W.past)
    {callee : Value} {earlier : List Value} {later : List RExpr} {env : Environment} {line : Nat}
    {k : ValueCont} (hcalls : later = [] → m.Calls callee) (hv : W.ValueOk callee)
    (hargs : ∀ v ∈ earlier, W.ValueOk v) (hlater : ∀ e ∈ later, W.ExprOk e env)
    (henv : env = k.statement.environment) (hk : W.ValueContOk k)
    (hstep : m.step W.settings = m.nextArgument W.settings line callee earlier later env k) :
    W.Leads (m.nextArgument W.settings line callee earlier later env k) := by
  cases later with
  | nil =>
    exact leads_calling hb hm (hcalls rfl) hv (fun v h => hargs v (List.mem_reverse.1 h)) hk hstep
  | cons e later =>
    refine .next hb ⟨hlater e List.mem_cons_self, henv, ⟨hv, hargs⟩, fun e' he' => ?_, henv, hk⟩
    exact hlater e' (List.mem_cons_of_mem e he')

/-- A property of an instance; if it is a method, the scope of its receiver is opened. -/
theorem leads_takingProperty {W : World} {m : Machine} (hb : W.Base m) (hm : m ∈ W.past) {i : Nat}
    {c : ClassObject} {x : Name} {next : Machine → Value → Step} (hc : W.ClassOk c)
    (hbinds : ∀ f, m.store.property? i c x.text = some (.method f) → m.Binds f)
    (hstep : m.step W.settings = m.takingProperty i c x next)
    (hsame : ∀ m' v m'', next m' v = .next m'' → m''.store = m'.store)
    (hnext : ∀ s v, W.Grows s → (W.withStore s).ValueOk v →
      (W.withStore s).Leads (next { m with store := s } v)) :
    W.Leads (m.takingProperty i c x next) := by
  intro m' hm'
  rw [hm'] at hstep
  refine (?_ : W.Leads _) m' hm'
  unfold Machine.takingProperty at hm' ⊢
  cases hp : m.store.property? i c x.text with
  | none => exact .stop W m _
  | some p =>
    rw [hp] at hm'
    dsimp only at hm' ⊢
    cases p with
    | field v =>
      have hv : W.ValueOk v := hb.settled.fields i x.text v (hb.store ▸ Store.property?_field hp)
      have hg := hb.grows
      exact .of_withStore hg.le (hnext m.store v hg (hv.mono hg.le))
    | method f =>
      have hmethod : W.MethodOk f := hc x.text f (Store.property?_method hp)
      have hsize : m'.store.size = m.store.size + 1 := by
        rw [hsame _ _ _ hm']
        exact Store.size_bindValue m.store f (.instance i c)
      have hopen : ∀ ms, f.code ∈ ms.map Method.code →
          W.Opened (.receiver ms) (.nested ⟨W.store.size⟩ f.environment) := by
        intro ms hmem
        rw [hb.store]
        refine ⟨m, hm, .receiver (hbinds f hp) hmem, m', hstep, ?_⟩
        show m.store.size < m'.store.size
        omega
      have hg := Grows.bindValue hb.settled (f := f) (v := .instance i c) hc
      have hv := valueOk_bindValue hb.settled hmethod (i := i) hc hopen
      rw [hb.store] at hg hv
      exact .of_withStore hg.le (hnext _ _ hg hv)

/-- Something bound is no longer awaited. -/
theorem le_settled {W : World} {s : Store} (hle : W.Le (W.withStore s)) {e : Environment}
    {x : String} (h : ∃ v, s.find? e.scope x = some v) : (W.awaiting e x).Le (W.withStore s) :=
  (hle.awaiting e x).trans (.settle (.inl h))

/-- A declaration ends by binding its name. -/
theorem leads_declaring {W : World} {m : Machine} (hb : W.Base m) {e : Environment}
    (hlt : e.scope.index < W.store.size) {x : String} (hx : Keyword.ofText? x = none) {v : Value}
    (hv : (W.withStore (m.store.define e x v)).ValueOk v) {k : StmtCont}
    (hk : (W.awaiting e x).StmtContOk k) :
    W.Leads ((m.change (·.define e x v)).completing .normal k) := by
  refine leads_define hb (r := (·.completing .normal k)) hlt hx hv fun hb' hle => ?_
  refine leads_completing hb' (hk.mono (le_settled hle ⟨v, ?_⟩))
  rw [hb.store] at hlt
  exact Store.find?_define_self hlt x v

theorem classOk_methodTable {W : World} {Γ : Frames} {ms₀ : List (Method Unit)}
    {ms : List (Method (Option Nat))} {e : Environment}
    (hfits : W.Fits Γ e) (hms : MethodsAt W.programs (.receiver ms :: Γ) ms₀ ms) (i : Nat)
    (name : String) {parent : Option ClassObject} (hparent : ∀ c ∈ parent, W.ClassOk c) :
    W.ClassOk (.mk i name (Machine.methodTable e ms) parent) := by
  have hown : ∀ x f, (Machine.methodTable e ms).find? x = some f → W.MethodOk f := by
    intro x f hf
    obtain ⟨g, hg, rfl⟩ := Machine.mem_of_find?_methodTable hf
    obtain ⟨g₀, -, hat⟩ := hms.exists_of_mem hg
    exact ⟨Γ, ms, _, hat, List.mem_map_of_mem hg, hfits⟩
  intro x f hf
  cases parent with
  | none => exact hown x f hf
  | some c =>
    rw [ClassOf.method?, Option.or_eq_some_iff] at hf
    rcases hf with hf | ⟨-, hf⟩
    · exact hown x f hf
    · exact hparent c rfl x f hf

/-- A class is made, its methods in the environment `e`, and its name is bound in `env`. -/
theorem leads_makingClass {W : World} {m : Machine} (hb : W.Base m) {x : Name} {Γ : Frames}
    {ms₀ : List (Method Unit)} {ms : List (Method (Option Nat))} {e env : Environment}
    {parent : Option ClassObject} {k : StmtCont} (hx : x.IsFree)
    (hms : MethodsAt W.programs (.receiver ms :: Γ) ms₀ ms) (hlt : env.scope.index < W.store.size)
    (hfits : (W.awaiting env x.text).Fits Γ e) (hparent : ∀ c ∈ parent, W.ClassOk c)
    (hk : (W.awaiting env x.text).StmtContOk k) :
    W.Leads (((m.make (·.makeClass x.text (Machine.methodTable e ms) parent)).2.change
      (·.define env x.text
        (m.make (·.makeClass x.text (Machine.methodTable e ms) parent)).1)).completing .normal
          k) := by
  have hg : W.Grows (m.store.makeClass x.text (Machine.methodTable e ms) parent).2 :=
    .of_scopes hb.settled (by rw [hb.store]; rfl) (hb.store ▸ hb.settled.fields)
  have hb' := hb.withStore hg
  have hlt' := Nat.lt_of_lt_of_le hlt hg.le.size
  have hle := hg.le.trans (le_define hlt' hx
    (m.store.makeClass x.text (Machine.methodTable e ms) parent).1)
  refine .of_withStore hg.le (leads_declaring hb' hlt' hx ?_ (hk.mono (hg.le.awaiting env x.text)))
  have hfits' := hfits.mono (le_settled hle
    ⟨_, Store.find?_define_self hlt' x.text (m.store.makeClass x.text _ parent).1⟩)
  exact classOk_methodTable hfits' hms _ _ fun c hc => ClassOk.mono hle (hparent c hc)

/-- A class that extends another; the scope of its superclass is opened. -/
theorem leads_inheriting {W : World} {m : Machine} (hb : W.Base m) (hm : m ∈ W.past)
    {x y : Name} {ms : List (Method (Option Nat))} {env : Environment} {k : StmtCont}
    {c : ClassObject} (hfocus : m.focus = .deliver (.class c) (.inherit x y ms env k))
    (hc : W.ClassOk c) (hi : W.InheritOk x ms env) (hk : (W.awaiting env x.text).StmtContOk k)
    (hstep : m.step W.settings = m.declaringClass x (some c) ms env k) :
    W.Leads (m.declaringClass x (some c) ms env k) := by
  obtain ⟨Γ, ms₀, hms, hfits, hx⟩ := hi
  intro m' hm'
  rw [hm'] at hstep
  refine (?_ : W.Leads _) m' hm'
  have hlt : env.scope.index < W.store.size :=
    Fits.lt_size (W := W.awaiting env x.text) hb.settled.positive hfits
  have hg := Grows.enter hb.settled env [("super", .class c)] fun y v hv => by
    rw [Bindings.find?_cons] at hv
    split at hv
    · exact Option.some.inj hv ▸ hc
    · cases hv
  have hsuper : (W.store.enter env [("super", .class c)]).2.find? ⟨W.store.size⟩ "super" =
      some (.class c) := by
    rw [Store.find?_enter, if_pos rfl]
    rfl
  have hsize : m.store.size < m'.store.size := by
    simp only [Machine.declaringClass, Machine.make_eq, Machine.change_eq] at hm'
    cases hm'
    rw [Store.size_define]
    exact Store.size_lt_enter m.store env _
  have hopen : W.Opened (.superclass ms) (.nested ⟨W.store.size⟩ env) := by
    rw [hb.store]
    exact ⟨m, hm, .superclass hfocus, m', hstep, hsize⟩
  have hframe : ((W.withStore (W.store.enter env [("super", .class c)]).2).awaiting env
      x.text).Fits (.superclass ms :: Γ) (.nested ⟨W.store.size⟩ env) := by
    have hle := hg.le.awaiting env x.text
    refine .nested (hfits.mono hle) (hg.le.opened hopen) ?_ ⟨fun y hy => ?_, nofun, fun _ _ => ?_⟩
    · exact Store.size_lt_enter W.store env _
    · have hy : ("super" == y || false) = true := hy
      rw [Bool.or_false, beq_iff_eq] at hy
      subst hy
      exact .inl ⟨_, hsuper⟩
    · exact ⟨c, hsuper⟩
  have hlt₁ := Nat.lt_of_lt_of_le hlt hg.le.size
  have hc₁ := ClassOk.mono hg.le hc
  have hk₁ := hk.mono (hg.le.awaiting env x.text)
  rw [hb.store] at hg hframe hlt₁ hk₁ hc₁
  refine .of_withStore hg.le (leads_makingClass (hb.withStore hg) hx hms hlt₁ hframe ?_ hk₁)
  rintro d ⟨⟩
  exact hc₁

/-- The environment for the scope at a distance. -/
theorem Fits.ancestor_of_get {W : World} {Γ : Frames} {e : Environment} (h : W.Fits Γ e) {d : Nat}
    {f : Frame} (hf : Γ[d]? = some f) :
    ∃ e', e.ancestor? d = some e' ∧ W.Opened f.opener e' ∧ W.Holds f e' := by
  induction d generalizing Γ e with
  | zero =>
    cases h with
    | globals => cases hf
    | nested h ho _ hh =>
      cases hf
      exact ⟨_, rfl, ho, hh⟩
  | succ d ih =>
    cases h with
    | globals => cases hf
    | nested h _ _ _ => exact ih h hf

theorem exprOk_of_forall₂ {W : World} {Γ : Frames} {env : Environment} (hfits : W.Fits Γ env)
    {es₀ : List (Expr Unit)} {es : List RExpr}
    (h : List.Forall₂ (ExprAt W.programs Γ) es₀ es) : ∀ e ∈ es, W.ExprOk e env := by
  induction h with
  | nil => exact fun e he => absurd he List.not_mem_nil
  | cons he _ ih => exact List.forall_mem_cons.2 ⟨⟨Γ, _, he, hfits⟩, ih⟩

theorem leads_lookingUpSuper {W : World} {m : Machine} (hb : W.Base m) (hm : m ∈ W.past)
    {line d : Nat} {x : Name} {env : Environment} {k : ValueCont}
    (hfocus : m.focus = .evaluate (.super line (some d) x) env k)
    (hthis : ∀ v, m.store.scopes.getAt env (d - 1) "this" = .ok v → ∃ i c, v = .instance i c)
    (hk : W.ValueContOk k) : W.Leads (m.lookingUpSuper (some d) x env k) := by
  intro m' hm'
  have hstep : m.step W.settings = .next m' := by
    rw [Machine.step, hfocus]
    exact hm'
  refine (?_ : W.Leads _) m' hm'
  unfold Machine.lookingUpSuper at hm' ⊢
  dsimp only at hm' ⊢
  split
  · rename_i c receiver hsuper hreceiver
    rw [hsuper, hreceiver] at hm'
    dsimp only at hm'
    obtain ⟨e₁, -, h₁⟩ := Scopes.getAt_eq_ok.1 hsuper
    obtain ⟨e₂, -, h₂⟩ := Scopes.getAt_eq_ok.1 hreceiver
    have hc : W.ClassOk c := hb.bound h₁
    cases hmeth : c.method? x.text with
    | none => exact .stop W m _
    | some f =>
      rw [hmeth] at hm'
      dsimp only at hm' ⊢
      obtain ⟨i, c', rfl⟩ := hthis receiver hreceiver
      have hc' : W.ClassOk c' := hb.bound h₂
      have hsize : m.store.size < m'.store.size := by
        cases hm'
        rw [Machine.make_eq, Store.size_bindValue]
        exact Nat.lt_succ_self _
      have hopen : ∀ ms, f.code ∈ ms.map Method.code →
          W.Opened (.receiver ms) (.nested ⟨W.store.size⟩ f.environment) := by
        intro ms hmem
        rw [hb.store]
        exact ⟨m, hm, .receiver (.super hfocus hsuper hmeth) hmem, m', hstep, hsize⟩
      have hg := Grows.bindValue hb.settled (f := f) (v := .instance i c') hc'
      have hv := valueOk_bindValue hb.settled (hc x.text f hmeth) (i := i) hc' hopen
      rw [hb.store] at hg hv
      exact .of_withStore hg.le (leads_delivering (hb.withStore hg) hv (hk.mono hg.le))
  all_goals exact .stop W m _

theorem leads_evaluate {W : World} {m : Machine} (hb : W.Base m) (hm : m ∈ W.past) {e : RExpr}
    {env : Environment} {k : ValueCont} (hfocus : m.focus = .evaluate e env k)
    (hf : W.FocusOk (.evaluate e env k)) : W.Leads (m.evaluate e env k) := by
  obtain ⟨⟨Γ, e₀, hat, hfits⟩, henv, hk⟩ := hf
  have hok {o₀ : Expr Unit} {o : RExpr} (ho : ExprAt W.programs Γ o₀ o) : W.ExprOk o env :=
    ⟨Γ, o₀, ho, hfits⟩
  cases hat.view with
  | literal v => exact leads_delivering hb (by cases v <;> trivial) hk
  | grouping he => exact .next hb ⟨hok he, henv, hk⟩
  | unary he => exact .next hb ⟨hok he, henv, hk⟩
  | binary hl hr => exact .next hb ⟨hok hl, henv, hok hr, henv, hk⟩
  | logical hl hr => exact .next hb ⟨hok hl, henv, hok hr, henv, hk⟩
  | var hx =>
    rw [Machine.evaluate]
    exact leads_lookingUp hb hk
  | assign hx he => exact .next hb ⟨hok he, henv, ⟨_, hok hat⟩, henv, hk⟩
  | call hcallee hargs =>
    exact .next hb ⟨hok hcallee, henv, exprOk_of_forall₂ hfits hargs, henv, hk⟩
  | get he => exact .next hb ⟨hok he, henv, hk⟩
  | set ho hv => exact .next hb ⟨hok ho, henv, hok hv, henv, hk⟩
  | update ho hv => exact .next hb ⟨hok ho, henv, hok hv, henv, hk⟩
  | this hd hm =>
    rw [Machine.evaluate]
    exact leads_lookingUp hb hk
  | super hd _ hreceiver hsuper =>
    refine leads_lookingUpSuper hb hm hfocus (fun v hv => ?_) hk
    obtain ⟨e', he', -, hh⟩ := hfits.ancestor_of_get hreceiver
    obtain ⟨e'', he'', hv⟩ := Scopes.getAt_eq_ok.1 hv
    cases he'.symm.trans he''
    obtain ⟨i, c, hi⟩ := hh.this _ rfl
    rw [hb.store] at hi
    exact ⟨i, c, Option.some.inj (hv.symm.trans hi)⟩
  | @function line c₀ c hc =>
    have hg := Grows.makeFunction hb.settled
      { name := none, code := c, environment := env, isInitializer := false }
    rw [hb.store] at hg
    refine .of_withStore hg.le (leads_delivering (hb.withStore hg) ?_ (hk.mono hg.le))
    exact ClosureOk.mono hg.le ⟨⟨Γ, _, hc, hfits⟩, nofun⟩

theorem leads_execute {W : World} {m : Machine} (hb : W.Base m) (hm : m ∈ W.past) {s : RStmt}
    {env : Environment} {k : StmtCont} (hfocus : m.focus = .execute s env k)
    (hf : W.FocusOk (.execute s env k)) : W.Leads (m.execute s env k) := by
  have hstep : m.step W.settings = m.execute s env k := by rw [Machine.step, hfocus]
  obtain ⟨⟨Γ, s₀, hat, hfits⟩, henv, hk⟩ := hf
  have hlt : env.scope.index < W.store.size := hfits.lt_size hb.settled.positive
  cases hat.view with
  | expression he => exact .next hb ⟨⟨Γ, _, he, hfits⟩, henv, hk⟩
  | print he => exact .next hb ⟨⟨Γ, _, he, hfits⟩, henv, hk⟩
  | empty hx _ => exact leads_declaring hb (v := .nil) hlt hx trivial hk
  | @var x e₀ e hx _ he =>
    have hbegun : W.Has env x.text := .inr (.inl ⟨m, hm, x, e, k, hfocus, rfl⟩)
    exact .next hb ⟨⟨_, _, he, hfits.declare hbegun false⟩, henv, ⟨hx, hlt⟩, henv, hk⟩
  | @block ss₀ ss hss =>
    have hg := Grows.enter hb.settled env [] nofun
    have hopen : W.Opened (.block ss) (.nested ⟨W.store.size⟩ env) := by
      rw [hb.store]
      exact ⟨m, hm, .block hfocus, _, hstep, Store.size_lt_enter m.store env []⟩
    have henters : ∃ q ∈ W.past, q.Enters W.settings (.nested ⟨W.store.size⟩ env) k := by
      rw [hb.store]
      exact ⟨m, hm, _, ss, hstep, rfl, Nat.le_refl _⟩
    have hin : (W.withStore (W.store.enter env []).2).Fits (⟨.block ss, []⟩ :: Γ)
        (.nested ⟨W.store.size⟩ env) := by
      refine .nested (hfits.mono hg.le) (hg.le.opened hopen) ?_ ⟨nofun, nofun, nofun⟩
      exact Store.size_lt_enter W.store env []
    have hk' := hk.mono hg.le
    rw [hb.store] at hg hin hk' henters
    exact .of_withStore hg.le (leads_completing (hb.withStore hg) ⟨⟨_, _, hss, hin⟩, henters, hk'⟩)
  | branch he hyes hno =>
    refine .next hb ⟨⟨Γ, _, he, hfits⟩, henv, ⟨⟨⟨Γ, _, hyes.1, hfits⟩, hyes.2⟩, ?_⟩, henv, hk⟩
    rintro s hs
    cases hno with
    | none => cases hs
    | some hno =>
      cases hs
      exact ⟨⟨Γ, _, hno.1, hfits⟩, hno.2⟩
  | loop he hs =>
    exact .next hb ⟨⟨Γ, _, he, hfits⟩, henv, ⟨⟨Γ, _, he, hfits⟩, ⟨Γ, _, hs.1, hfits⟩, hs.2⟩,
      henv, hk⟩
  | @function x c₀ c hx _ hc =>
    let f : Closure :=
      { name := some x.text, code := c, environment := env, isInitializer := false }
    have hg := Grows.makeFunction hb.settled f
    have hlt' := Nat.lt_of_lt_of_le hlt hg.le.size
    rw [hb.store] at hg hlt'
    have hle := hg.le.trans (le_define hlt' hx (m.store.makeFunction f).1)
    refine .of_withStore hg.le (leads_declaring (hb.withStore hg) hlt' hx ?_
      (hk.mono (hg.le.awaiting env x.text)))
    refine ⟨⟨_, c₀, hc, (hfits.mono hle).declare (.inl ⟨(m.store.makeFunction f).1, ?_⟩) true⟩,
      nofun⟩
    exact Store.find?_define_self hlt' x.text _
  | ret he =>
    cases he with
    | none => exact .next hb ⟨fun v hv => by cases hv; trivial, hk⟩
    | some he => exact .next hb ⟨⟨Γ, _, he, hfits⟩, henv, hk⟩
  | @base x ms₀ ms hx _ hms =>
    have hx' := hfits.mono (.of_awaiting W env x.text)
    exact leads_makingClass hb hx hms hlt (hx'.declare (.inr (.inr List.mem_cons_self)) true)
      nofun hk
  | @derived x y ref ms₀ ms hx _ _ hparent hms =>
    have hx' := hfits.mono (.of_awaiting W env x.text)
    exact .next hb ⟨⟨Γ, _, hparent, hfits⟩, henv,
      ⟨_, _, hms, hx'.declare (.inr (.inr List.mem_cons_self)) true, hx⟩, henv, hk⟩

theorem valueOk_of_isPlain {W : World} {v : Value} (h : v.IsPlain) : W.ValueOk v := by
  cases v with
  | function | «class» | «instance» => exact h.elim
  | _ => trivial

theorem leads_deliveringResult {W : World} {m : Machine} (hb : W.Base m)
    {r : Except Fault Value} {t : Token} {k : ValueCont} (hr : ∀ v, r = .ok v → v.IsPlain)
    (hk : W.ValueContOk k) : W.Leads (m.deliveringResult r t k) := by
  cases r with
  | ok v => exact leads_delivering hb (valueOk_of_isPlain (hr v rfl)) hk
  | error f => exact .stop W m _

theorem leads_deliver {W : World} {m : Machine} (hb : W.Base m) (hm : m ∈ W.past) {v : Value}
    {k : ValueCont} (hfocus : m.focus = .deliver v k) (hf : W.FocusOk (.deliver v k)) :
    W.Leads (m.deliver W.settings v k) := by
  have hstep : m.step W.settings = m.deliver W.settings v k := by rw [Machine.step, hfocus]
  obtain ⟨hv, hk⟩ := hf
  cases k with
  | unary op line k => exact leads_deliveringResult hb (fun _ => isPlain_unary) hk
  | binaryLeft op line right env k => exact .next hb ⟨hk.1, hk.2.1, hk.2.2⟩
  | binaryRight op line left k => exact leads_deliveringResult hb (fun _ => isPlain_binary) hk
  | logical op right env k =>
    rw [Machine.deliver]
    split
    · exact leads_delivering hb hv hk.2.2
    · exact .next hb ⟨hk.1, hk.2.1, hk.2.2⟩
  | assign name ref env k => exact leads_assigning hb hk.1 hv hk.2.2
  | callee line arguments env k =>
    refine leads_nextArgument hb hm ?_ hv nofun hk.1 hk.2.1 hk.2.2 hstep
    rintro rfl
    exact .bare hfocus
  | argument line callee earlier later env k =>
    refine leads_nextArgument hb hm ?_ hk.1.1 ?_ hk.2.1 hk.2.2.1 hk.2.2.2 hstep
    · rintro rfl
      exact .applied hfocus
    · exact List.forall_mem_cons.2 ⟨hv, hk.1.2⟩
  | get property k =>
    cases v with
    | «instance» i c =>
      rw [Machine.deliver] at hstep ⊢
      refine leads_takingProperty hb hm hv (fun f => .get hfocus) hstep ?_ ?_
      · rintro m' v m'' ⟨⟩
        rfl
      · intro s v hg hv
        exact leads_delivering (hb.withStore hg) hv (hk.mono hg.le)
    | _ => exact .stop W m _
  | setObject property value env k =>
    cases v with
    | «instance» i c => exact .next hb ⟨hk.1, hk.2.1, hk.2.2⟩
    | _ => exact .stop W m _
  | setValue i property k =>
    have hg := Grows.setField hb.settled i property.text hv
    rw [hb.store] at hg
    exact .of_withStore hg.le (leads_delivering (hb.withStore hg) (hv.mono hg.le) (hk.mono hg.le))
  | updateObject property op line value env k =>
    cases v with
    | «instance» i c =>
      rw [Machine.deliver] at hstep ⊢
      refine leads_takingProperty hb hm hv (fun f => .update hfocus) hstep ?_ ?_
      · rintro m' v m'' ⟨⟩
        rfl
      · intro s v hg hv
        exact .next (hb.withStore hg) ⟨hk.1.mono hg.le, hk.2.1, hk.2.2.mono hg.le⟩
    | _ => exact .stop W m _
  | updateValue i property op line current k =>
    rw [Machine.deliver]
    split
    · rename_i w hw
      have hw' : W.ValueOk w := valueOk_of_isPlain (isPlain_arith hw)
      have hg := Grows.setField hb.settled i property.text hw'
      rw [hb.store] at hg
      refine .of_withStore hg.le ?_
      exact leads_delivering (hb.withStore hg) (hw'.mono hg.le) (hk.mono hg.le)
    · exact .stop W m _
  | discard k => exact leads_completing hb hk
  | print k =>
    exact leads_completing (m := { m with output := m.output ++ v.display ++ "\n" })
      ⟨hb.store, hb.settled, hb.pending⟩ hk
  | define x env k =>
    have hle := le_define hk.1.2 hk.1.1 v
    rw [hb.store] at hle
    exact leads_declaring hb hk.1.2 hk.1.1 (hv.mono hle) hk.2.2
  | ret k => exact .next hb ⟨fun w hw => by cases hw; exact hv, hk⟩
  | branch yes no env k =>
    have hexec {s : RStmt} (hs : W.BodyOk s env) : W.Leads (m.executing s env k) := by
      refine .next hb ⟨hs.1, hk.2.1, ?_⟩
      rw [during, hs.2]
      exact hk.2.2
    simp only [Machine.deliver.eq_def]
    split
    · exact hexec hk.1.1
    · split
      · exact hexec (hk.1.2 _ rfl)
      · exact leads_completing hb hk.2.2
  | loopTest condition body env k =>
    rw [Machine.deliver]
    split
    · refine .next hb ⟨hk.1.2.1, hk.2.1, ?_⟩
      rw [during, hk.1.2.2]
      exact hk
    · exact leads_completing hb hk.2.2
  | inherit name parent methods env k =>
    cases v with
    | «class» c => exact leads_inheriting hb hm hfocus hv hk.1 hk.2.2 hstep
    | _ => exact .stop W m _

theorem le_during (W : World) (s : RStmt) (env : Environment) : W.Le (W.during s env) := by
  unfold during
  split
  · exact .of_awaiting W env _
  · exact .refl W

/-- While a statement is executed, the scopes behind it fit. -/
theorem Fits.during {W : World} {Γ : Frames} {env : Environment} (h : W.Fits Γ env) (s : RStmt) :
    (W.during s env).Fits (Γ.after s) env := by
  unfold World.during Frames.after
  cases s.declares? with
  | none => exact h
  | some x =>
    have hfits := h.mono (.of_awaiting W env x.text)
    exact hfits.declare (.inr (.inr List.mem_cons_self)) true

/-- What a call answers. -/
theorem valueOk_answer {W : World} {m : Machine} (hb : W.Base m) {c : Completion}
    {result : CallResult} {v : Value} (hc : ∀ v, c = .returned v → W.ValueOk v)
    (hr : W.ResultOk result) (h : m.answer c result = .ok v) : W.ValueOk v := by
  cases result with
  | returned =>
    cases c with
    | normal =>
      cases h
      trivial
    | returned w =>
      cases h
      exact hc v rfl
  | receiver env =>
    have hv : m.store.scopes.getAt env 0 "this" = .ok v := h
    obtain ⟨e', -, hv⟩ := Scopes.getAt_eq_ok.1 hv
    exact hb.bound hv
  | made w =>
    cases h
    exact hr

theorem leads_complete {W : World} {m : Machine} (hb : W.Base m) {c : Completion} {k : StmtCont}
    (hf : W.FocusOk (.complete c k)) : W.Leads (m.complete c k) := by
  obtain ⟨hc, hk⟩ := hf
  cases k with
  | sequence later env k =>
    simp only [Machine.complete.eq_def]
    split
    · rename_i s later
      obtain ⟨⟨Γ, ss₀, hss, hfits⟩, henters, hk⟩ := hk
      obtain ⟨s₀, rest₀, rfl, hs, hrest⟩ := hss.cons
      refine .next hb ⟨⟨Γ, s₀, hs, hfits⟩, rfl, ?_⟩
      have hle := le_during W s env
      obtain ⟨q, hq, he⟩ := henters
      refine ⟨⟨_, rest₀, ?_, hfits.during s⟩, ⟨q, hle.past hq, hle.settings ▸ he⟩, hk.mono hle⟩
      obtain ⟨a, ho, hv⟩ := hrest
      exact ⟨a, ho.mono hle.programs, hv⟩
    · exact .next hb ⟨hc, hk.2.2⟩
  | loopBody condition body env k =>
    cases c with
    | normal => exact .next hb ⟨hk.1.1, hk.2.1, hk⟩
    | returned v => exact .next hb ⟨hc, hk.2.2⟩
  | call result k =>
    simp only [Machine.complete.eq_def]
    split
    · rename_i v hv
      exact leads_delivering (m := { m with depth := m.depth - 1 })
        ⟨hb.store, hb.settled, hb.pending⟩ (valueOk_answer hb hc hk.1 hv) hk.2
    · exact .stop W m _
  | finish =>
    simp only [Machine.complete.eq_def]
    split
    · exact .stop W m _
    · rename_i s pending hp
      obtain ⟨ss₀, hss⟩ := hb.pending
      rw [hp] at hss
      obtain ⟨s₀, rest₀, rfl, hs, hrest⟩ := hss.cons
      have hafter : Frames.after [] s = [] := by
        unfold Frames.after
        cases s.declares? <;> rfl
      rw [hafter] at hrest
      exact .next (m := { m with pending }) ⟨hb.store, hb.settled, rest₀, hrest⟩
        ⟨⟨[], s₀, hs, .globals⟩, rfl, trivial⟩


theorem FocusOk.mono {W W' : World} (h : W.Le W') {f : Focus} (hf : W.FocusOk f) :
    W'.FocusOk f := by
  cases f with
  | evaluate e env k => exact ⟨hf.1.mono h, hf.2.1, hf.2.2.mono h⟩
  | deliver v k => exact ⟨hf.1.mono h, hf.2.mono h⟩
  | execute s env k =>
    refine ⟨hf.1.mono h, hf.2.1, hf.2.2.mono ?_⟩
    unfold during
    split
    · exact h.awaiting env _
    · exact h
  | complete c k => exact ⟨fun v hv => (hf.1 v hv).mono h, hf.2.mono h⟩

/-- What holds of every state of a run. -/
structure Inv (W : World) (m : Machine) : Prop where
  base : W.Base m
  focus : W.FocusOk m.focus
  completed : ∀ e x, (∃ q ∈ W.past, q.Completes e x) → ∃ v, W.store.find? e.scope x = some v

/-- The world after a step. -/
def after (W : World) (m m' : Machine) : World :=
  { W with past := W.past ++ [m], store := m'.store }

theorem Inv.step {W : World} {m m' : Machine} (h : W.Inv m)
    (hstep : m.step W.settings = .next m') : (W.after m m').Inv m' := by
  let W₁ : World := { W with past := W.past ++ [m] }
  have hle : W.Le W₁ := by
    refine ⟨rfl, fun _ h => h, List.subset_append_left _ _, Nat.le_refl _, fun _ _ h => h,
      fun e x hx => ?_, fun _ _ _ h => h⟩
    rcases hx with hx | ⟨q, hq, hx⟩ | hx
    · exact .inl hx
    · exact .inr (.inl ⟨q, List.mem_append_left _ hq, hx⟩)
    · exact .inr (.inr hx)
  have hm : m ∈ W₁.past := List.mem_append_right _ List.mem_cons_self
  have hs := h.base.settled
  have hb : W₁.Base m := ⟨h.base.store, ⟨hs.positive, fun i x v hv => (hs.bound i x v hv).mono hle,
    fun i x v hv => (hs.fields i x v hv).mono hle, hs.awaited⟩, h.base.pending⟩
  have hf := h.focus.mono hle
  have hleads : W₁.Leads (m.step W.settings) := by
    unfold Machine.step
    split
    · exact leads_evaluate hb hm ‹_› (‹m.focus = _› ▸ hf)
    · exact leads_deliver hb hm ‹_› (‹m.focus = _› ▸ hf)
    · exact leads_execute hb hm ‹_› (‹m.focus = _› ▸ hf)
    · exact leads_complete hb (‹m.focus = _› ▸ hf)
  obtain ⟨hle', hb', hf'⟩ := hleads m' hstep
  refine ⟨hb', hf', fun e x hx => ?_⟩
  obtain ⟨q, hq, v, k, hfocus⟩ := hx
  rcases List.mem_append.1 hq with hq | hq
  · exact (hle.trans hle').bound e.scope x (h.completed e x ⟨q, hq, v, k, hfocus⟩)
  · cases List.mem_singleton.1 hq
    rw [Machine.step, hfocus] at hstep
    cases hstep
    rw [hfocus] at hf
    have hlt := hf.2.1.2
    rw [hb.store] at hlt
    exact ⟨v, Store.find?_define_self hlt x v⟩

end World
end LoxScript
