import LoxScript.Proofs.Binding.Activation

/-!
The invariant of running programs that ties resolution to environments.

Whatever a run holds that can be run later, a part of a program with an environment, stands in the
program inside scopes that fit the environment: each environment of the chain was made for the scope
at its place, and binds the names declared there so far.  A name is excepted while its initial value
is being computed, and from then on if that computation failed.
-/

namespace LoxScript

/-- What the parts of a running program are looked at against. -/
structure World where
  settings : Settings
  programs : List (List (Stmt Unit))
  /-- The states stepped from so far. -/
  past : List Machine
  store : Store
  /-- What the statements being executed are about to bind. -/
  awaited : List (Environment × String)

namespace World

/-- The name is bound, or is yet to be, or its initial value has not been completed. -/
def Has (W : World) (e : Environment) (x : String) : Prop :=
  (∃ v, W.store.find? e.scope x = some v) ∨ (∃ q ∈ W.past, q.Begins e x) ∨ (e, x) ∈ W.awaited

def awaiting (W : World) (e : Environment) (x : String) : World :=
  { W with awaited := (e, x) :: W.awaited }

/-- While a statement is executed, the name that it declares is awaited. -/
def during (W : World) (s : RStmt) (e : Environment) : World :=
  match s.declares? with
  | some x => W.awaiting e x.text
  | none => W

def Opened (W : World) (o : Opener) (e : Environment) : Prop :=
  ∃ q ∈ W.past, q.Opens W.settings o e

/-- The environment binds what the scope declares. -/
structure Holds (W : World) (f : Frame) (e : Environment) : Prop where
  names : ∀ x, f.names.declares x = true → W.Has e x
  this : ∀ ms, f.opener = .receiver ms → ∃ i c, W.store.find? e.scope "this" = some (.instance i c)
  super : ∀ ms, f.opener = .superclass ms → ∃ c, W.store.find? e.scope "super" = some (.class c)

/-- The environment is one for a place inside the scopes. -/
inductive Fits (W : World) : Frames → Environment → Prop
  | globals : Fits W [] Store.globals
  | nested {f : Frame} {Γ : Frames} {i : ScopeId} {outer : Environment} :
      Fits W Γ outer → W.Opened f.opener (.nested i outer) → i.index < W.store.size →
      W.Holds f (.nested i outer) → Fits W (f :: Γ) (.nested i outer)

/-- What is known of a world stays true in a later one. -/
structure Le (W W' : World) : Prop where
  settings : W'.settings = W.settings
  programs : W.programs ⊆ W'.programs
  past : W.past ⊆ W'.past
  size : W.store.size ≤ W'.store.size
  bound : ∀ i x, (∃ v, W.store.find? i x = some v) → ∃ v, W'.store.find? i x = some v
  has : ∀ e x, W.Has e x → W'.Has e x
  reserved : ∀ i (k : Keyword) v, W.store.find? i k.text = some v →
    W'.store.find? i k.text = some v

namespace Le
variable {W W' : World}

theorem refl (W : World) : W.Le W :=
  ⟨rfl, fun _ h => h, fun _ h => h, Nat.le_refl _, fun _ _ h => h, fun _ _ h => h, fun _ _ _ h => h⟩

theorem trans {W'' : World} (h : W.Le W') (h' : W'.Le W'') : W.Le W'' :=
  ⟨h'.settings.trans h.settings, fun _ hp => h'.programs (h.programs hp),
    fun _ hq => h'.past (h.past hq), Nat.le_trans h.size h'.size,
    fun i x hx => h'.bound i x (h.bound i x hx),
    fun e x hx => h'.has e x (h.has e x hx),
    fun i k v hv => h'.reserved i k v (h.reserved i k v hv)⟩

theorem opened (h : W.Le W') {o : Opener} {e : Environment} (ho : W.Opened o e) :
    W'.Opened o e := by
  obtain ⟨q, hq, ho⟩ := ho
  exact ⟨q, h.past hq, h.settings ▸ ho⟩

theorem awaiting (h : W.Le W') (e : Environment) (x : String) :
    (W.awaiting e x).Le (W'.awaiting e x) := by
  refine ⟨h.settings, h.programs, h.past, h.size, h.bound, fun e' x' hx => ?_, h.reserved⟩
  rcases hx with hx | hx | hx
  · rcases h.has e' x' (.inl hx) with hx | hx | hx
    · exact .inl hx
    · exact .inr (.inl hx)
    · exact .inr (.inr (List.mem_cons_of_mem _ hx))
  · rcases h.has e' x' (.inr (.inl hx)) with hx | hx | hx
    · exact .inl hx
    · exact .inr (.inl hx)
    · exact .inr (.inr (List.mem_cons_of_mem _ hx))
  · rcases List.mem_cons.1 hx with hx | hx
    · exact .inr (.inr (hx ▸ List.mem_cons_self))
    · rcases h.has e' x' (.inr (.inr hx)) with hx | hx | hx
      · exact .inl hx
      · exact .inr (.inl hx)
      · exact .inr (.inr (List.mem_cons_of_mem _ hx))

theorem of_awaiting (W : World) (e : Environment) (x : String) : W.Le (W.awaiting e x) := by
  refine { refl W with has := fun e' x' hx => ?_ }
  rcases hx with hx | hx | hx
  · exact .inl hx
  · exact .inr (.inl hx)
  · exact .inr (.inr (List.mem_cons_of_mem _ hx))

/-- A name that is there need not be awaited. -/
theorem settle {e : Environment} {x : String} (h : W.Has e x) : (W.awaiting e x).Le W := by
  refine { refl W with has := fun e' x' hx => ?_ }
  rcases hx with hx | hx | hx
  · exact .inl hx
  · exact .inr (.inl hx)
  · rcases List.mem_cons.1 hx with hx | hx
    · cases hx
      exact h
    · exact .inr (.inr hx)

end Le

theorem Holds.mono {W W' : World} (h : W.Le W') {f : Frame} {e : Environment} (hf : W.Holds f e) :
    W'.Holds f e := by
  refine ⟨fun x hx => h.has e x (hf.names x hx), fun ms hm => ?_, fun ms hm => ?_⟩
  · obtain ⟨i, c, hv⟩ := hf.this ms hm
    exact ⟨i, c, h.reserved e.scope .this_ _ hv⟩
  · obtain ⟨c, hv⟩ := hf.super ms hm
    exact ⟨c, h.reserved e.scope .super_ _ hv⟩

theorem Fits.mono {W W' : World} (h : W.Le W') {Γ : Frames} {e : Environment} (hf : W.Fits Γ e) :
    W'.Fits Γ e := by
  induction hf with
  | globals => exact .globals
  | nested _ ho hlt hh ih =>
    exact .nested ih (h.opened ho) (Nat.lt_of_lt_of_le hlt h.size) (hh.mono h)

/-- A further declaration in the innermost scope. -/
theorem Fits.declare {W : World} {Γ : Frames} {e : Environment} (h : W.Fits Γ e) {x : String}
    (hx : W.Has e x) (ready : Bool) : W.Fits (Γ.declare x ready) e := by
  cases h with
  | globals => exact .globals
  | nested h ho hlt hh =>
    refine .nested h ho hlt ⟨fun y hy => ?_, hh.this, hh.super⟩
    rw [LocalScope.declares, List.any_cons, Bool.or_eq_true] at hy
    rcases hy with hy | hy
    · exact eq_of_beq hy ▸ hx
    · exact hh.names y hy

theorem Fits.lt_size {W : World} (hpos : 0 < W.store.size) {Γ : Frames} {e : Environment}
    (h : W.Fits Γ e) : e.scope.index < W.store.size := by
  cases h with
  | globals => exact hpos
  | nested _ _ hlt _ => exact hlt

section
variable (W : World)

def ExprOk (e : RExpr) (env : Environment) : Prop :=
  ∃ Γ e₀, ExprAt W.programs Γ e₀ e ∧ W.Fits Γ env

def StmtOk (s : RStmt) (env : Environment) : Prop :=
  ∃ Γ s₀, StmtAt W.programs Γ s₀ s ∧ W.Fits Γ env

/-- A statement that declares nothing. -/
def BodyOk (s : RStmt) (env : Environment) : Prop := W.StmtOk s env ∧ s.declares? = none

def StmtsOk (ss : List RStmt) (env : Environment) : Prop :=
  ∃ Γ ss₀, StmtsAt W.programs Γ ss₀ ss ∧ W.Fits Γ env

/-- A method that is not bound to a receiver yet. -/
def MethodOk (f : Closure) : Prop :=
  ∃ Γ ms c₀, CodeAt W.programs (.receiver ms :: Γ) c₀ f.code ∧ f.code ∈ ms.map Method.code ∧
    W.Fits Γ f.environment

def ClosureOk (f : Closure) : Prop :=
  (∃ Γ c₀, CodeAt W.programs Γ c₀ f.code ∧ W.Fits Γ f.environment) ∧
    (f.isInitializer = true → ∃ v, W.store.find? f.environment.scope "this" = some v)

def ClassOk (c : ClassObject) : Prop := ∀ x f, c.method? x = some f → W.MethodOk f

def ValueOk : Value → Prop
  | .function _ f => W.ClosureOk f
  | .class c => W.ClassOk c
  | .instance _ c => W.ClassOk c
  | _ => True

def ResultOk : CallResult → Prop
  | .returned => True
  | .receiver e => ∃ v, W.store.find? e.scope "this" = some v
  | .made v => W.ValueOk v

/-- The methods of a class that extends another, whose name is awaited. -/
def InheritOk (x : Name) (ms : List (Method (Option Nat))) (env : Environment) : Prop :=
  ∃ Γ ms₀, MethodsAt W.programs (.receiver ms :: .superclass ms :: Γ) ms₀ ms ∧
    (W.awaiting env x.text).Fits Γ env ∧ x.IsFree

end

mutual

def ValueContOk (W : World) : ValueCont → Prop
  | .unary _ _ k | .binaryRight _ _ _ k | .get _ k | .setValue _ _ k
  | .updateValue _ _ _ _ _ k => W.ValueContOk k
  | .binaryLeft _ _ e env k | .logical _ e env k | .setObject _ e env k
  | .updateObject _ _ _ e env k =>
    W.ExprOk e env ∧ env = k.statement.environment ∧ W.ValueContOk k
  | .assign x ref env k =>
    (∃ e, W.ExprOk (.assign x ref e) env) ∧ env = k.statement.environment ∧ W.ValueContOk k
  | .callee _ es env k =>
    (∀ e ∈ es, W.ExprOk e env) ∧ env = k.statement.environment ∧ W.ValueContOk k
  | .argument _ v vs es env k =>
    (W.ValueOk v ∧ ∀ w ∈ vs, W.ValueOk w) ∧ (∀ e ∈ es, W.ExprOk e env) ∧
      env = k.statement.environment ∧ W.ValueContOk k
  | .discard k | .print k | .ret k => W.StmtContOk k
  | .define x env k =>
    (Keyword.ofText? x = none ∧ env.scope.index < W.store.size) ∧ env = k.environment ∧
      (W.awaiting env x).StmtContOk k
  | .branch yes no env k =>
    (W.BodyOk yes env ∧ ∀ s ∈ no, W.BodyOk s env) ∧ env = k.environment ∧ W.StmtContOk k
  | .loopTest e s env k =>
    (W.ExprOk e env ∧ W.BodyOk s env) ∧ env = k.environment ∧ W.StmtContOk k
  | .inherit x _ ms env k =>
    W.InheritOk x ms env ∧ env = k.environment ∧ (W.awaiting env x.text).StmtContOk k

def StmtContOk (W : World) : StmtCont → Prop
  | .sequence later env k =>
    W.StmtsOk later env ∧ (∃ q ∈ W.past, q.Enters W.settings env k) ∧ W.StmtContOk k
  | .loopBody e s env k =>
    (W.ExprOk e env ∧ W.BodyOk s env) ∧ env = k.environment ∧ W.StmtContOk k
  | .call result k => W.ResultOk result ∧ W.ValueContOk k
  | .finish => True

end

section
variable {W W' : World} (h : W.Le W')
include h

theorem ExprOk.mono {e : RExpr} {env : Environment} (he : W.ExprOk e env) : W'.ExprOk e env := by
  obtain ⟨Γ, e₀, ⟨a, ho, hv⟩, hf⟩ := he
  exact ⟨Γ, e₀, ⟨a, ho.mono h.programs, hv⟩, hf.mono h⟩

theorem StmtOk.mono {s : RStmt} {env : Environment} (hs : W.StmtOk s env) : W'.StmtOk s env := by
  obtain ⟨Γ, s₀, ⟨a, ho, hv⟩, hf⟩ := hs
  exact ⟨Γ, s₀, ⟨a, ho.mono h.programs, hv⟩, hf.mono h⟩

theorem BodyOk.mono {s : RStmt} {env : Environment} (hs : W.BodyOk s env) : W'.BodyOk s env :=
  ⟨hs.1.mono h, hs.2⟩

theorem StmtsOk.mono {ss : List RStmt} {env : Environment} (hs : W.StmtsOk ss env) :
    W'.StmtsOk ss env := by
  obtain ⟨Γ, ss₀, ⟨a, ho, hv⟩, hf⟩ := hs
  exact ⟨Γ, ss₀, ⟨a, ho.mono h.programs, hv⟩, hf.mono h⟩

theorem MethodOk.mono {f : Closure} (hf : W.MethodOk f) : W'.MethodOk f := by
  obtain ⟨Γ, ms, c₀, ⟨a, body, ho, hv⟩, hm, hf⟩ := hf
  exact ⟨Γ, ms, c₀, ⟨a, body, ho.mono h.programs, hv⟩, hm, hf.mono h⟩

theorem ClosureOk.mono {f : Closure} (hf : W.ClosureOk f) : W'.ClosureOk f := by
  obtain ⟨⟨Γ, c₀, ⟨a, body, ho, hv⟩, hf⟩, hi⟩ := hf
  refine ⟨⟨Γ, c₀, ⟨a, body, ho.mono h.programs, hv⟩, hf.mono h⟩, fun hinit => ?_⟩
  obtain ⟨v, hv⟩ := hi hinit
  exact ⟨v, h.reserved _ .this_ v hv⟩

theorem ClassOk.mono {c : ClassObject} (hc : W.ClassOk c) : W'.ClassOk c :=
  fun x f hf => (hc x f hf).mono h

theorem ValueOk.mono {v : Value} (hv : W.ValueOk v) : W'.ValueOk v := by
  cases v with
  | function i f => exact ClosureOk.mono h hv
  | «class» c => exact ClassOk.mono h hv
  | «instance» i c => exact ClassOk.mono h hv
  | _ => trivial

theorem ResultOk.mono {r : CallResult} (hr : W.ResultOk r) : W'.ResultOk r := by
  cases r with
  | returned => trivial
  | receiver e =>
    obtain ⟨v, hv⟩ := hr
    exact ⟨v, h.reserved _ .this_ v hv⟩
  | made v => exact ValueOk.mono h hr

theorem InheritOk.mono {x : Name} {ms : List (Method (Option Nat))} {env : Environment}
    (hi : W.InheritOk x ms env) : W'.InheritOk x ms env := by
  obtain ⟨Γ, ms₀, ⟨a, ho, hv⟩, hf, hx⟩ := hi
  exact ⟨Γ, ms₀, ⟨a, ho.mono h.programs, hv⟩, hf.mono (h.awaiting env x.text), hx⟩

end

mutual

theorem ValueContOk.mono {W W' : World} (h : W.Le W') :
    (k : ValueCont) → W.ValueContOk k → W'.ValueContOk k
  | .unary _ _ k, hk => ValueContOk.mono h k hk
  | .binaryRight _ _ _ k, hk => ValueContOk.mono h k hk
  | .get _ k, hk => ValueContOk.mono h k hk
  | .setValue _ _ k, hk => ValueContOk.mono h k hk
  | .updateValue _ _ _ _ _ k, hk => ValueContOk.mono h k hk
  | .binaryLeft _ _ _ _ k, hk => ⟨hk.1.mono h, hk.2.1, ValueContOk.mono h k hk.2.2⟩
  | .logical _ _ _ k, hk => ⟨hk.1.mono h, hk.2.1, ValueContOk.mono h k hk.2.2⟩
  | .setObject _ _ _ k, hk => ⟨hk.1.mono h, hk.2.1, ValueContOk.mono h k hk.2.2⟩
  | .updateObject _ _ _ _ _ k, hk => ⟨hk.1.mono h, hk.2.1, ValueContOk.mono h k hk.2.2⟩
  | .assign _ _ _ k, hk =>
    ⟨hk.1.elim fun e he => ⟨e, he.mono h⟩, hk.2.1, ValueContOk.mono h k hk.2.2⟩
  | .callee _ _ _ k, hk =>
    ⟨fun e he => (hk.1 e he).mono h, hk.2.1, ValueContOk.mono h k hk.2.2⟩
  | .argument _ _ _ _ _ k, hk =>
    ⟨⟨hk.1.1.mono h, fun w hw => (hk.1.2 w hw).mono h⟩, fun e he => (hk.2.1 e he).mono h,
      hk.2.2.1, ValueContOk.mono h k hk.2.2.2⟩
  | .discard k, hk => StmtContOk.mono h k hk
  | .print k, hk => StmtContOk.mono h k hk
  | .ret k, hk => StmtContOk.mono h k hk
  | .define x env k, hk =>
    ⟨⟨hk.1.1, Nat.lt_of_lt_of_le hk.1.2 h.size⟩, hk.2.1,
      StmtContOk.mono (h.awaiting env x) k hk.2.2⟩
  | .branch _ _ _ k, hk =>
    ⟨⟨hk.1.1.mono h, fun s hs => (hk.1.2 s hs).mono h⟩, hk.2.1, StmtContOk.mono h k hk.2.2⟩
  | .loopTest _ _ _ k, hk =>
    ⟨⟨hk.1.1.mono h, hk.1.2.mono h⟩, hk.2.1, StmtContOk.mono h k hk.2.2⟩
  | .inherit x _ _ env k, hk =>
    ⟨hk.1.mono h, hk.2.1, StmtContOk.mono (h.awaiting env x.text) k hk.2.2⟩

theorem StmtContOk.mono {W W' : World} (h : W.Le W') :
    (k : StmtCont) → W.StmtContOk k → W'.StmtContOk k
  | .sequence _ _ k, hk => by
    refine ⟨hk.1.mono h, ?_, StmtContOk.mono h k hk.2.2⟩
    obtain ⟨q, hq, he⟩ := hk.2.1
    exact ⟨q, h.past hq, h.settings ▸ he⟩
  | .loopBody _ _ _ k, hk =>
    ⟨⟨hk.1.1.mono h, hk.1.2.mono h⟩, hk.2.1, StmtContOk.mono h k hk.2.2⟩
  | .call _ k, hk => ⟨hk.1.mono h, ValueContOk.mono h k hk.2⟩
  | .finish, _ => trivial

end

def FocusOk (W : World) : Focus → Prop
  | .evaluate e env k => W.ExprOk e env ∧ env = k.statement.environment ∧ W.ValueContOk k
  | .deliver v k => W.ValueOk v ∧ W.ValueContOk k
  | .execute s env k => W.StmtOk s env ∧ env = k.environment ∧ (W.during s env).StmtContOk k
  | .complete c k => (∀ v, c = .returned v → W.ValueOk v) ∧ W.StmtContOk k

/-- What holds of the store and of the past, whatever is looked at. -/
structure Settled (W : World) : Prop where
  positive : 0 < W.store.size
  bound : ∀ i x v, W.store.find? i x = some v → W.ValueOk v
  fields : ∀ i x v, (W.store.fieldsOf i).find? x = some v → W.ValueOk v
  awaited : W.awaited = []

end World
end LoxScript
