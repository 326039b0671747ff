import LoxScript.Proofs.Binding.Resolved
import LoxScript.Proofs.Lexical.Evaluator
import LoxScript.Proofs.Machine.Related
import LoxScript.Proofs.Scope.Changes

/-!
What a store of the machine and one of the evaluator by name have in common.

A location stands for one name in one scope.  `Owners` lists, for each location, the scope and the
name that it stands for; no two locations stand for the same, and a local scope binds nothing
without a location.  An environment and a list of names correspond if they lead from the same names
to the same scopes; closures, values and stores are the same if their environments correspond.
-/

namespace LoxScript.Lexical

/-- The scope and the name that each location stands for. -/
abbrev Owners := List (ScopeId × String)

/-- The environment and the list of names fit the scopes around a place, and each other. -/
inductive Corresponds (owners : Owners) : Frames → Environment → Scope → Prop
  | globals : Corresponds owners [] LoxScript.Store.globals []
  | nested {f : Frame} {Γ : Frames} {i : ScopeId} {outer : Environment} {own σ : Scope} :
      Corresponds owners Γ outer σ → own.map (·.1) = f.names.map (·.1) →
      (∀ p ∈ own, owners[p.2.index]? = some (i, p.1)) →
      Corresponds owners (f :: Γ) (.nested i outer) (own ++ σ)

/-- Further locations, all for names of scopes from `n` on. -/
def Owners.Grow (owners : Owners) (n : Nat) (owners' : Owners) : Prop :=
  ∃ extra : Owners, owners' = owners ++ extra ∧ ∀ p ∈ extra, n ≤ p.1.index

/-- Outside all blocks, or declared in the innermost scope. -/
def Declares (Γ : Frames) (x : String) : Prop := ∀ f ∈ Γ.head?, f.names.declares x = true

section
variable (P : List (List (Stmt Unit))) (owners : Owners)

def SameClosure (f : LoxScript.Closure) (g : Closure) : Prop :=
  f.name = g.name ∧ f.isInitializer = g.isInitializer ∧
    ∃ Γ, CodeAt P Γ g.code f.code ∧ Corresponds owners Γ f.environment g.environment ∧
      (f.isInitializer = true → ∃ ms Δ, Γ = Frame.receiver ms :: Δ)

/-- Methods that are not bound yet, whose receiver will come in front of the scopes around. -/
def SameMethod (f : LoxScript.Closure) (g : Closure) : Prop :=
  f.name = g.name ∧ f.isInitializer = g.isInitializer ∧
    ∃ Γ ms, CodeAt P (.receiver ms :: Γ) g.code f.code ∧
      Corresponds owners Γ f.environment g.environment

abbrev SameClass (c : LoxScript.ClassObject) (d : ClassObject) : Prop :=
  c.Related (SameMethod P owners) d

abbrev SameValue (v : LoxScript.Value) (w : Value) : Prop :=
  v.Related (SameClosure P owners) (SameMethod P owners) w

inductive SameProperty : LoxScript.Store.Property → Store.Property → Prop
  | field {v : LoxScript.Value} {w : Value} :
      SameValue P owners v w → SameProperty (.field v) (.field w)
  | method {f : LoxScript.Closure} {g : Closure} :
      SameMethod P owners f g → SameProperty (.method f) (.method g)

/-- The rest of a block, whose scope has locations only for the names declared so far. -/
def SameRest (env : Environment) (σ : Scope) (ss : List RStmt) (ss₀ : List (Stmt Unit)) : Prop :=
  ∃ Γ, StmtsAt P Γ ss₀ ss ∧ Corresponds owners Γ env σ ∧
    ∀ x, (env.scope, x) ∈ owners → Γ.scopes.isRedeclared x = true

/-- The stores hold the same, the one in scopes and the other in locations. -/
structure SameStore (s : LoxScript.Store) (t : Store) : Prop where
  nodup : owners.Nodup
  cells : t.cells.size = owners.length
  scopes : ∀ p ∈ owners, 0 < p.1.index ∧ p.1.index < s.size
  owned : ∀ i x v, 0 < i.index → s.find? i x = some v → (i, x) ∈ owners
  held : ∀ l p, owners[l]? = some p →
    Option.Rel (SameValue P owners) (s.find? p.1 p.2) (t.cell ⟨l⟩)
  positive : 0 < s.size
  globals : ∀ x, Option.Rel (SameValue P owners) (s.find? ⟨0⟩ x) (t.globals.find? x)
  instances : s.fields.size = t.fields.size
  fields : ∀ i x, Option.Rel (SameValue P owners) ((s.fieldsOf i).find? x) ((t.fieldsOf i).find? x)
  identities : s.identities = t.identities
  ticks : s.ticks = t.ticks

end

section
variable {P : List (List (Stmt Unit))} {owners owners' : Owners}

/-- The scope of a block has no names at first. -/
theorem Corresponds.block {Γ : Frames} {env : Environment} {σ : Scope}
    (hc : Corresponds owners Γ env σ) (i : ScopeId) (body : List RStmt) :
    Corresponds owners (⟨.block body, []⟩ :: Γ) (.nested i env) σ := by
  rw [← List.nil_append σ]
  refine .nested hc rfl fun p hp => ?_
  cases hp

/-- A further declaration in the innermost scope. -/
theorem Corresponds.declare {Γ : Frames} {env : Environment} {σ : Scope}
    (hc : Corresponds owners Γ env σ) (hpos : 0 < env.scope.index) {x : String} {l : Location}
    (hl : owners[l.index]? = some (env.scope, x)) (ready : Bool) :
    Corresponds owners (Γ.declare x ready) env ((x, l) :: σ) := by
  cases hc with
  | globals => exact absurd hpos (Nat.lt_irrefl 0)
  | @nested f Γ i outer own σ hc hnames hown =>
    rw [← List.cons_append]
    refine .nested hc (congrArg (x :: ·) hnames) fun p hp => ?_
    rcases List.mem_cons.1 hp with rfl | hp
    · exact hl
    · exact hown p hp

/-- A function made where a program says so. -/
theorem sameClosure_of_code {Γ : Frames} {c₀ : Code Unit} {c : Code (Option Nat)}
    {env : Environment} {σ : Scope} (hcode : CodeAt P Γ c₀ c) (hc : Corresponds owners Γ env σ)
    (name : Option String) :
    SameClosure P owners { name, code := c, environment := env, isInitializer := false }
      { name, code := c₀, environment := σ, isInitializer := false } :=
  ⟨rfl, rfl, Γ, hcode, hc, nofun⟩

/-! ### More locations -/

theorem getElem?_of_prefix (h : owners <+: owners') {l : Nat} {p : ScopeId × String}
    (hl : owners[l]? = some p) : owners'[l]? = some p := by
  obtain ⟨extra, rfl⟩ := h
  obtain ⟨hlt, -⟩ := List.getElem?_eq_some_iff.1 hl
  rw [List.getElem?_append_left hlt, hl]

namespace Owners.Grow

theorem refl (owners : Owners) (n : Nat) : owners.Grow n owners :=
  ⟨[], (List.append_nil owners).symm, nofun⟩

theorem one (owners : Owners) {n : Nat} {i : ScopeId} (h : n ≤ i.index) (x : String) :
    owners.Grow n (owners ++ [(i, x)]) :=
  ⟨_, rfl, fun p hp => by rw [List.mem_singleton.1 hp]; exact h⟩

theorem prefix_ {n : Nat} (h : owners.Grow n owners') : owners <+: owners' := by
  obtain ⟨extra, rfl, -⟩ := h
  exact List.prefix_append owners extra

theorem weaken {n n' : Nat} (h : owners.Grow n owners') (hn : n' ≤ n) : owners.Grow n' owners' := by
  obtain ⟨extra, he, hextra⟩ := h
  exact ⟨extra, he, fun p hp => Nat.le_trans hn (hextra p hp)⟩

/-- A scope before the new ones has no further locations. -/
theorem of_mem {n : Nat} (h : owners.Grow n owners') {i : ScopeId} (hi : i.index < n) {x : String}
    (hx : (i, x) ∈ owners') : (i, x) ∈ owners := by
  obtain ⟨extra, rfl, hextra⟩ := h
  rcases List.mem_append.1 hx with hx | hx
  · exact hx
  · exact absurd (hextra _ hx) (Nat.not_le_of_lt hi)

end Owners.Grow

theorem Corresponds.mono (h : owners <+: owners') {Γ : Frames} {env : Environment} {σ : Scope}
    (hc : Corresponds owners Γ env σ) : Corresponds owners' Γ env σ := by
  induction hc with
  | globals => exact .globals
  | nested _ hnames hown ih => exact .nested ih hnames fun p hp => getElem?_of_prefix h (hown p hp)

theorem SameClosure.mono (h : owners <+: owners') {f : LoxScript.Closure} {g : Closure}
    (hf : SameClosure P owners f g) : SameClosure P owners' f g := by
  obtain ⟨hname, hinit, Γ, hcode, hc, hreceiver⟩ := hf
  exact ⟨hname, hinit, Γ, hcode, hc.mono h, hreceiver⟩

theorem SameMethod.mono (h : owners <+: owners') {f : LoxScript.Closure} {g : Closure}
    (hf : SameMethod P owners f g) : SameMethod P owners' f g := by
  obtain ⟨hname, hinit, Γ, ms, hcode, hc⟩ := hf
  exact ⟨hname, hinit, Γ, ms, hcode, hc.mono h⟩

theorem SameClass.mono (h : owners <+: owners') {c : LoxScript.ClassObject} {d : ClassObject}
    (hc : SameClass P owners c d) : SameClass P owners' c d := hc.imp fun _ _ hf => hf.mono h

theorem SameValue.mono (h : owners <+: owners') {v : LoxScript.Value} {w : Value}
    (hv : SameValue P owners v w) : SameValue P owners' v w :=
  hv.imp (fun _ _ hf => hf.mono h) fun _ _ hf => hf.mono h

theorem SameRest.mono {n : Nat} (h : owners.Grow n owners') {env : Environment} {σ : Scope}
    {ss : List RStmt} {ss₀ : List (Stmt Unit)} (hlt : env.scope.index < n)
    (hs : SameRest P owners env σ ss ss₀) : SameRest P owners' env σ ss ss₀ := by
  obtain ⟨Γ, hss, hc, hexact⟩ := hs
  exact ⟨Γ, hss, hc.mono h.prefix_, fun x hx => hexact x (h.of_mem hlt hx)⟩

/-! ### What names mean -/

/-- A use of a name leads to a scope and to a location of it, or in both cases to the globals. -/
inductive Leads (owners : Owners) (x : String) (env : Environment) :
    Option Nat → Option Location → Prop
  | globally : Leads owners x env none none
  | locally {d : Nat} {e : Environment} {l : Location} : env.ancestor? d = some e →
      owners[l.index]? = some (e.scope, x) → Leads owners x env (some d) (some l)

theorem Scope.find?_append (x : String) (own σ : Scope) :
    Scope.find? x (own ++ σ) = (Scope.find? x own).or (Scope.find? x σ) := by
  induction own with
  | nil => rfl
  | cons p rest ih =>
    obtain ⟨y, l⟩ := p
    by_cases hy : y = x
    · simp [Scope.find?, hy]
    · simp [Scope.find?, hy, ih]

theorem Scope.mem_of_find? {x : String} {σ : Scope} {l : Location} (h : σ.find? x = some l) :
    (x, l) ∈ σ := by
  induction σ with
  | nil => cases h
  | cons p rest ih =>
    obtain ⟨y, l'⟩ := p
    by_cases hy : y = x
    · rw [Scope.find?, if_pos hy] at h
      cases h
      exact hy ▸ List.mem_cons_self
    · rw [Scope.find?, if_neg hy] at h
      exact List.mem_cons_of_mem _ (ih h)

/-- The names of a list are those that a local scope declares. -/
theorem Scope.isSome_find? {s : LocalScope} {own : Scope} (h : own.map (·.1) = s.map (·.1))
    (x : String) : (own.find? x).isSome = s.declares x := by
  induction own generalizing s with
  | nil =>
    rw [List.map_nil, eq_comm, List.map_eq_nil_iff] at h
    rw [h]
    rfl
  | cons p rest ih =>
    obtain ⟨y, l⟩ := p
    obtain ⟨q, s, rfl, hq, hs⟩ := List.map_eq_cons_iff.1 h.symm
    rw [LocalScope.declares, List.any_cons, hq]
    by_cases hy : y = x
    · simp [Scope.find?, hy]
    · simp only [Scope.find?, if_neg hy, ih hs.symm]
      simp [hy, LocalScope.declares]

theorem Corresponds.leads {Γ : Frames} {env : Environment} {σ : Scope}
    (hc : Corresponds owners Γ env σ) (x : String) :
    Leads owners x env (Γ.scopes.distance? x) (σ.find? x) := by
  induction hc with
  | globals => exact .globally
  | @nested f Γ i outer own σ _ hnames hown ih =>
    have hsome := Scope.isSome_find? hnames x
    rw [Frames.scopes_cons, LocalScopes.distance?_cons, Scope.find?_append, ← hsome]
    cases hl : own.find? x with
    | some l => exact .locally rfl (hown _ (Scope.mem_of_find? hl))
    | none =>
      generalize Γ.scopes.distance? x = ref at ih
      generalize σ.find? x = l at ih
      cases ih with
      | globally => exact .globally
      | locally he hl => exact .locally he hl

end
end LoxScript.Lexical
