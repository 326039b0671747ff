import LoxScript.Proofs.Expansion.Trees
import LoxScript.Proofs.Machine.Related

/-!
Stores that differ in the code of their functions only.

Every scope binds the same names to the same values and every instance has the same fields, but for
the code inside functions, of which one is the other written out.  Each operation keeps two stores
the same, and gives the same result for them.
-/

namespace LoxScript
namespace Expansion

/-- The same function, made in the same environment. -/
structure SameClosure (f g : Closure) : Prop where
  name : f.name = g.name
  code : SameCode f.code g.code
  environment : f.environment = g.environment
  isInitializer : f.isInitializer = g.isInitializer

abbrev SameClass (c d : ClassObject) : Prop := c.Related SameClosure d

abbrev SameValue (v w : Value) : Prop := v.Related SameClosure SameClosure w

structure SameStore (s t : Store) : Prop where
  size : s.size = t.size
  bindings : ∀ i x, Option.Rel SameValue (s.find? i x) (t.find? i x)
  instances : s.fields.size = t.fields.size
  fields : ∀ i x, Option.Rel SameValue ((s.fieldsOf i).find? x) ((t.fieldsOf i).find? x)
  identities : s.identities = t.identities
  ticks : s.ticks = t.ticks

inductive SameProperty : Store.Property → Store.Property → Prop
  | field {v w : Value} : SameValue v w → SameProperty (.field v) (.field w)
  | method {f g : Closure} : SameClosure f g → SameProperty (.method f) (.method g)

theorem SameCode.params {c d : Code (Option Nat)} (h : SameCode c d) : c.params = d.params := by
  cases h with
  | mk params _ => rfl

theorem SameCode.body {c d : Code (Option Nat)} (h : SameCode c d) :
    List.Forall₂ SameStmt c.body d.body := by
  cases h with
  | mk _ hss => exact hss

/-- A function that is made where the two programs say so. -/
theorem sameClosure_made {c d : Code (Option Nat)} (h : SameCode c d) (name : Option String)
    (env : Environment) :
    SameClosure { name, code := c, environment := env, isInitializer := false }
      { name, code := d, environment := env, isInitializer := false } :=
  ⟨rfl, h, rfl, rfl⟩

theorem SameClosure.arity {f g : Closure} (h : SameClosure f g) : f.arity = g.arity := by
  rw [ClosureOf.arity, ClosureOf.arity, h.code.params]

namespace SameStore
variable {s t : Store}

/-! ### Changes of what is there -/

theorem define (h : SameStore s t) (e : Environment) (x : String) {v w : Value}
    (hv : SameValue v w) : SameStore (s.define e x v) (t.define e x w) where
  size := by rw [Store.size_define, Store.size_define, h.size]
  bindings i y := rel_modify_put h.size (fun i x => h.bindings ⟨i⟩ x) hv e.scope.index x i.index y
  instances := h.instances
  fields := h.fields
  identities := h.identities
  ticks := h.ticks

theorem setField (h : SameStore s t) (i : Nat) (x : String) {v w : Value} (hv : SameValue v w) :
    SameStore (s.setField i x v) (t.setField i x w) where
  size := h.size
  bindings := h.bindings
  instances := by
    show (s.fields.modify i _).size = (t.fields.modify i _).size
    rw [Array.size_modify, Array.size_modify, h.instances]
  fields j y := rel_modify_put h.instances h.fields hv i x j y
  identities := h.identities
  ticks := h.ticks

/-! ### Additions -/

theorem tick (h : SameStore s t) : SameStore s.tick.2 t.tick.2 :=
  { h with ticks := congrArg (· + 1) h.ticks }

theorem enter (h : SameStore s t) (outer : Environment) {b c : Bindings Value}
    (hb : ∀ x, Option.Rel SameValue (b.find? x) (c.find? x)) :
    SameStore (s.enter outer b).2 (t.enter outer c).2 where
  size := by rw [Store.size_enter, Store.size_enter, h.size]
  bindings i x := by
    rw [Store.find?_enter, Store.find?_enter, h.size]
    by_cases hi : i = ⟨t.size⟩
    · rw [if_pos hi, if_pos hi]
      exact hb x
    · rw [if_neg hi, if_neg hi]
      exact h.bindings i x
  instances := h.instances
  fields := h.fields
  identities := h.identities
  ticks := h.ticks

theorem makeFunction (h : SameStore s t) {f g : Closure} (hf : SameClosure f g) :
    SameStore (s.makeFunction f).2 (t.makeFunction g).2 ∧
      SameValue (s.makeFunction f).1 (t.makeFunction g).1 := by
  refine ⟨{ h with identities := congrArg (· + 1) h.identities }, ?_⟩
  rw [Store.makeFunction, Store.makeFunction, h.identities]
  exact .function _ hf hf.name

theorem makeClass (h : SameStore s t) (name : String) {ms ns : Bindings Closure}
    (hms : ∀ x, Option.Rel SameClosure (ms.find? x) (ns.find? x))
    {parent parent' : Option ClassObject}
    (hparent : Option.Rel SameClass parent parent') :
    SameStore (s.makeClass name ms parent).2 (t.makeClass name ns parent').2 ∧
      SameValue (s.makeClass name ms parent).1 (t.makeClass name ns parent').1 := by
  refine ⟨{ h with identities := congrArg (· + 1) h.identities }, ?_⟩
  rw [Store.makeClass, Store.makeClass, h.identities]
  refine .class ⟨rfl, rfl, fun x => ?_⟩
  cases hparent with
  | none => exact hms x
  | some hc => exact rel_or (hms x) (hc.2.2 x)

theorem makeInstance (h : SameStore s t) {c d : ClassObject} (hc : SameClass c d) :
    SameStore (s.makeInstance c).2 (t.makeInstance d).2 ∧
      SameValue (s.makeInstance c).1 (t.makeInstance d).1 := by
  refine ⟨{ h with instances := ?_, fields := fun i x => ?_ }, ?_⟩
  · show (s.fields.push []).size = (t.fields.push []).size
    rw [Array.size_push, Array.size_push, h.instances]
  · rw [Store.fieldsOf_makeInstance, Store.fieldsOf_makeInstance]
    exact h.fields i x
  · rw [Store.makeInstance, Store.makeInstance, h.instances]
    exact .instance _ hc

/-! ### Methods and calls -/

/-- A scope for one name. -/
theorem bindOne (h : SameStore s t) (outer : Environment) (x : String) {v w : Value}
    (hv : SameValue v w) : SameStore (s.enter outer [(x, v)]).2 (t.enter outer [(x, w)]).2 := by
  refine h.enter outer fun y => ?_
  rw [Bindings.find?_cons, Bindings.find?_cons]
  by_cases hy : x = y
  · rw [if_pos hy, if_pos hy]
    exact .some hv
  · rw [if_neg hy, if_neg hy]
    exact .none

theorem bind (h : SameStore s t) {f g : Closure} (hf : SameClosure f g) {v w : Value}
    (hv : SameValue v w) :
    SameStore (s.bind f v).2 (t.bind g w).2 ∧ SameClosure (s.bind f v).1 (t.bind g w).1 := by
  rw [Store.bind_eq, Store.bind_eq, hf.environment, h.size]
  exact ⟨h.bindOne g.environment "this" hv, hf.name, hf.code, rfl, hf.isInitializer⟩

theorem bindValue (h : SameStore s t) {f g : Closure} (hf : SameClosure f g) {v w : Value}
    (hv : SameValue v w) :
    SameStore (s.bindValue f v).2 (t.bindValue g w).2 ∧
      SameValue (s.bindValue f v).1 (t.bindValue g w).1 := by
  obtain ⟨hs, hclosure⟩ := h.bind hf hv
  exact hs.makeFunction hclosure

theorem property? (h : SameStore s t) (i : Nat) {c d : ClassObject} (hc : SameClass c d)
    (x : String) : Option.Rel SameProperty (s.property? i c x) (t.property? i d x) := by
  have hf := h.fields i x
  have hm := hc.2.2 x
  unfold Store.property?
  generalize (s.fieldsOf i).find? x = v at hf
  generalize (t.fieldsOf i).find? x = w at hf
  cases hf with
  | some hv => exact .some (.field hv)
  | none =>
    generalize c.method? x = f at hm
    generalize d.method? x = g at hm
    cases hm with
    | none => exact .none
    | some hfg => exact .some (.method hfg)

theorem take (h : SameStore s t) {p q : Store.Property} (hp : SameProperty p q) {v w : Value}
    (hv : SameValue v w) :
    SameStore (s.take p v).2 (t.take q w).2 ∧ SameValue (s.take p v).1 (t.take q w).1 := by
  cases hp with
  | field hv' => exact ⟨h, hv'⟩
  | method hf => exact h.bindValue hf hv

end SameStore

theorem sameClosure_methodTable (env : Environment) {ms ns : List (Method (Option Nat))}
    (h : List.Forall₂ SameMethod ms ns) (x : String) :
    Option.Rel SameClosure ((Machine.methodTable env ms).find? x)
      ((Machine.methodTable env ns).find? x) := by
  refine rel_find?_foldl (h.imp fun f g hfg => ?_) (fun _ => .none) x
  cases hfg with
  | mk y hcode => exact ⟨rfl, rfl, hcode, rfl, rfl⟩

theorem sameValue_parameterBindings {f g : Closure} (hf : SameClosure f g) {vs ws : List Value}
    (hvs : List.Forall₂ SameValue vs ws) (x : String) :
    Option.Rel SameValue ((Machine.parameterBindings f vs).find? x)
      ((Machine.parameterBindings g ws).find? x) := by
  have hzip : List.Forall₂ (fun p q : Name × Value => p.1.text = q.1.text ∧ SameValue p.2 q.2)
      (f.code.params.zip vs) (f.code.params.zip ws) := by
    generalize f.code.params = params
    induction hvs generalizing params with
    | nil =>
      rw [List.zip_nil_right]
      exact .nil
    | cons hv _ ih =>
      cases params with
      | nil => exact .nil
      | cons p params => exact .cons ⟨rfl, hv⟩ (ih params)
  rw [Machine.parameterBindings, Machine.parameterBindings, ← hf.code.params]
  exact rel_find?_foldl hzip (fun _ => .none) x

/-- A store is the same as itself before any function is made. -/
theorem sameStore_initial : SameStore .initial .initial := by
  refine ⟨rfl, fun i x => ?_, rfl, fun _ _ => .none, rfl, rfl⟩
  cases hv : Store.initial.find? i x with
  | none => exact .none
  | some v =>
    obtain ⟨-, -, rfl⟩ := Store.find?_initial hv
    exact .some (.native .clock)

end Expansion
end LoxScript
