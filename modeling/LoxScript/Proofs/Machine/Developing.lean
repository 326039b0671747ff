import LoxScript.Proofs.Scope.Changes

/-!
How stores develop.

A step changes the store by a few of the operations that stores have, if at all.  What all of these
operations keep is kept by every step; the number of the next identity, for one, never falls.
-/

namespace LoxScript

/-- The second store comes from the first one by the operations that programs have. -/
inductive Store.Develops (s : Store) : Store → Prop
  | same : Develops s s
  | define {t} (e x v) : Develops s t → Develops s (t.define e x v)
  | enter {t} (outer own) : Develops s t → Develops s (t.enter outer own).2
  | makeFunction {t} (f) : Develops s t → Develops s (t.makeFunction f).2
  | makeClass {t} (x methods parent) : Develops s t →
      Develops s (t.makeClass x methods parent).2
  | makeInstance {t} (c) : Develops s t → Develops s (t.makeInstance c).2
  | tick {t} : Develops s t → Develops s t.tick.2
  | setField {t} (i x v) : Develops s t → Develops s (t.setField i x v)

namespace Store.Develops
variable {s t : Store}

theorem bindValue (h : s.Develops t) (f : Closure) (r : Value) :
    s.Develops (t.bindValue f r).2 :=
  (h.enter f.environment [("this", r)]).makeFunction (t.bind f r).1

theorem take (h : s.Develops t) (p : Property) (r : Value) : s.Develops (t.take p r).2 := by
  cases p with
  | field v => exact h
  | method f => exact h.bindValue f r

theorem identities_le (h : s.Develops t) : s.identities ≤ t.identities := by
  induction h with
  | same => exact Nat.le_refl _
  | define _ _ _ _ ih | enter _ _ _ ih | makeInstance _ _ ih | tick _ ih
  | setField _ _ _ _ ih => exact ih
  | makeFunction _ _ ih | makeClass _ _ _ _ ih => exact Nat.le_succ_of_le ih

end Store.Develops

namespace Machine

/-- A step, if it leads on, leads to a state whose store has developed from the given one. -/
def Developing (s : Store) (r : Step) : Prop := ∀ m', r = .next m' → s.Develops m'.store

section
variable {s : Store} {m : Machine} {settings : Settings}

theorem developing_stop {e : Ending} : Developing s (.stop m e) := nofun

theorem developing_next (h : s.Develops m.store) : Developing s (.next m) := by
  rintro m' ⟨⟩
  exact h

theorem developing_lookingUp (h : s.Develops m.store) {x : String} {ref : Option Nat} {t : Token}
    {env : Environment} {k : ValueCont} : Developing s (m.lookingUp x ref t env k) := by
  unfold lookingUp
  split
  all_goals
    split
    · exact developing_next h
    · exact developing_stop

theorem developing_assigning (h : s.Develops m.store) {x : Name} {ref : Option Nat}
    {env : Environment} {v : Value} {k : ValueCont} :
    Developing s (m.assigning x ref env v k) := by
  unfold assigning
  split
  all_goals
    split
    · exact developing_next (h.define _ _ _)
    · exact developing_stop

theorem developing_lookingUpSuper (h : s.Develops m.store) {ref : Option Nat} {x : Name}
    {env : Environment} {k : ValueCont} : Developing s (m.lookingUpSuper ref x env k) := by
  unfold lookingUpSuper
  split
  · exact developing_stop
  · split
    · rename_i r _ _
      split
      · exact developing_stop
      · rename_i f _
        exact developing_next (h.bindValue f r)
    all_goals exact developing_stop

theorem developing_takingProperty (h : s.Develops m.store) {i : Nat} {c : ClassObject} {x : Name}
    {next : Machine → Value → Step}
    (hnext : ∀ m' v, s.Develops m'.store → Developing s (next m' v)) :
    Developing s (m.takingProperty i c x next) := by
  unfold takingProperty
  split
  · exact developing_stop
  · exact hnext _ _ (h.take _ _)

theorem developing_entering (h : s.Develops m.store) {f : Closure} {args : List Value}
    {r : CallResult} {k : ValueCont} : Developing s (m.entering f args r k) := by
  rw [entering_eq]
  exact developing_next (h.enter f.environment (parameterBindings f args))

theorem developing_invoking (h : s.Develops m.store) {callee : Callable} {args : List Value}
    {k : ValueCont} : Developing s (m.invoking settings callee args k) := by
  cases callee with
  | native f => exact developing_next h.tick
  | function f => exact developing_entering h
  | «class» c =>
    simp only [invoking, make_eq]
    split
    · exact developing_next (h.makeInstance c)
    · rename_i f _
      exact developing_entering ((h.makeInstance c).enter f.environment _)

theorem developing_nextArgument (h : s.Develops m.store) {line : Nat} {callee : Value}
    {earlier : List Value} {later : List RExpr} {env : Environment} {k : ValueCont} :
    Developing s (m.nextArgument settings line callee earlier later env k) := by
  cases later with
  | nil =>
    simp only [nextArgument, calling]
    split
    · exact developing_stop
    · split
      · exact developing_stop
      · split
        · exact developing_stop
        · exact developing_invoking h
  | cons e later => exact developing_next h

theorem developing_declaringClass (h : s.Develops m.store) {x : Name}
    {parent : Option ClassObject} {ms : List (Method (Option Nat))} {env : Environment}
    {k : StmtCont} : Developing s (m.declaringClass x parent ms env k) := by
  cases parent with
  | none => exact developing_next ((h.makeClass x.text (methodTable env ms) none).define env _ _)
  | some c =>
    have hinside := h.enter env [("super", .class c)]
    exact developing_next ((hinside.makeClass x.text
      (methodTable (.nested ⟨m.store.size⟩ env) ms) (some c)).define env _ _)

theorem developing_deliveringResult (h : s.Develops m.store) {r : Except Fault Value} {t : Token}
    {k : ValueCont} : Developing s (m.deliveringResult r t k) := by
  cases r with
  | ok v => exact developing_next h
  | error f => exact developing_stop

theorem developing_evaluate (h : s.Develops m.store) {e : RExpr} {env : Environment}
    {k : ValueCont} : Developing s (m.evaluate e env k) := by
  cases e with
  | var | this => exact developing_lookingUp h
  | super => exact developing_lookingUpSuper h
  | function line code => exact developing_next (h.makeFunction ⟨none, code, env, false⟩)
  | _ => exact developing_next h

theorem developing_deliver (h : s.Develops m.store) {v : Value} {k : ValueCont} :
    Developing s (m.deliver settings v k) := by
  cases k with
  | unary | binaryRight => exact developing_deliveringResult h
  | logical =>
    simp only [deliver]
    split <;> exact developing_next h
  | assign => exact developing_assigning h
  | callee | argument => exact developing_nextArgument h
  | get =>
    simp only [deliver]
    split
    · exact developing_takingProperty h fun m' v h' => developing_next h'
    · exact developing_stop
  | setObject =>
    simp only [deliver]
    split
    · exact developing_next h
    · exact developing_stop
  | setValue => exact developing_next (h.setField _ _ _)
  | updateObject =>
    simp only [deliver]
    split
    · exact developing_takingProperty h fun m' v h' => developing_next h'
    · exact developing_stop
  | updateValue =>
    simp only [deliver]
    split
    · exact developing_next (h.setField _ _ _)
    · exact developing_stop
  | define => exact developing_next (h.define _ _ _)
  | branch =>
    simp only [deliver]
    split
    · exact developing_next h
    · split <;> exact developing_next h
  | loopTest =>
    simp only [deliver]
    split <;> exact developing_next h
  | inherit =>
    simp only [deliver]
    split
    · exact developing_declaringClass h
    · exact developing_stop
  | _ => exact developing_next h

theorem developing_execute (h : s.Develops m.store) {stmt : RStmt} {env : Environment}
    {k : StmtCont} : Developing s (m.execute stmt env k) := by
  cases stmt with
  | var x initial =>
    cases initial with
    | none => exact developing_next (h.define _ _ _)
    | some e => exact developing_next h
  | block => exact developing_next (h.enter env [])
  | function x code =>
    exact developing_next ((h.makeFunction ⟨some x.text, code, env, false⟩).define _ _ _)
  | ret line value => cases value <;> exact developing_next h
  | classDef x parent ms =>
    cases parent with
    | none =>
      simp only [execute]
      exact developing_declaringClass h
    | some p => exact developing_next h
  | _ => exact developing_next h

theorem developing_complete (h : s.Develops m.store) {c : Completion} {k : StmtCont} :
    Developing s (m.complete c k) := by
  cases k with
  | sequence later env k =>
    simp only [complete]
    split <;> exact developing_next h
  | loopBody => cases c <;> exact developing_next h
  | call =>
    simp only [complete]
    split
    · exact developing_next h
    · exact developing_stop
  | finish =>
    simp only [complete]
    split
    · exact developing_stop
    · exact developing_next h

end

/-- What a step does to the store. -/
theorem develops_step {settings : Settings} {m m' : Machine} (h : m.step settings = .next m') :
    m.store.Develops m'.store := by
  refine (?_ : Developing m.store (m.step settings)) m' h
  unfold step
  split
  · exact developing_evaluate .same
  · exact developing_deliver .same
  · exact developing_execute .same
  · exact developing_complete .same

end Machine
end LoxScript
