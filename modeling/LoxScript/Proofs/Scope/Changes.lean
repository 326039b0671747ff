import LoxScript.Machine.Step

/-!
What each change of a store changes, and what it leaves as it was.

Scopes and instances are only ever added, and a change of one of them is not seen in the others.
-/

namespace LoxScript

namespace Bindings
variable {α β : Type} (key : β → String) (value : β → α)

/-- A table that is built entry by entry holds nothing but the entries. -/
theorem mem_of_find?_foldl {l : List β} {b : Bindings α} {x : String} {v : α}
    (h : (l.foldl (fun b p => b.put (key p) (value p)) b).find? x = some v) :
    (∃ p ∈ l, key p = x ∧ value p = v) ∨ b.find? x = some v := by
  induction l generalizing b with
  | nil => exact .inr h
  | cons p rest ih =>
    rcases ih h with ⟨q, hq, he⟩ | h
    · exact .inl ⟨q, List.mem_cons_of_mem p hq, he⟩
    · rw [find?_put] at h
      split at h
      · rename_i hx
        exact .inl ⟨p, List.mem_cons_self, hx.symm, Option.some.inj h⟩
      · exact .inr h

/-- A table that is built entry by entry has a value for each of them. -/
theorem find?_foldl_of_mem {l : List β} {b : Bindings α} {x : String}
    (h : (∃ p ∈ l, key p = x) ∨ ∃ v, b.find? x = some v) :
    ∃ v, (l.foldl (fun b p => b.put (key p) (value p)) b).find? x = some v := by
  induction l generalizing b with
  | nil =>
    rcases h with ⟨p, hp, -⟩ | h
    · cases hp
    · exact h
  | cons p rest ih =>
    refine ih ?_
    by_cases hx : x = key p
    · exact .inr ⟨value p, by rw [find?_put, if_pos hx]⟩
    · rcases h with ⟨q, hq, he⟩ | ⟨v, hv⟩
      · rcases List.mem_cons.1 hq with rfl | hq
        · exact absurd he.symm hx
        · exact .inl ⟨q, hq, he⟩
      · exact .inr ⟨v, by rw [find?_put, if_neg hx, hv]⟩

/-- A binding made in one of many tables. -/
theorem getD_modify_put (a : Array (Bindings α)) (i : Nat) (x : String) (v : α) (j : Nat) :
    (a.modify i (·.put x v)).getD j [] =
      if j = i ∧ i < a.size then (a.getD j []).put x v else a.getD j [] := by
  simp only [Array.getD_eq_getD_getElem?, Array.getElem?_modify]
  by_cases hj : i = j
  · subst hj
    by_cases hlt : i < a.size
    · rw [if_pos rfl, if_pos ⟨rfl, hlt⟩, Array.getElem?_eq_getElem hlt]
      rfl
    · rw [if_pos rfl, if_neg fun h => hlt h.2, Array.getElem?_eq_none (Nat.le_of_not_lt hlt)]
      rfl
  · rw [if_neg hj, if_neg fun h => hj h.1.symm]

/-- What is found after an entry is put somewhere was found before or is the value just put. -/
theorem mem_of_find?_modify_put {a : Array (Bindings α)} {i j : Nat} {x y : String} {v w : α}
    (h : ((a.modify i (·.put x v)).getD j []).find? y = some w) :
    w = v ∨ (a.getD j []).find? y = some w := by
  rw [getD_modify_put] at h
  split at h
  · rw [find?_put] at h
    split at h
    · exact .inl (Option.some.inj h).symm
    · exact .inr h
  · exact .inr h

theorem getD_push_nil (a : Array (Bindings α)) (i : Nat) : (a.push []).getD i [] = a.getD i [] := by
  simp only [Array.getD_eq_getD_getElem?, Array.getElem?_push]
  by_cases h : i = a.size
  · rw [if_pos h, h, Array.getElem?_eq_none (Nat.le_refl _)]
    rfl
  · rw [if_neg h]

end Bindings

namespace Scopes
variable {α : Type}

theorem size_put (s : Scopes α) (i : ScopeId) (x : String) (v : α) :
    (s.put i x v).all.size = s.all.size := Array.size_modify

theorem size_define (s : Scopes α) (e : Environment) (x : String) (v : α) :
    (s.define e x v).all.size = s.all.size := size_put s e.scope x v

theorem bindings_put_of_ne (s : Scopes α) {i j : ScopeId} (h : j ≠ i) (x : String) (v : α) :
    (s.put i x v).bindings j = s.bindings j := by
  have hne : ¬ (j.index = i.index ∧ i.index < s.all.size) := fun hc =>
    h (by cases i; cases j; exact congrArg _ hc.1)
  rw [show (s.put i x v).bindings j = _ from Bindings.getD_modify_put s.all i.index x v j.index,
    if_neg hne]
  rfl

/-- A name just bound has its value, and every other name has the value that it had. -/
theorem find?_put {s : Scopes α} {i : ScopeId} (h : i.index < s.all.size) (x : String) (v : α)
    (j : ScopeId) (y : String) :
    ((s.put i x v).bindings j).find? y =
      if j = i ∧ y = x then some v else (s.bindings j).find? y := by
  by_cases hj : j = i
  · subst hj
    rw [show (s.put j x v).bindings j = _ from Bindings.getD_modify_put s.all j.index x v j.index,
      if_pos ⟨rfl, h⟩, Bindings.find?_put]
    simp only [true_and]
    rfl
  · rw [bindings_put_of_ne s hj, if_neg fun hc => hj hc.1]

/-- What a scope binds after a binding is made, it bound before or is the value just bound. -/
theorem mem_bindings_put {s : Scopes α} {i j : ScopeId} {x y : String} {v w : α}
    (h : ((s.put i x v).bindings j).find? y = some w) :
    w = v ∨ (s.bindings j).find? y = some w := Bindings.mem_of_find?_modify_put h

theorem find?_define {s : Scopes α} {e : Environment} (h : e.scope.index < s.all.size) (x : String)
    (v : α) (j : ScopeId) (y : String) :
    ((s.define e x v).bindings j).find? y =
      if j = e.scope ∧ y = x then some v else (s.bindings j).find? y :=
  find?_put h x v j y

/-- What is in no scope binds nothing. -/
theorem bindings_of_size_le {s : Scopes α} {i : ScopeId} (h : s.all.size ≤ i.index) :
    s.bindings i = [] := by
  rw [bindings, Array.getD_eq_getD_getElem?, Array.getElem?_eq_none h]
  rfl

theorem lt_size_of_find? {s : Scopes α} {i : ScopeId} {x : String} {v : α}
    (h : (s.bindings i).find? x = some v) : i.index < s.all.size := by
  refine Nat.lt_of_not_le fun hle => ?_
  rw [bindings_of_size_le hle] at h
  cases h

theorem size_extend (s : Scopes α) (outer : Option Environment) (own : Bindings α) :
    (s.extend outer own).2.all.size = s.all.size + 1 := Array.size_push own

theorem bindings_extend_self (s : Scopes α) (outer : Option Environment) (own : Bindings α) :
    (s.extend outer own).2.bindings ⟨s.all.size⟩ = own := by
  simp [extend, bindings, Array.getD_eq_getD_getElem?]

theorem bindings_extend_of_ne (s : Scopes α) (outer : Option Environment) (own : Bindings α)
    {i : ScopeId} (h : i ≠ ⟨s.all.size⟩) :
    (s.extend outer own).2.bindings i = s.bindings i := by
  have hne : i.index ≠ s.all.size := fun he => h (by cases i; exact congrArg _ he)
  simp [extend, bindings, Array.getD_eq_getD_getElem?, Array.getElem?_push, hne]

theorem getAt_eq_ok {s : Scopes α} {e : Environment} {d : Nat} {x : String} {v : α} :
    s.getAt e d x = .ok v ↔
      ∃ e', e.ancestor? d = some e' ∧ (s.bindings e'.scope).find? x = some v := by
  unfold getAt
  cases he : e.ancestor? d with
  | none => simp
  | some e' => cases hv : (s.bindings e'.scope).find? x <;> simp [hv]

theorem getAt_eq_error {s : Scopes α} {e e' : Environment} {d : Nat} {x : String}
    (he : e.ancestor? d = some e') {f : ReachFault} (h : s.getAt e d x = .error f) :
    f = .unbound x ∧ (s.bindings e'.scope).find? x = none := by
  unfold getAt at h
  rw [he] at h
  cases hv : (s.bindings e'.scope).find? x with
  | none =>
    simp only [hv] at h
    cases h
    exact ⟨rfl, rfl⟩
  | some v =>
    simp only [hv] at h
    cases h

theorem get?_root (s : Scopes α) (i : ScopeId) (x : String) :
    s.get? (.root i) x = (s.bindings i).find? x := by
  unfold get? holder? Bindings.binds
  cases h : (s.bindings i).find? x <;> simp [h]

/-- A name is looked up in the innermost scope first. -/
theorem get?_nested (s : Scopes α) (i : ScopeId) (outer : Environment) (x : String) :
    s.get? (.nested i outer) x = ((s.bindings i).find? x).or (s.get? outer x) := by
  rw [get?, holder?, Bindings.binds]
  cases h : (s.bindings i).find? x with
  | some v => exact h
  | none => rfl

end Scopes

namespace Store

/-- The number of scopes made so far. -/
def size (s : Store) : Nat := s.scopes.all.size

/-- The value of a name in a scope. -/
def find? (s : Store) (i : ScopeId) (x : String) : Option Value := (s.scopes.bindings i).find? x

@[simp] theorem scopes_define (s : Store) (e : Environment) (x : String) (v : Value) :
    (s.define e x v).scopes = s.scopes.define e x v := rfl

@[simp] theorem fields_define (s : Store) (e : Environment) (x : String) (v : Value) :
    (s.define e x v).fields = s.fields := rfl

@[simp] theorem size_define (s : Store) (e : Environment) (x : String) (v : Value) :
    (s.define e x v).size = s.size := Scopes.size_define s.scopes e x v

theorem find?_define {s : Store} {e : Environment} (h : e.scope.index < s.size) (x : String)
    (v : Value) (j : ScopeId) (y : String) :
    (s.define e x v).find? j y = if j = e.scope ∧ y = x then some v else s.find? j y :=
  Scopes.find?_define h x v j y

theorem find?_define_self {s : Store} {e : Environment} (h : e.scope.index < s.size) (x : String)
    (v : Value) : (s.define e x v).find? e.scope x = some v := by
  rw [find?_define h, if_pos ⟨rfl, rfl⟩]

theorem bindings_define_of_ne (s : Store) {e : Environment} {i : ScopeId} (h : i ≠ e.scope)
    (x : String) (v : Value) : (s.define e x v).scopes.bindings i = s.scopes.bindings i :=
  Scopes.bindings_put_of_ne s.scopes h x v

theorem lt_size_of_find? {s : Store} {i : ScopeId} {x : String} {v : Value}
    (h : s.find? i x = some v) : i.index < s.size := Scopes.lt_size_of_find? h

/-- At first only the functions of the language are bound, in the outermost scope. -/
theorem find?_initial {i : ScopeId} {x : String} {v : Value} (h : initial.find? i x = some v) :
    i = ⟨0⟩ ∧ x = "clock" ∧ v = .native .clock := by
  have hlt : i.index < 1 := lt_size_of_find? h
  obtain ⟨i⟩ := i
  obtain rfl : i = 0 := Nat.lt_one_iff.1 hlt
  rw [find?, show initial.scopes.bindings ⟨0⟩ = [("clock", .native .clock)] from rfl,
    Bindings.find?_cons] at h
  split at h
  · rename_i hx
    cases h
    exact ⟨rfl, hx.symm, rfl⟩
  · cases h

@[simp] theorem fields_enter (s : Store) (outer : Environment) (own : Bindings Value) :
    (s.enter outer own).2.fields = s.fields := rfl

@[simp] theorem size_enter (s : Store) (outer : Environment) (own : Bindings Value) :
    (s.enter outer own).2.size = s.size + 1 := Scopes.size_extend s.scopes (some outer) own

theorem size_lt_enter (s : Store) (outer : Environment) (own : Bindings Value) :
    s.size < (s.enter outer own).2.size := by
  rw [size_enter]
  exact Nat.lt_succ_self _

theorem bindings_enter_self (s : Store) (outer : Environment) (own : Bindings Value) :
    (s.enter outer own).2.scopes.bindings ⟨s.size⟩ = own :=
  Scopes.bindings_extend_self s.scopes (some outer) own

theorem bindings_enter_of_ne (s : Store) (outer : Environment) (own : Bindings Value) {i : ScopeId}
    (h : i ≠ ⟨s.size⟩) : (s.enter outer own).2.scopes.bindings i = s.scopes.bindings i :=
  Scopes.bindings_extend_of_ne s.scopes (some outer) own h

theorem find?_enter (s : Store) (outer : Environment) (own : Bindings Value) (i : ScopeId)
    (x : String) :
    (s.enter outer own).2.find? i x = if i = ⟨s.size⟩ then own.find? x else s.find? i x := by
  by_cases h : i = ⟨s.size⟩
  · rw [if_pos h, h]
    exact congrArg (Bindings.find? x) (bindings_enter_self s outer own)
  · rw [if_neg h]
    exact congrArg (Bindings.find? x) (bindings_enter_of_ne s outer own h)

/-- A new scope takes nothing away from the others. -/
theorem find?_enter_of_some {s : Store} {i : ScopeId} {x : String} {v : Value}
    (h : s.find? i x = some v) (outer : Environment) (own : Bindings Value) :
    (s.enter outer own).2.find? i x = some v := by
  rw [find?_enter, if_neg, h]
  intro hi
  have := lt_size_of_find? h
  rw [hi] at this
  exact Nat.lt_irrefl _ this

@[simp] theorem scopes_setField (s : Store) (i : Nat) (x : String) (v : Value) :
    (s.setField i x v).scopes = s.scopes := rfl

/-- What an instance has after a field of one is set, it had before or has now been given. -/
theorem mem_fieldsOf_setField {s : Store} {i j : Nat} {x y : String} {v w : Value}
    (h : ((s.setField i x v).fieldsOf j).find? y = some w) :
    w = v ∨ (s.fieldsOf j).find? y = some w := Bindings.mem_of_find?_modify_put h

@[simp] theorem scopes_makeInstance (s : Store) (c : ClassObject) :
    (s.makeInstance c).2.scopes = s.scopes := rfl

theorem fieldsOf_makeInstance (s : Store) (c : ClassObject) (i : Nat) :
    (s.makeInstance c).2.fieldsOf i = s.fieldsOf i := Bindings.getD_push_nil s.fields i

theorem bind_eq (s : Store) (f : Closure) (receiver : Value) :
    s.bind f receiver = ({ f with environment := .nested ⟨s.size⟩ f.environment },
      (s.enter f.environment [("this", receiver)]).2) := rfl

theorem size_bind (s : Store) (f : Closure) (receiver : Value) :
    (s.bind f receiver).2.size = s.size + 1 := size_enter s f.environment [("this", receiver)]

theorem size_bindValue (s : Store) (f : Closure) (receiver : Value) :
    (s.bindValue f receiver).2.size = s.size + 1 :=
  size_enter s f.environment [("this", receiver)]

theorem property?_field {s : Store} {i : Nat} {c : ClassObject} {x : String} {v : Value}
    (h : s.property? i c x = some (.field v)) : (s.fieldsOf i).find? x = some v := by
  unfold property? at h
  split at h
  · rename_i hv
    cases h
    exact hv
  · cases hm : c.method? x <;> rw [hm] at h <;> cases h

theorem property?_method {s : Store} {i : Nat} {c : ClassObject} {x : String} {f : Closure}
    (h : s.property? i c x = some (.method f)) : c.method? x = some f := by
  unfold property? at h
  split at h
  · cases h
  · cases hm : c.method? x <;> rw [hm] at h <;> cases h
    rfl

end Store

namespace Machine

@[simp] theorem change_eq (m : Machine) (f : Store → Store) :
    m.change f = { m with store := f m.store } := rfl

@[simp] theorem make_eq {α : Type} (m : Machine) (f : Store → α × Store) :
    m.make f = ((f m.store).1, { m with store := (f m.store).2 }) := rfl

@[simp] theorem print_eq (m : Machine) (line : String) :
    m.print line = { m with output := m.output ++ line ++ "\n" } := rfl

theorem entering_eq (m : Machine) (f : Closure) (arguments : List Value) (result : CallResult)
    (k : ValueCont) :
    m.entering f arguments result k = .next
      { m with
        focus := .complete .normal
          (.sequence f.code.body (.nested ⟨m.store.size⟩ f.environment) (.call result k))
        store := (m.store.enter f.environment (parameterBindings f arguments)).2
        depth := m.depth + 1 } := rfl

/-- Only arguments are bound to parameters. -/
theorem mem_of_find?_parameterBindings {f : Closure} {arguments : List Value} {x : String}
    {v : Value} (h : (parameterBindings f arguments).find? x = some v) : v ∈ arguments := by
  rcases Bindings.mem_of_find?_foldl (β := Name × Value) (·.1.text) (·.2) h with ⟨p, hp, -, rfl⟩ | h
  · exact (List.of_mem_zip hp).2
  · cases h

/-- If there are enough arguments, every parameter is bound. -/
theorem find?_parameterBindings {f : Closure} {arguments : List Value}
    (hlen : arguments.length = f.arity) {p : Name} (hp : p ∈ f.code.params) :
    ∃ v, (parameterBindings f arguments).find? p.text = some v := by
  refine Bindings.find?_foldl_of_mem (β := Name × Value) (·.1.text) (·.2) (.inl ?_)
  have hp' : p ∈ (f.code.params.zip arguments).map Prod.fst := by
    rwa [List.map_fst_zip (Nat.le_of_eq hlen.symm)]
  obtain ⟨q, hq, rfl⟩ := List.mem_map.1 hp'
  exact ⟨q, hq, rfl⟩

/-- The methods of a class are made from its declaration, all in one environment. -/
theorem mem_of_find?_methodTable {env : Environment} {methods : List (Method (Option Nat))}
    {x : String} {f : Closure} (h : (methodTable env methods).find? x = some f) :
    ∃ g ∈ methods, f = { name := some g.name.text, code := g.code, environment := env,
                         isInitializer := g.name.text == "init" } := by
  rcases Bindings.mem_of_find?_foldl (fun g : Method (Option Nat) => g.name.text)
    (fun g => ({ name := some g.name.text, code := g.code, environment := env,
                 isInitializer := g.name.text == "init" } : Closure)) h with ⟨g, hg, -, rfl⟩ | h
  · exact ⟨g, hg, rfl⟩
  · cases h

/-- Methods are found under their names. -/
theorem name_of_find?_methodTable {env : Environment} {methods : List (Method (Option Nat))}
    {x : String} {f : Closure} (h : (methodTable env methods).find? x = some f) :
    f.name = some x := by
  rcases Bindings.mem_of_find?_foldl (fun g : Method (Option Nat) => g.name.text)
    (fun g => ({ name := some g.name.text, code := g.code, environment := env,
                 isInitializer := g.name.text == "init" } : Closure)) h with ⟨g, -, hx, rfl⟩ | h
  · exact congrArg some hx
  · cases h

end Machine
end LoxScript
