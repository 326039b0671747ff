import LoxScript.Proofs.Joined.Renumber
import LoxScript.Proofs.Scope.Changes

/-!
States of a run of a program on other lines.

The lines are changed in all code that a state holds, in that of its functions and methods too.
Every operation on a store, and every one on values, makes of what is changed the change of what it
makes.
-/

namespace LoxScript

namespace Bindings
variable {α β : Type}

/-- Changes every value. -/
def mapValues (g : α → β) (b : Bindings α) : Bindings β := b.map fun p => (p.1, g p.2)

theorem find?_mapValues (g : α → β) (b : Bindings α) (x : String) :
    (b.mapValues g).find? x = (b.find? x).map g := by
  induction b with
  | nil => rfl
  | cons p rest ih =>
    obtain ⟨y, v⟩ := p
    show (if y = x then some (g v) else find? x (mapValues g rest)) = _
    rw [find?_cons, ih]
    split <;> rfl

theorem put_mapValues (g : α → β) (b : Bindings α) (x : String) (v : α) :
    (b.mapValues g).put x (g v) = (b.put x v).mapValues g := by
  induction b with
  | nil => rfl
  | cons p rest ih =>
    obtain ⟨y, w⟩ := p
    show (if y = x then (x, g v) :: mapValues g rest
        else (y, g w) :: put x (g v) (mapValues g rest))
      = mapValues g (if y = x then (x, v) :: rest else (y, w) :: put x v rest)
    rw [ih]
    split <;> rfl

theorem modify_mapValues (g : α → β) (a : Array (Bindings α)) (i : Nat) (x : String) (v : α) :
    (a.map (mapValues g)).modify i (·.put x (g v)) =
      (a.modify i (·.put x v)).map (mapValues g) := by
  refine Array.ext (by simp) fun j hj hj' => ?_
  simp only [Array.getElem_modify, Array.getElem_map]
  split
  · exact put_mapValues g _ x v
  · rfl

theorem getD_mapValues (g : α → β) (a : Array (Bindings α)) (i : Nat) :
    (a.map (mapValues g)).getD i [] = (a.getD i []).mapValues g := by
  simp only [Array.getD_eq_getD_getElem?, Array.getElem?_map]
  cases a[i]? <;> rfl

end Bindings

namespace Scopes
variable {α β : Type}

/-- Changes every value in every scope. -/
def map (g : α → β) (s : Scopes α) : Scopes β := ⟨s.all.map (·.mapValues g)⟩

variable (g : α → β) (s : Scopes α)

theorem bindings_map (i : ScopeId) : (s.map g).bindings i = (s.bindings i).mapValues g :=
  Bindings.getD_mapValues g s.all i.index

theorem size_map : (s.map g).all.size = s.all.size := Array.size_map

theorem define_map (e : Environment) (x : String) (v : α) :
    (s.map g).define e x (g v) = (s.define e x v).map g :=
  congrArg mk (Bindings.modify_mapValues g s.all e.scope.index x v)

theorem extend_map (outer : Option Environment) (own : Bindings α) :
    (s.map g).extend outer (own.mapValues g) =
      ((s.extend outer own).1, (s.extend outer own).2.map g) := by
  simp [extend, map]

theorem getAt_map (e : Environment) (d : Nat) (x : String) :
    (s.map g).getAt e d x = (s.getAt e d x).map g := by
  unfold getAt
  cases e.ancestor? d with
  | none => rfl
  | some e' =>
    dsimp only
    rw [bindings_map, Bindings.find?_mapValues]
    cases (s.bindings e'.scope).find? x <;> rfl

theorem get?_map (i : ScopeId) (x : String) :
    (s.map g).get? (.root i) x = (s.get? (.root i) x).map g := by
  rw [get?_root, get?_root, bindings_map, Bindings.find?_mapValues]

end Scopes

namespace Renumber
variable (f : Nat → Nat)

/-! ### Values -/

def closure (c : Closure) : Closure := { c with code := code f c.code }

def classObject : ClassObject → ClassObject
  | .mk identity name methods none => .mk identity name (methods.mapValues (closure f)) none
  | .mk identity name methods (some parent) =>
    .mk identity name (methods.mapValues (closure f)) (some (classObject parent))

def value : Value → Value
  | .nil => .nil
  | .bool b => .bool b
  | .number x => .number x
  | .string s => .string s
  | .native g => .native g
  | .function i c => .function i (closure f c)
  | .class c => .class (classObject f c)
  | .instance i c => .instance i (classObject f c)

def callable : Callable → Callable
  | .native g => .native g
  | .function c => .function (closure f c)
  | .class c => .class (classObject f c)

theorem code_params (c : Code (Option Nat)) :
    (code f c).params = c.params.map (·.renumber f) := by cases c; rfl

theorem code_body (c : Code (Option Nat)) : (code f c).body = stmts f c.body := by cases c; rfl

theorem arity_closure (c : Closure) : (closure f c).arity = c.arity := by
  show (code f c.code).params.length = c.code.params.length
  rw [code_params, List.length_map]

theorem method?_classObject (x : String) : (c : ClassObject) →
    (classObject f c).method? x = (c.method? x).map (closure f)
  | .mk _ _ methods none => Bindings.find?_mapValues (closure f) methods x
  | .mk _ _ methods (some parent) => by
    show ((methods.mapValues (closure f)).find? x).or ((classObject f parent).method? x) = _
    rw [Bindings.find?_mapValues, method?_classObject x parent]
    show _ = ((methods.find? x).or (parent.method? x)).map (closure f)
    cases methods.find? x <;> rfl

theorem initializer?_classObject (c : ClassObject) :
    (classObject f c).initializer? = c.initializer?.map (closure f) :=
  method?_classObject f "init" c

theorem arity_classObject (c : ClassObject) : (classObject f c).arity = c.arity := by
  unfold ClassOf.arity
  rw [initializer?_classObject]
  cases c.initializer? with
  | none => rfl
  | some g => exact arity_closure f g

theorem arity_callable (c : Callable) : (callable f c).arity = c.arity := by
  cases c with
  | native g => rfl
  | function c => exact arity_closure f c
  | «class» c => exact arity_classObject f c

theorem identity_classObject (c : ClassObject) : (classObject f c).identity = c.identity := by
  obtain ⟨i, x, ms, _ | p⟩ := c <;> rfl

theorem name_classObject (c : ClassObject) : (classObject f c).name = c.name := by
  obtain ⟨i, x, ms, _ | p⟩ := c <;> rfl

theorem value_ofLiteral (l : Literal) : value f (.ofLiteral l) = .ofLiteral l := by cases l <;> rfl

theorem isTruthy_value (v : Value) : (value f v).isTruthy = v.isTruthy := by cases v <;> rfl

theorem display_value (v : Value) : (value f v).display = v.display := by
  cases v with
  | bool b => cases b <;> rfl
  | «class» c => exact name_classObject f c
  | «instance» i c => exact congrArg (· ++ " instance") (name_classObject f c)
  | _ => rfl

theorem equals_value (v w : Value) : (value f v).equals (value f w) = v.equals w := by
  cases v with
  | «class» c =>
    cases w with
    | «class» d =>
      show ((classObject f c).identity == (classObject f d).identity) = _
      rw [identity_classObject, identity_classObject]
      rfl
    | _ => rfl
  | _ => cases w <;> rfl

theorem callable?_value (v : Value) : (value f v).callable? = v.callable?.map (callable f) := by
  cases v <;> rfl

theorem isDecidedBy_value (op : LogicalOp) (v : Value) :
    op.isDecidedBy (value f v) = op.isDecidedBy v := by
  cases op with
  | and => exact congrArg (!·) (isTruthy_value f v)
  | or => exact isTruthy_value f v

theorem unary_value (op : UnaryOp) (v : Value) :
    op.apply (value f v) = (op.apply v).map (value f) := by
  cases op with
  | not =>
    rw [UnaryOp.apply, isTruthy_value]
    rfl
  | negate => cases v <;> rfl

theorem arith_value (op : ArithOp) (v w : Value) :
    op.apply (value f v) (value f w) = (op.apply v w).map (value f) := by
  have hv := display_value f v
  have hw := display_value f w
  cases op with
  | add =>
    cases v <;> cases w <;>
      first
      | rfl
      | (simp only [value] at hv hw
         simp only [value, ArithOp.apply, hv, hw]
         rfl)
  | divide =>
    cases v <;> cases w <;> try rfl
    simp only [value, ArithOp.apply]
    split <;> rfl
  | _ => cases v <;> cases w <;> rfl

theorem binary_value (op : BinaryOp) (v w : Value) :
    op.apply (value f v) (value f w) = (op.apply v w).map (value f) := by
  cases op with
  | arith op => exact arith_value f op v w
  | order op => cases v <;> cases w <;> rfl
  | equal =>
    rw [BinaryOp.apply, equals_value]
    rfl
  | notEqual =>
    rw [BinaryOp.apply, equals_value]
    rfl

/-! ### Stores -/

def store (s : Store) : Store :=
  { scopes := s.scopes.map (value f)
    fields := s.fields.map (Bindings.mapValues (value f))
    identities := s.identities
    ticks := s.ticks }

def property : Store.Property → Store.Property
  | .field v => .field (value f v)
  | .method c => .method (closure f c)

section
variable (s : Store)

theorem define_store (e : Environment) (x : String) (v : Value) :
    (store f s).define e x (value f v) = store f (s.define e x v) := by
  show Store.mk ((s.scopes.map (value f)).define e x (value f v)) _ _ _ = _
  rw [Scopes.define_map]
  rfl

theorem binds_store (e : Environment) (x : String) :
    (store f s).binds e x = s.binds e x := by
  show ((s.scopes.map (value f)).bindings e.scope).binds x = _
  rw [Bindings.binds, Scopes.bindings_map, Bindings.find?_mapValues, Option.isSome_map]
  rfl

theorem enter_store (outer : Environment) (own : Bindings Value) :
    (store f s).enter outer (own.mapValues (value f)) =
      ((s.enter outer own).1, store f (s.enter outer own).2) := by
  obtain ⟨scopes, fields, identities, ticks⟩ := s
  have h := Scopes.extend_map (value f) scopes (some outer) own
  simp only [store, Store.enter, h]

theorem size_store : (store f s).size = s.size := Scopes.size_map (value f) s.scopes

theorem makeFunction_store (c : Closure) :
    (store f s).makeFunction (closure f c) =
      (value f (s.makeFunction c).1, store f (s.makeFunction c).2) := rfl

theorem makeClass_store (x : String) (ms : Bindings Closure) (parent : Option ClassObject) :
    (store f s).makeClass x (ms.mapValues (closure f)) (parent.map (classObject f)) =
      (value f (s.makeClass x ms parent).1, store f (s.makeClass x ms parent).2) := by
  cases parent <;> rfl

theorem makeInstance_store (c : ClassObject) :
    (store f s).makeInstance (classObject f c) =
      (value f (s.makeInstance c).1, store f (s.makeInstance c).2) := by
  simp [Store.makeInstance, store, value]
  rfl

theorem setField_store (i : Nat) (x : String) (v : Value) :
    (store f s).setField i x (value f v) = store f (s.setField i x v) := by
  show Store.mk _ ((s.fields.map (Bindings.mapValues (value f))).modify i _) _ _ = _
  rw [Bindings.modify_mapValues]
  rfl

theorem bind_store (c : Closure) (receiver : Value) :
    (store f s).bind (closure f c) (value f receiver) =
      (closure f (s.bind c receiver).1, store f (s.bind c receiver).2) := by
  have h := enter_store f s c.environment [("this", receiver)]
  rw [Store.bind_eq, Store.bind_eq, size_store]
  exact congrArg (Prod.mk _) (congrArg Prod.snd h)

theorem bindValue_store (c : Closure) (receiver : Value) :
    (store f s).bindValue (closure f c) (value f receiver) =
      (value f (s.bindValue c receiver).1, store f (s.bindValue c receiver).2) := by
  have h := bind_store f s c receiver
  unfold Store.bindValue
  rw [h]
  rfl

theorem property?_store (i : Nat) (c : ClassObject) (x : String) :
    (store f s).property? i (classObject f c) x = (s.property? i c x).map (property f) := by
  have h : ((store f s).fieldsOf i).find? x = ((s.fieldsOf i).find? x).map (value f) := by
    show (((s.fields.map (Bindings.mapValues (value f))).getD i []).find? x) = _
    rw [Bindings.getD_mapValues, Bindings.find?_mapValues]
    rfl
  unfold Store.property?
  rw [h, method?_classObject]
  cases (s.fieldsOf i).find? x with
  | some v => rfl
  | none => cases c.method? x <;> rfl

theorem take_store (p : Store.Property) (receiver : Value) :
    (store f s).take (property f p) (value f receiver) =
      (value f (s.take p receiver).1, store f (s.take p receiver).2) := by
  cases p with
  | field v => rfl
  | method c => exact bindValue_store f s c receiver

end

theorem store_initial : store f .initial = .initial := by
  simp [store, Store.initial, Scopes.map, Scopes.extend, Scopes.empty, Bindings.mapValues, value]

/-! ### States -/

def completion : Completion → Completion
  | .normal => .normal
  | .returned v => .returned (value f v)

def callResult : CallResult → CallResult
  | .returned => .returned
  | .receiver env => .receiver env
  | .made v => .made (value f v)

mutual

def valueCont : ValueCont → ValueCont
  | .unary op line k => .unary op (f line) (valueCont k)
  | .binaryLeft op line right env k => .binaryLeft op (f line) (expr f right) env (valueCont k)
  | .binaryRight op line left k => .binaryRight op (f line) (value f left) (valueCont k)
  | .logical op right env k => .logical op (expr f right) env (valueCont k)
  | .assign x ref env k => .assign (x.renumber f) ref env (valueCont k)
  | .callee line arguments env k => .callee (f line) (exprs f arguments) env (valueCont k)
  | .argument line callee earlier later env k =>
    .argument (f line) (value f callee) (earlier.map (value f)) (exprs f later) env (valueCont k)
  | .get x k => .get (x.renumber f) (valueCont k)
  | .setObject x v env k => .setObject (x.renumber f) (expr f v) env (valueCont k)
  | .setValue i x k => .setValue i (x.renumber f) (valueCont k)
  | .updateObject x op line v env k =>
    .updateObject (x.renumber f) op (f line) (expr f v) env (valueCont k)
  | .updateValue i x op line current k =>
    .updateValue i (x.renumber f) op (f line) (value f current) (valueCont k)
  | .discard k => .discard (stmtCont k)
  | .print k => .print (stmtCont k)
  | .define x env k => .define x env (stmtCont k)
  | .ret k => .ret (stmtCont k)
  | .branch yes no env k => .branch (stmt f yes) (optionalStmt f no) env (stmtCont k)
  | .loopTest condition body env k =>
    .loopTest (expr f condition) (stmt f body) env (stmtCont k)
  | .inherit x y ms env k =>
    .inherit (x.renumber f) (y.renumber f) (methods f ms) env (stmtCont k)

def stmtCont : StmtCont → StmtCont
  | .sequence later env k => .sequence (stmts f later) env (stmtCont k)
  | .loopBody condition body env k =>
    .loopBody (expr f condition) (stmt f body) env (stmtCont k)
  | .call result k => .call (callResult f result) (valueCont k)
  | .finish => .finish

end

def focus : Focus → Focus
  | .evaluate e env k => .evaluate (expr f e) env (valueCont f k)
  | .deliver v k => .deliver (value f v) (valueCont f k)
  | .execute s env k => .execute (stmt f s) env (stmtCont f k)
  | .complete c k => .complete (completion f c) (stmtCont f k)

def ending : Ending → Ending
  | .finished => .finished
  | .failed e => .failed ⟨e.fault, e.token.renumber f⟩
  | .unreachable g => .unreachable g
  | .broken g => .broken g

/-- A state of a run on other lines, of a program with more statements `later` at its end, and after
`earlier` has been printed. -/
def machine (later : List RStmt) (earlier : String) (m : Machine) : Machine :=
  { focus := focus f m.focus
    pending := stmts f m.pending ++ later
    store := store f m.store
    output := earlier ++ m.output
    depth := m.depth }

theorem machine_start (program later : List RStmt) (s : Store) :
    machine f later "" (.start program s) = .start (stmts f program ++ later) (store f s) := rfl

theorem ending_id (e : Ending) : ending id e = e := by cases e <;> rfl

theorem ending_eq_finished {e : Ending} (h : ending f e = .finished) : e = .finished := by
  cases e with
  | finished => rfl
  | failed e => cases h
  | unreachable g => cases h
  | broken g => cases h

end Renumber
end LoxScript
