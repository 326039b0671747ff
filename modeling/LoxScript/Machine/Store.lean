import LoxScript.Value

/-!
What a running program can change.
-/

namespace LoxScript

/-- The scopes, the fields of the instances, and the numbers that the next identity and the next
reading of the clock will have.  All of it only grows. -/
structure Store where
  scopes : Scopes Value
  fields : Array (Bindings Value)
  identities : Nat
  ticks : Nat
deriving Inhabited

namespace Store

/-- The environment of the outermost statements. -/
def globals : Environment := .root ⟨0⟩

/-- The store in which nothing has run: the functions of the language are bound, nothing else is. -/
def initial : Store :=
  { scopes := (Scopes.empty.extend none [("clock", .native .clock)]).2
    fields := #[]
    identities := 0
    ticks := 0 }

/- The functions below take a store apart before they change a part of it, so that the part has no
other holder and is changed in place. -/

def define (s : Store) (e : Environment) (x : String) (v : Value) : Store :=
  match s with
  | ⟨scopes, fields, identities, ticks⟩ => ⟨scopes.define e x v, fields, identities, ticks⟩

/-- Whether the innermost scope of an environment binds a name. -/
def binds (s : Store) (e : Environment) (x : String) : Bool :=
  (s.scopes.bindings e.scope).binds x

/-- A new scope inside an environment. -/
def enter (s : Store) (outer : Environment) (own : Bindings Value) : Environment × Store :=
  match s with
  | ⟨scopes, fields, identities, ticks⟩ =>
    let (e, scopes) := scopes.extend (some outer) own
    (e, ⟨scopes, fields, identities, ticks⟩)

/-- A new function value. -/
def makeFunction (s : Store) (f : Closure) : Value × Store :=
  (.function s.identities f, { s with identities := s.identities + 1 })

def makeClass (s : Store) (name : String) (methods : Bindings Closure)
    (parent : Option ClassObject) : Value × Store :=
  (.class (.mk s.identities name methods parent), { s with identities := s.identities + 1 })

/-- A new instance, without fields. -/
def makeInstance (s : Store) (c : ClassObject) : Value × Store :=
  match s with
  | ⟨scopes, fields, identities, ticks⟩ =>
    (.instance fields.size c, ⟨scopes, fields.push [], identities, ticks⟩)

/-- The number of the next reading of the clock. -/
def tick (s : Store) : Nat × Store := (s.ticks, { s with ticks := s.ticks + 1 })

def fieldsOf (s : Store) (instance_ : Nat) : Bindings Value := s.fields.getD instance_ []

def setField (s : Store) (instance_ : Nat) (x : String) (v : Value) : Store :=
  match s with
  | ⟨scopes, fields, identities, ticks⟩ =>
    ⟨scopes, fields.modify instance_ (·.put x v), identities, ticks⟩

/-- A method with its receiver: around the method's own environment there is one more scope, which
binds `this`. -/
def bind (s : Store) (f : Closure) (receiver : Value) : Closure × Store :=
  let (e, s) := s.enter f.environment [("this", receiver)]
  ({ f with environment := e }, s)

/-- A method with its receiver, as a value. -/
def bindValue (s : Store) (f : Closure) (receiver : Value) : Value × Store :=
  let (f, s) := s.bind f receiver
  s.makeFunction f

/-- A property of an instance: a field, or else a method. -/
inductive Property where
  | field (v : Value)
  | method (f : Closure)

def property? (s : Store) (instance_ : Nat) (c : ClassObject) (x : String) : Option Property :=
  match (s.fieldsOf instance_).find? x with
  | some v => some (.field v)
  | none => (c.method? x).map .method

/-- The value of a property, for which a method is bound to the instance. -/
def take (s : Store) (p : Property) (receiver : Value) : Value × Store :=
  match p with
  | .field v => (v, s)
  | .method f => s.bindValue f receiver

end Store
end LoxScript
