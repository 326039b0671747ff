import LoxScript.Binding.LocalScope
import LoxScript.Machine.Step

/-!
Lexical scoping by name.

This evaluator knows nothing of distances, and its environments never change: a scope is a list of
names, each with the location that holds its value.  Every declaration in a block, every parameter,
every `this` of a bound method and every `super` of a subclass puts a new location in front of the
list, and leaving a block goes back to the list from before.  A name means the first pair that has
it, and if there is none, the global of that name.  A location is empty from the beginning of its
declaration until the initial value is there.
-/

namespace LoxScript.Lexical

/-- Identifies a location: the number of locations made before it. -/
structure Location where
  index : Nat
deriving Repr, DecidableEq, Inhabited

/-- The names in force, the latest first. -/
abbrev Scope := List (String × Location)

/-- The location that a name means; none if it is global. -/
def Scope.find? (x : String) : Scope → Option Location
  | [] => none
  | (y, l) :: rest => if y = x then some l else find? x rest

abbrev Closure := ClosureOf Unit Scope

abbrev ClassObject := ClassOf Unit Scope

abbrev Value := ValueOf Unit Scope

abbrev Callable := CallableOf Unit Scope

structure Store where
  cells : Array (Option Value)
  globals : Bindings Value
  fields : Array (Bindings Value)
  identities : Nat
  ticks : Nat

namespace Store

def initial : Store :=
  { cells := #[], globals := [("clock", .native .clock)], fields := #[], identities := 0, ticks := 0 }

/-- What a location holds. -/
def cell (s : Store) (l : Location) : Option Value := s.cells.getD l.index none

def setCell (s : Store) (l : Location) (v : Value) : Store :=
  { s with cells := s.cells.modify l.index fun _ => some v }

/-- A new location for a name, in front of a scope. -/
def fresh (s : Store) (x : String) (v : Option Value) (σ : Scope) : Scope × Store :=
  ((x, ⟨s.cells.size⟩) :: σ, { s with cells := s.cells.push v })

/-- Gives a name its value where it is declared. -/
def declare (s : Store) (σ : Scope) (x : String) (v : Value) : Store :=
  match σ.find? x with
  | some l => s.setCell l v
  | none => { s with globals := s.globals.put x v }

/-- Parameters with their arguments, in front of a scope. -/
def bindAll (s : Store) (σ : Scope) : List (Name × Value) → Scope × Store
  | [] => (σ, s)
  | (x, v) :: rest =>
    let (σ, s) := s.fresh x.text (some v) σ
    bindAll s σ rest

def makeFunction (s : Store) (f : Closure) : Value × Store :=
  (.function s.identities f, { s with identities := s.identities + 1 })

def makeClass (s : Store) (name : String) (methods : Bindings Closure)
    (parent : Option ClassObject) : Value × Store :=
  (.class (.mk s.identities name methods parent), { s with identities := s.identities + 1 })

def makeInstance (s : Store) (c : ClassObject) : Value × Store :=
  (.instance s.fields.size c, { s with fields := s.fields.push [] })

def tick (s : Store) : Nat × Store := (s.ticks, { s with ticks := s.ticks + 1 })

def fieldsOf (s : Store) (instance_ : Nat) : Bindings Value := s.fields.getD instance_ []

def setField (s : Store) (instance_ : Nat) (x : String) (v : Value) : Store :=
  { s with fields := s.fields.modify instance_ (·.put x v) }

/-- A method with its receiver. -/
def bind (s : Store) (f : Closure) (receiver : Value) : Closure × Store :=
  let (σ, s) := s.fresh "this" (some receiver) f.environment
  ({ f with environment := σ }, s)

def bindValue (s : Store) (f : Closure) (receiver : Value) : Value × Store :=
  let (f, s) := s.bind f receiver
  s.makeFunction f

inductive Property where
  | field (v : Value)
  | method (f : Closure)

def property? (s : Store) (instance_ : Nat) (c : ClassObject) (x : String) : Option Property :=
  match (s.fieldsOf instance_).find? x with
  | some v => some (.field v)
  | none => (c.method? x).map .method

def take (s : Store) (p : Property) (receiver : Value) : Value × Store :=
  match p with
  | .field v => (v, s)
  | .method f => s.bindValue f receiver

end Store

inductive Completion where
  | normal
  | returned (v : Value)

/-- What a call answers when its body has ended. -/
inductive CallResult where
  | returned
  /-- What `this` means in the scope. -/
  | receiver (σ : Scope)
  | made (instance_ : Value)

mutual

/-- What is done with the value of an expression. -/
inductive ValueCont where
  | unary (op : UnaryOp) (line : Nat) (next : ValueCont)
  | binaryLeft (op : BinaryOp) (line : Nat) (right : Expr Unit) (σ : Scope) (next : ValueCont)
  | binaryRight (op : BinaryOp) (line : Nat) (left : Value) (next : ValueCont)
  | logical (op : LogicalOp) (right : Expr Unit) (σ : Scope) (next : ValueCont)
  | assign (name : Name) (σ : Scope) (next : ValueCont)
  | callee (line : Nat) (arguments : List (Expr Unit)) (σ : Scope) (next : ValueCont)
  | argument (line : Nat) (callee : Value) (earlier : List Value) (later : List (Expr Unit))
      (σ : Scope) (next : ValueCont)
  | get (property : Name) (next : ValueCont)
  | setObject (property : Name) (value : Expr Unit) (σ : Scope) (next : ValueCont)
  | setValue (instance_ : Nat) (property : Name) (next : ValueCont)
  | updateObject (property : Name) (op : ArithOp) (line : Nat) (value : Expr Unit) (σ : Scope)
      (next : ValueCont)
  | updateValue (instance_ : Nat) (property : Name) (op : ArithOp) (line : Nat) (current : Value)
      (next : ValueCont)
  | discard (next : StmtCont)
  | print (next : StmtCont)
  | define (x : String) (σ : Scope) (next : StmtCont)
  | ret (next : StmtCont)
  | branch (yes : Stmt Unit) (no : Option (Stmt Unit)) (σ : Scope) (next : StmtCont)
  | loopTest (condition : Expr Unit) (body : Stmt Unit) (σ : Scope) (next : StmtCont)
  | inherit (name parent : Name) (methods : List (Method Unit)) (σ : Scope) (next : StmtCont)

/-- What is done when a statement has ended. -/
inductive StmtCont where
  | sequence (later : List (Stmt Unit)) (σ : Scope) (next : StmtCont)
  | loopBody (condition : Expr Unit) (body : Stmt Unit) (σ : Scope) (next : StmtCont)
  | call (result : CallResult) (next : ValueCont)
  | finish

end

inductive Focus where
  | evaluate (e : Expr Unit) (σ : Scope) (next : ValueCont)
  | deliver (v : Value) (next : ValueCont)
  | execute (s : Stmt Unit) (σ : Scope) (next : StmtCont)
  | complete (c : Completion) (next : StmtCont)

structure Machine where
  focus : Focus
  pending : List (Stmt Unit)
  store : Store
  output : String
  depth : Nat

inductive Step where
  | next (m : Machine)
  | stop (m : Machine) (e : Ending)

namespace Machine

def start (program : List (Stmt Unit)) : Machine :=
  { focus := .complete .normal .finish, pending := program, store := .initial, output := "",
    depth := 0 }

def evaluating (m : Machine) (e : Expr Unit) (σ : Scope) (k : ValueCont) : Step :=
  .next { m with focus := .evaluate e σ k }

def delivering (m : Machine) (v : Value) (k : ValueCont) : Step :=
  .next { m with focus := .deliver v k }

def executing (m : Machine) (s : Stmt Unit) (σ : Scope) (k : StmtCont) : Step :=
  .next { m with focus := .execute s σ k }

def completing (m : Machine) (c : Completion) (k : StmtCont) : Step :=
  .next { m with focus := .complete c k }

def failing (m : Machine) (f : Fault) (t : Token) : Step := .stop m (.failed ⟨f, t⟩)

def deliveringResult (m : Machine) (r : Except Fault Value) (t : Token) (k : ValueCont) : Step :=
  match r with
  | .ok v => m.delivering v k
  | .error f => m.failing f t

/-- Reads what a name means; an empty location has no value to give. -/
def lookingUp (m : Machine) (x : String) (t : Token) (σ : Scope) (k : ValueCont) : Step :=
  match σ.find? x with
  | some l =>
    match m.store.cell l with
    | some v => m.delivering v k
    | none => .stop m (.unreachable (.unbound x))
  | none =>
    match m.store.globals.find? x with
    | some v => m.delivering v k
    | none => m.failing (.undefinedVariable x) t

def assigning (m : Machine) (x : Name) (σ : Scope) (v : Value) (k : ValueCont) : Step :=
  match σ.find? x.text with
  | some l => { m with store := m.store.setCell l v }.delivering v k
  | none =>
    if m.store.globals.binds x.text then
      { m with store := { m.store with globals := m.store.globals.put x.text v } }.delivering v k
    else m.failing (.undefinedVariable x.text) x.token

/-- The method of the superclass, bound to the receiver of the method around. -/
def lookingUpSuper (m : Machine) (method : Name) (σ : Scope) (k : ValueCont) : Step :=
  match (σ.find? "super").bind m.store.cell, (σ.find? "this").bind m.store.cell with
  | some (.class parent), some receiver =>
    match parent.method? method.text with
    | none => m.failing (.undefinedProperty method.text) method.token
    | some f =>
      let (v, store) := m.store.bindValue f receiver
      { m with store }.delivering v k
  | some _, some _ => .stop m (.unreachable .detached)
  | none, _ => .stop m (.unreachable (.unbound "super"))
  | _, none => .stop m (.unreachable (.unbound "this"))

/-- Runs the body of a function, its parameters in front of the scope in which it was made. -/
def entering (m : Machine) (f : Closure) (arguments : List Value) (result : CallResult)
    (k : ValueCont) : Step :=
  let (σ, store) := m.store.bindAll f.environment (f.code.params.zip arguments)
  { m with store, depth := m.depth + 1 }.completing .normal (.sequence f.code.body σ (.call result k))

def invoking (settings : Settings) (m : Machine) (callee : Callable) (arguments : List Value)
    (k : ValueCont) : Step :=
  match callee with
  | .native .clock =>
    let (n, store) := m.store.tick
    { m with store }.delivering (.number (settings.clock n)) k
  | .function f =>
    m.entering f arguments (if f.isInitializer then .receiver f.environment else .returned) k
  | .class c =>
    let (made, store) := m.store.makeInstance c
    match c.initializer? with
    | none => { m with store }.delivering made k
    | some f =>
      let (f, store) := store.bind f made
      { m with store }.entering f arguments (.made made) k

def calling (settings : Settings) (m : Machine) (callee : Value) (arguments : List Value)
    (line : Nat) (k : ValueCont) : Step :=
  let paren : Token := ⟨.symbol .rightParen, line⟩
  match callee.callable? with
  | none => m.failing .notCallable paren
  | some callee =>
    if arguments.length ≠ callee.arity then
      m.failing (.wrongArity callee.arity arguments.length) paren
    else if settings.maxCallDepth ≤ m.depth then m.failing .stackOverflow paren
    else m.invoking settings callee arguments k

def takingProperty (m : Machine) (instance_ : Nat) (c : ClassObject) (property : Name)
    (next : Machine → Value → Step) : Step :=
  match m.store.property? instance_ c property.text with
  | none => m.failing (.undefinedProperty property.text) property.token
  | some p =>
    let (v, store) := m.store.take p (.instance instance_ c)
    next { m with store } v

def methodTable (σ : Scope) (methods : List (Method Unit)) : Bindings Closure :=
  methods.foldl (fun table f =>
    Bindings.put f.name.text
      { name := some f.name.text, code := f.code, environment := σ,
        isInitializer := f.name.text == "init" } table) []

/-- Makes a class and gives its name its value.  The methods of a class with a superclass are made
with `super` in front of the scope. -/
def declaringClass (m : Machine) (name : Name) (parent : Option ClassObject)
    (methods : List (Method Unit)) (σ : Scope) (k : StmtCont) : Step :=
  let (methodScope, store) := match parent with
    | none => (σ, m.store)
    | some c => m.store.fresh "super" (some (.class c)) σ
  let (v, store) := store.makeClass name.text (methodTable methodScope methods) parent
  { m with store := store.declare σ name.text v }.completing .normal k

def evaluate (m : Machine) (e : Expr Unit) (σ : Scope) (k : ValueCont) : Step :=
  match e with
  | .literal value => m.delivering (.ofLiteral value) k
  | .grouping inner => m.evaluating inner σ k
  | .unary op line operand => m.evaluating operand σ (.unary op line k)
  | .binary left op line right => m.evaluating left σ (.binaryLeft op line right σ k)
  | .logical left op _ right => m.evaluating left σ (.logical op right σ k)
  | .var name _ => m.lookingUp name.text name.token σ k
  | .assign name _ value => m.evaluating value σ (.assign name σ k)
  | .call callee line arguments => m.evaluating callee σ (.callee line arguments σ k)
  | .get object property => m.evaluating object σ (.get property k)
  | .set object property value => m.evaluating object σ (.setObject property value σ k)
  | .update object property op line value =>
    m.evaluating object σ (.updateObject property op line value σ k)
  | .this line _ => m.lookingUp "this" ⟨.keyword .this_, line⟩ σ k
  | .super _ _ method => m.lookingUpSuper method σ k
  | .function _ code =>
    let (v, store) := m.store.makeFunction
      { name := none, code, environment := σ, isInitializer := false }
    { m with store }.delivering v k

def nextArgument (settings : Settings) (m : Machine) (line : Nat) (callee : Value)
    (earlier : List Value) (later : List (Expr Unit)) (σ : Scope) (k : ValueCont) : Step :=
  match later with
  | [] => m.calling settings callee earlier.reverse line k
  | e :: later => m.evaluating e σ (.argument line callee earlier later σ k)

def deliver (settings : Settings) (m : Machine) (v : Value) (k : ValueCont) : Step :=
  match k with
  | .unary op line k => m.deliveringResult (op.apply v) ⟨.symbol op.symbol, line⟩ k
  | .binaryLeft op line right σ k => m.evaluating right σ (.binaryRight op line v k)
  | .binaryRight op line left k =>
    m.deliveringResult (op.apply left v) ⟨.symbol op.symbol, line⟩ k
  | .logical op right σ k =>
    if op.isDecidedBy v then m.delivering v k else m.evaluating right σ k
  | .assign name σ k => m.assigning name σ v k
  | .callee line arguments σ k => m.nextArgument settings line v [] arguments σ k
  | .argument line callee earlier later σ k =>
    m.nextArgument settings line callee (v :: earlier) later σ k
  | .get property k =>
    match v with
    | .instance i c => m.takingProperty i c property fun m v => m.delivering v k
    | _ => m.failing .noProperties property.token
  | .setObject property value σ k =>
    match v with
    | .instance i _ => m.evaluating value σ (.setValue i property k)
    | _ => m.failing .noFields property.token
  | .setValue i property k =>
    { m with store := m.store.setField i property.text v }.delivering v k
  | .updateObject property op line value σ k =>
    match v with
    | .instance i c =>
      m.takingProperty i c property fun m current =>
        m.evaluating value σ (.updateValue i property op line current k)
    | _ => m.failing .noFields property.token
  | .updateValue i property op line current k =>
    match op.apply current v with
    | .ok w => { m with store := m.store.setField i property.text w }.delivering w k
    | .error f => m.failing f ⟨.symbol op.symbol, line⟩
  | .discard k => m.completing .normal k
  | .print k => { m with output := m.output ++ v.display ++ "\n" }.completing .normal k
  | .define x σ k => { m with store := m.store.declare σ x v }.completing .normal k
  | .ret k => m.completing (.returned v) k
  | .branch yes no σ k =>
    if v.isTruthy then m.executing yes σ k
    else
      match no with
      | some no => m.executing no σ k
      | none => m.completing .normal k
  | .loopTest condition body σ k =>
    if v.isTruthy then m.executing body σ (.loopBody condition body σ k)
    else m.completing .normal k
  | .inherit name parent methods σ k =>
    match v with
    | .class c => m.declaringClass name (some c) methods σ k
    | _ => m.failing .superclassNotClass parent.token

def execute (m : Machine) (s : Stmt Unit) (σ : Scope) (k : StmtCont) : Step :=
  match s with
  | .expression e => m.evaluating e σ (.discard k)
  | .print e => m.evaluating e σ (.print k)
  | .var name none => { m with store := m.store.declare σ name.text .nil }.completing .normal k
  | .var name (some e) => m.evaluating e σ (.define name.text σ k)
  | .block body => m.completing .normal (.sequence body σ k)
  | .branch condition yes no => m.evaluating condition σ (.branch yes no σ k)
  | .loop condition body => m.evaluating condition σ (.loopTest condition body σ k)
  | .function name code =>
    let (v, store) := m.store.makeFunction
      { name := some name.text, code, environment := σ, isInitializer := false }
    { m with store := store.declare σ name.text v }.completing .normal k
  | .ret _ none => m.completing (.returned .nil) k
  | .ret _ (some e) => m.evaluating e σ (.ret k)
  | .classDef name none methods => m.declaringClass name none methods σ k
  | .classDef name (some (parent, ref)) methods =>
    m.evaluating (.var parent ref) σ (.inherit name parent methods σ k)

/-- The value of a call whose body has ended; none if `this` has no value. -/
def answer? (m : Machine) (c : Completion) (result : CallResult) : Option Value :=
  match result with
  | .returned =>
    match c with
    | .normal => some .nil
    | .returned v => some v
  | .receiver σ => (σ.find? "this").bind m.store.cell
  | .made v => some v

def complete (m : Machine) (c : Completion) (k : StmtCont) : Step :=
  match k with
  | .sequence later σ k =>
    match c, later with
    -- The scope is extended before the declaration is executed, which sees its own name.
    | .normal, s :: later =>
      match s.declares? with
      | none => m.executing s σ (.sequence later σ k)
      | some x =>
        let (σ, store) := m.store.fresh x.text none σ
        { m with store }.executing s σ (.sequence later σ k)
    | c, _ => m.completing c k
  | .loopBody condition body σ k =>
    match c with
    | .normal => m.evaluating condition σ (.loopTest condition body σ k)
    | .returned v => m.completing (.returned v) k
  | .call result k =>
    match m.answer? c result with
    | some v => { m with depth := m.depth - 1 }.delivering v k
    | none => .stop m (.unreachable (.unbound "this"))
  | .finish =>
    match m.pending with
    | [] => .stop m .finished
    | s :: pending => { m with pending }.executing s [] .finish

def step (settings : Settings) (m : Machine) : Step :=
  match m.focus with
  | .evaluate e σ k => m.evaluate e σ k
  | .deliver v k => m.deliver settings v k
  | .execute s σ k => m.execute s σ k
  | .complete c k => m.complete c k

/-- The state in which a run ends, and how; or the state after the given number of steps. -/
def run (settings : Settings) : Nat → Machine → Machine × Option Ending
  | 0, m => (m, none)
  | fuel + 1, m =>
    match m.step settings with
    | .next m => run settings fuel m
    | .stop m e => (m, some e)

end Machine
end LoxScript.Lexical
