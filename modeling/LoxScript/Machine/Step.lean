import LoxScript.Machine.State
import LoxScript.Operation

/-!
Running programs, step by step.

`Machine.step` looks at one thing and goes on to the next; `Machine.run` repeats it for a number of
steps.  These are the rules of the language alone.  By them only the limit on the number of nested
calls makes a call fail for going too deep; the number of steps has no part in it.
-/

namespace LoxScript

/-- What a run depends on besides the program. -/
structure Settings where
  maxCallDepth : Nat := 1000
  /-- What the clock shows the n-th time that it is read. -/
  clock : Nat → Float := fun _ => 0

/-- The outcome of one step: another state, or the last one and how the run ends in it. -/
inductive Step where
  | next (m : Machine)
  | stop (m : Machine) (e : Ending)
deriving Inhabited

namespace Machine

/-- Changes the store, which is taken out of the state for that. -/
@[inline] def change (m : Machine) (f : Store → Store) : Machine :=
  match m with
  | ⟨focus, pending, store, output, depth⟩ => ⟨focus, pending, f store, output, depth⟩

/-- Changes the store by an operation that also has a result. -/
@[inline] def make {α : Type} (m : Machine) (f : Store → α × Store) : α × Machine :=
  match m with
  | ⟨focus, pending, store, output, depth⟩ =>
    let (a, store) := f store
    (a, ⟨focus, pending, store, output, depth⟩)

/-- Prints a line. -/
def print (m : Machine) (line : String) : Machine :=
  match m with
  | ⟨focus, pending, store, output, depth⟩ =>
    ⟨focus, pending, store, output ++ line ++ "\n", depth⟩

def evaluating (m : Machine) (e : RExpr) (env : Environment) (k : ValueCont) : Step :=
  .next { m with focus := .evaluate e env k }

def delivering (m : Machine) (v : Value) (k : ValueCont) : Step :=
  .next { m with focus := .deliver v k }

def executing (m : Machine) (s : RStmt) (env : Environment) (k : StmtCont) : Step :=
  .next { m with focus := .execute s env k }

def completing (m : Machine) (c : Completion) (k : StmtCont) : Step :=
  .next { m with focus := .complete c k }

def failing (m : Machine) (f : Fault) (t : Token) : Step := .stop m (.failed ⟨f, t⟩)

/-- Delivers the outcome of an operation, or blames the token. -/
def deliveringResult (m : Machine) (r : Except Fault Value) (t : Token) (k : ValueCont) : Step :=
  match r with
  | .ok v => m.delivering v k
  | .error f => m.failing f t

/-- Reads a name where its use refers to; the token is blamed if it is global and not bound. -/
def lookingUp (m : Machine) (x : String) (ref : Option Nat) (t : Token) (env : Environment)
    (k : ValueCont) : Step :=
  match ref with
  | some distance =>
    match m.store.scopes.getAt env distance x with
    | .ok v => m.delivering v k
    | .error f => .stop m (.unreachable f)
  | none =>
    match m.store.scopes.get? Store.globals x with
    | some v => m.delivering v k
    | none => m.failing (.undefinedVariable x) t

/-- Writes a name where its use refers to; the token is blamed if it is global and not bound. -/
def assigning (m : Machine) (x : Name) (ref : Option Nat) (env : Environment) (v : Value)
    (k : ValueCont) : Step :=
  match ref with
  | some distance =>
    match env.ancestor? distance with
    | some e => (m.change (·.define e x.text v)).delivering v k
    | none => .stop m (.unreachable .detached)
  | none =>
    if m.store.binds Store.globals x.text then
      (m.change (·.define Store.globals x.text v)).delivering v k
    else m.failing (.undefinedVariable x.text) x.token

/-- The method of the superclass, bound to the receiver of the method around.  The scope that binds
the receiver is the one just inside the scope that binds the superclass. -/
def lookingUpSuper (m : Machine) (ref : Option Nat) (method : Name) (env : Environment)
    (k : ValueCont) : Step :=
  match ref with
  | none => .stop m (.unreachable (.unbound "super"))
  | some distance =>
    match m.store.scopes.getAt env distance "super",
        m.store.scopes.getAt env (distance - 1) "this" with
    | .ok (.class parent), .ok receiver =>
      match parent.method? method.text with
      | none => m.failing (.undefinedProperty method.text) method.token
      | some f =>
        let (v, m) := m.make (·.bindValue f receiver)
        m.delivering v k
    | .ok _, .ok _ => .stop m (.unreachable .detached)
    | .error f, _ => .stop m (.unreachable f)
    | _, .error f => .stop m (.unreachable f)

/-- Parameters bound to arguments. -/
def parameterBindings (f : Closure) (arguments : List Value) : Bindings Value :=
  (f.code.params.zip arguments).foldl (fun b (x, v) => b.put x.text v) []

/-- Runs the body of a function in a scope of its own. -/
def entering (m : Machine) (f : Closure) (arguments : List Value) (result : CallResult)
    (k : ValueCont) : Step :=
  let (env, m) := m.make (·.enter f.environment (parameterBindings f arguments))
  { m with depth := m.depth + 1 }.completing .normal (.sequence f.code.body env (.call result k))

/-- Runs what is called.  Making an instance and initialising it is one call. -/
def invoking (settings : Settings) (m : Machine) (callee : Callable) (arguments : List Value)
    (k : ValueCont) : Step :=
  match callee with
  | .native .clock =>
    let (n, m) := m.make (·.tick)
    m.delivering (.number (settings.clock n)) k
  | .function f =>
    m.entering f arguments (if f.isInitializer then .receiver f.environment else .returned) k
  | .class c =>
    let (made, m) := m.make (·.makeInstance c)
    match c.initializer? with
    | none => m.delivering made k
    | some f =>
      let (f, m) := m.make (·.bind f made)
      m.entering f arguments (.made made) k

/-- Calls a value, unless one of the rules for calls forbids it.  The token blamed is the closing
parenthesis. -/
def calling (settings : Settings) (m : Machine) (callee : Value) (arguments : List Value)
    (line : Nat) (k : ValueCont) : Step :=
  let paren : Token := ⟨.symbol .rightParen, line⟩
  match callee.callable? with
  | none => m.failing .notCallable paren
  | some callee =>
    if arguments.length ≠ callee.arity then
      m.failing (.wrongArity callee.arity arguments.length) paren
    else if settings.maxCallDepth ≤ m.depth then m.failing .stackOverflow paren
    else m.invoking settings callee arguments k

/-- Goes on with a property of an instance, or blames its name. -/
def takingProperty (m : Machine) (instance_ : Nat) (c : ClassObject) (property : Name)
    (next : Machine → Value → Step) : Step :=
  match m.store.property? instance_ c property.text with
  | none => m.failing (.undefinedProperty property.text) property.token
  | some p =>
    let (v, m) := m.make (·.take p (.instance instance_ c))
    next m v

/-- The methods of a class, all made in one environment; the last of a name counts. -/
def methodTable (env : Environment) (methods : List (Method (Option Nat))) : Bindings Closure :=
  methods.foldl (fun table f =>
    Bindings.put f.name.text
      { name := some f.name.text, code := f.code, environment := env,
        isInitializer := f.name.text == "init" } table) []

/-- Makes a class and binds its name.  If it has a superclass, its methods are made in a scope that
binds `super` to it. -/
def declaringClass (m : Machine) (name : Name) (parent : Option ClassObject)
    (methods : List (Method (Option Nat))) (env : Environment) (k : StmtCont) : Step :=
  let (methodEnv, m) := match parent with
    | none => (env, m)
    | some c => m.make (·.enter env [("super", .class c)])
  let (v, m) := m.make (·.makeClass name.text (methodTable methodEnv methods) parent)
  (m.change (·.define env name.text v)).completing .normal k

def evaluate (m : Machine) (e : RExpr) (env : Environment) (k : ValueCont) : Step :=
  match e with
  | .literal value => m.delivering (.ofLiteral value) k
  | .grouping inner => m.evaluating inner env k
  | .unary op line operand => m.evaluating operand env (.unary op line k)
  | .binary left op line right => m.evaluating left env (.binaryLeft op line right env k)
  | .logical left op _ right => m.evaluating left env (.logical op right env k)
  | .var name ref => m.lookingUp name.text ref name.token env k
  | .assign name ref value => m.evaluating value env (.assign name ref env k)
  | .call callee line arguments => m.evaluating callee env (.callee line arguments env k)
  | .get object property => m.evaluating object env (.get property k)
  | .set object property value => m.evaluating object env (.setObject property value env k)
  | .update object property op line value =>
    m.evaluating object env (.updateObject property op line value env k)
  | .this line ref => m.lookingUp "this" ref ⟨.keyword .this_, line⟩ env k
  | .super _ ref method => m.lookingUpSuper ref method env k
  | .function _ code =>
    let (v, m) := m.make
      (·.makeFunction { name := none, code, environment := env, isInitializer := false })
    m.delivering v k

/-- Evaluates the next argument, or calls if there is none. -/
def nextArgument (settings : Settings) (m : Machine) (line : Nat) (callee : Value)
    (earlier : List Value) (later : List RExpr) (env : Environment) (k : ValueCont) : Step :=
  match later with
  | [] => m.calling settings callee earlier.reverse line k
  | e :: later => m.evaluating e env (.argument line callee earlier later env k)

def deliver (settings : Settings) (m : Machine) (v : Value) (k : ValueCont) : Step :=
  match k with
  | .unary op line k => m.deliveringResult (op.apply v) ⟨.symbol op.symbol, line⟩ k
  | .binaryLeft op line right env k => m.evaluating right env (.binaryRight op line v k)
  | .binaryRight op line left k =>
    m.deliveringResult (op.apply left v) ⟨.symbol op.symbol, line⟩ k
  | .logical op right env k =>
    if op.isDecidedBy v then m.delivering v k else m.evaluating right env k
  | .assign name ref env k => m.assigning name ref env v k
  | .callee line arguments env k => m.nextArgument settings line v [] arguments env k
  | .argument line callee earlier later env k =>
    m.nextArgument settings line callee (v :: earlier) later env k
  | .get property k =>
    match v with
    | .instance i c => m.takingProperty i c property fun m v => m.delivering v k
    | _ => m.failing .noProperties property.token
  | .setObject property value env k =>
    match v with
    | .instance i _ => m.evaluating value env (.setValue i property k)
    | _ => m.failing .noFields property.token
  | .setValue i property k => (m.change (·.setField i property.text v)).delivering v k
  | .updateObject property op line value env k =>
    match v with
    | .instance i c =>
      m.takingProperty i c property fun m current =>
        m.evaluating value env (.updateValue i property op line current k)
    | _ => m.failing .noFields property.token
  | .updateValue i property op line current k =>
    match op.apply current v with
    | .ok w => (m.change (·.setField i property.text w)).delivering w k
    | .error f => m.failing f ⟨.symbol op.symbol, line⟩
  | .discard k => m.completing .normal k
  | .print k => (m.print v.display).completing .normal k
  | .define x env k => (m.change (·.define env x v)).completing .normal k
  | .ret k => m.completing (.returned v) k
  | .branch yes no env k =>
    if v.isTruthy then m.executing yes env k
    else
      match no with
      | some no => m.executing no env k
      | none => m.completing .normal k
  | .loopTest condition body env k =>
    if v.isTruthy then m.executing body env (.loopBody condition body env k)
    else m.completing .normal k
  | .inherit name parent methods env k =>
    match v with
    | .class c => m.declaringClass name (some c) methods env k
    | _ => m.failing .superclassNotClass parent.token

def execute (m : Machine) (s : RStmt) (env : Environment) (k : StmtCont) : Step :=
  match s with
  | .expression e => m.evaluating e env (.discard k)
  | .print e => m.evaluating e env (.print k)
  | .var name none => (m.change (·.define env name.text .nil)).completing .normal k
  | .var name (some e) => m.evaluating e env (.define name.text env k)
  | .block body =>
    let (inner, m) := m.make (·.enter env [])
    m.completing .normal (.sequence body inner k)
  | .branch condition yes no => m.evaluating condition env (.branch yes no env k)
  | .loop condition body => m.evaluating condition env (.loopTest condition body env k)
  | .function name code =>
    let (v, m) := m.make (·.makeFunction
      { name := some name.text, code, environment := env, isInitializer := false })
    (m.change (·.define env name.text v)).completing .normal k
  | .ret _ none => m.completing (.returned .nil) k
  | .ret _ (some e) => m.evaluating e env (.ret k)
  | .classDef name none methods => m.declaringClass name none methods env k
  | .classDef name (some (parent, ref)) methods =>
    m.evaluating (.var parent ref) env (.inherit name parent methods env k)

/-- The value of a call whose body has ended. -/
def answer (m : Machine) (c : Completion) (result : CallResult) : Except ReachFault Value :=
  match result with
  | .returned =>
    match c with
    | .normal => .ok .nil
    | .returned v => .ok v
  | .receiver env => m.store.scopes.getAt env 0 "this"
  | .made v => .ok v

def complete (m : Machine) (c : Completion) (k : StmtCont) : Step :=
  match k with
  | .sequence later env k =>
    match c, later with
    | .normal, s :: later => m.executing s env (.sequence later env k)
    | c, _ => m.completing c k
  | .loopBody condition body env k =>
    match c with
    | .normal => m.evaluating condition env (.loopTest condition body env k)
    | .returned v => m.completing (.returned v) k
  | .call result k =>
    match m.answer c result with
    | .ok v => { m with depth := m.depth - 1 }.delivering v k
    | .error f => .stop m (.unreachable f)
  | .finish =>
    match m.pending with
    | [] => .stop m .finished
    | s :: pending => { m with pending }.executing s Store.globals .finish

def step (settings : Settings) (m : Machine) : Step :=
  match m.focus with
  | .evaluate e env k => m.evaluate e env k
  | .deliver v k => m.deliver settings v k
  | .execute s env k => m.execute s env k
  | .complete c k => m.complete c k

/-- The state in which a run ends, and how; or the state after the given number of steps. -/
def run (settings : Settings) : Nat → Machine → Machine × Option Ending
  | 0, m => (m, none)
  | fuel + 1, m =>
    match m.step settings with
    | .next m => run settings fuel m
    | .stop m e => (m, some e)

end Machine
end LoxScript
