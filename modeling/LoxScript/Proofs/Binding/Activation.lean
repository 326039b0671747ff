import LoxScript.Proofs.Binding.Resolved
import LoxScript.Proofs.Scope.Changes
import LoxScript.Syntax.Uses

/-!
Scopes of a program, and the environments made for them while it runs.

An environment is made by one step of the run, and that step tells which scope of the program it is
for: the step executes a block, calls a function, binds a method to its receiver, or gives a class
its superclass.  What has happened so far is kept as the list of the states stepped from, through
all the programs of a session.
-/

namespace LoxScript

namespace Machine

/-- The environment that begins with the next new scope. -/
def inside (m : Machine) (outer : Environment) : Environment := .nested ⟨m.store.size⟩ outer

/-- All arguments of a call are there, and this is what is called. -/
inductive Calls (m : Machine) : Value → Prop
  | bare {v line env k} : m.focus = .deliver v (.callee line [] env k) → Calls m v
  | applied {v line callee earlier env k} :
      m.focus = .deliver v (.argument line callee earlier [] env k) → Calls m callee

/-- A method is bound to a receiver. -/
inductive Binds (m : Machine) : Closure → Prop
  | get {i c x k f} : m.focus = .deliver (.instance i c) (.get x k) →
      m.store.property? i c x.text = some (.method f) → Binds m f
  | update {i c x op line e env k f} :
      m.focus = .deliver (.instance i c) (.updateObject x op line e env k) →
      m.store.property? i c x.text = some (.method f) → Binds m f
  | super {line d x env k c f} : m.focus = .evaluate (.super line (some d) x) env k →
      m.store.scopes.getAt env d "super" = .ok (.class c) → c.method? x.text = some f → Binds m f
  | initializer {c f} : m.Calls (.class c) → c.initializer? = some f → Binds m f

/-- The scope of a program for which the environment would be made. -/
inductive Prepares (m : Machine) : Opener → Environment → Prop
  | block {body env k} : m.focus = .execute (.block body) env k →
      Prepares m (.block body) (m.inside env)
  | function {i f} : m.Calls (.function i f) →
      Prepares m (.function f.code) (m.inside f.environment)
  | initializer {c f} : m.Calls (.class c) → c.initializer? = some f →
      Prepares m (.function f.code) (.nested ⟨m.store.size + 1⟩ (m.inside f.environment))
  | receiver {f ms} : m.Binds f → f.code ∈ ms.map Method.code →
      Prepares m (.receiver ms) (m.inside f.environment)
  | superclass {c x y ms env k} : m.focus = .deliver (.class c) (.inherit x y ms env k) →
      Prepares m (.superclass ms) (m.inside env)

variable (settings : Settings)

/-- The step from this state makes an environment for a scope of a program. -/
def Opens (m : Machine) (o : Opener) (e : Environment) : Prop :=
  m.Prepares o e ∧ ∃ m', m.step settings = .next m' ∧ e.scope.index < m'.store.size

/-- The step from this state begins to run statements in a new environment, after which `k` is
done. -/
def Enters (m : Machine) (e : Environment) (k : StmtCont) : Prop :=
  ∃ m' body, m.step settings = .next m' ∧ m'.focus = .complete .normal (.sequence body e k) ∧
    m.store.size ≤ e.scope.index

/-- A declaration of a variable begins, and its initial value is to be computed. -/
def Begins (m : Machine) (e : Environment) (x : String) : Prop :=
  ∃ name initial k, m.focus = .execute (.var name (some initial)) e k ∧ name.text = x

/-- The initial value of a variable is there. -/
def Completes (m : Machine) (e : Environment) (x : String) : Prop :=
  ∃ v k, m.focus = .deliver v (.define x e k)

end Machine

/-- What is done after the statement in which a value is waited for. -/
def ValueCont.statement : ValueCont → StmtCont
  | .unary _ _ k | .binaryLeft _ _ _ _ k | .binaryRight _ _ _ k | .logical _ _ _ k
  | .assign _ _ _ k | .callee _ _ _ k | .argument _ _ _ _ _ k | .get _ k | .setObject _ _ _ k
  | .setValue _ _ k | .updateObject _ _ _ _ _ k | .updateValue _ _ _ _ _ k => k.statement
  | .discard k | .print k | .define _ _ k | .ret k | .branch _ _ _ k | .loopTest _ _ _ k
  | .inherit _ _ _ _ k => k

/-- The environment in which the statements around are run, and what is done after them; none if
the outermost statements are run. -/
def StmtCont.running? : StmtCont → Option (Environment × StmtCont)
  | .sequence _ env k => some (env, k)
  | .loopBody _ _ _ k => k.running?
  | .call _ _ | .finish => none

def StmtCont.environment (k : StmtCont) : Environment := (k.running?.map (·.1)).getD Store.globals

def Focus.statement : Focus → StmtCont
  | .evaluate _ _ k | .deliver _ k => k.statement
  | .execute _ _ k | .complete _ k => k

namespace Machine

/-- The environment is that of the statements that are being run, and it was made when they were
begun, to be run once. -/
def IsCurrent (settings : Settings) (past : List Machine) (m : Machine) (e : Environment) : Prop :=
  match m.focus.statement.running? with
  | none => e = Store.globals
  | some (env, k) => e = env ∧ ∃ q ∈ past, q.Enters settings e k

end Machine

/-- Each environment of the chain was made for the scope of the program at its place. -/
inductive Activates (settings : Settings) (past : List Machine) : Frames → Environment → Prop
  | globals : Activates settings past [] Store.globals
  | nested {f : Frame} {Γ : Frames} {i : ScopeId} {outer : Environment} :
      Activates settings past Γ outer →
      (∃ q ∈ past, q.Opens settings f.opener (.nested i outer)) →
      Activates settings past (f :: Γ) (.nested i outer)

/-- The use of a name that an expression is, apart from the uses in its parts. -/
def Expr.use? {ρ : Type} : Expr ρ → Option (Use ρ)
  | .var x ref => some ⟨.variable, x.text, x.line, ref⟩
  | .assign x ref _ => some ⟨.assign, x.text, x.line, ref⟩
  | .this line ref => some ⟨.this, "this", line, ref⟩
  | .super line ref _ => some ⟨.super, "super", line, ref⟩
  | _ => none

/-- A use of a name is looked at in an environment; an assignment is so twice, the second time with
the value that is assigned. -/
inductive Machine.Uses (m : Machine) : Use (Option Nat) → Environment → Prop
  | evaluate {e env k u} : m.focus = .evaluate e env k → e.use? = some u → Uses m u env
  | assign {v x ref env k} : m.focus = .deliver v (.assign x ref env k) →
      Uses m ⟨.assign, x.text, x.line, ref⟩ env

end LoxScript
