import LoxScript.Machine.State
import LoxScript.Proofs.Grammar.WellFormed
import LoxScript.Session

/-!
Places in a program, and the local scopes around each of them.

A place is a part of a program together with the scopes that enclose it, innermost first, as
resolution finds them when it comes to that part.  A scope is kept with what opens it: a block, a
function, the receiver of the methods of a class, or the superclass that those methods see.  The
places of a program are what can be reached from the whole program by going from a part to the parts
directly in it.
-/

namespace LoxScript

/-- What a local scope is for. -/
inductive Opener where
  | block (body : List RStmt)
  | function (code : Code (Option Nat))
  /-- Binds `this` in the methods of a class. -/
  | receiver (methods : List (Method (Option Nat)))
  /-- Binds `super` in the methods of a class. -/
  | superclass (methods : List (Method (Option Nat)))

/-- A local scope around a place, and the names that it declares there, the latest first. -/
structure Frame where
  opener : Opener
  names : LocalScope

namespace Frame

def receiver (methods : List (Method (Option Nat))) : Frame :=
  ⟨.receiver methods, [("this", true)]⟩

def superclass (methods : List (Method (Option Nat))) : Frame :=
  ⟨.superclass methods, [("super", true)]⟩

end Frame

/-- The local scopes around a place, innermost first. -/
abbrev Frames := List Frame

namespace Frames

/-- What resolution knows of the scopes. -/
def scopes (Γ : Frames) : LocalScopes := Γ.map (·.names)

def declare (x : String) (ready : Bool) : Frames → Frames
  | [] => []
  | f :: outer => { f with names := (x, ready) :: f.names } :: outer

/-- The scopes behind a statement. -/
def after {ρ : Type} (Γ : Frames) (s : Stmt ρ) : Frames :=
  match s.declares? with
  | some x => Γ.declare x.text true
  | none => Γ

/-- The names of parameters as a scope. -/
def parameterNames (params : List Name) : LocalScope := params.reverse.map fun p => (p.text, true)

@[simp] theorem scopes_nil : scopes [] = [] := rfl

@[simp] theorem scopes_cons (f : Frame) (Γ : Frames) : scopes (f :: Γ) = f.names :: Γ.scopes := rfl

@[simp] theorem scopes_declare (x : String) (ready : Bool) (Γ : Frames) :
    (Γ.declare x ready).scopes = Γ.scopes.declare x ready := by
  cases Γ <;> rfl

@[simp] theorem scopes_after {ρ : Type} (Γ : Frames) (s : Stmt ρ) :
    (Γ.after s).scopes = Γ.scopes.after s := by
  unfold after LocalScopes.after
  cases s.declares? with
  | none => rfl
  | some x => exact scopes_declare x.text true Γ

end Frames

/-- A part of a program that has been read. -/
inductive Part where
  | expr (e : Expr Unit)
  | code (body : Body) (c : Code Unit)
  | methods (ms : List (Method Unit))
  | stmt (s : Stmt Unit)
  | stmts (ss : List (Stmt Unit))

namespace Part

def WellFormed : Part → Prop
  | expr e => LoxScript.WellFormed.expr e
  | code _ c => LoxScript.WellFormed.code c
  | methods ms => LoxScript.WellFormed.methods ms
  | stmt s => LoxScript.WellFormed.stmt s
  | stmts ss => LoxScript.WellFormed.stmts ss

/-- Declarations may stand in the part itself. -/
def MayDeclare : Part → Prop
  | stmt _ | stmts _ => True
  | _ => False

end Part

structure Place where
  around : Surroundings
  frames : Frames
  part : Part

namespace Place

/-- What resolution complains about in a place. -/
def notes (p : Place) : List Diagnostic :=
  match p.part with
  | .expr e => (Resolve.expr p.around p.frames.scopes e).notes
  | .code body c => (Resolve.code p.around body p.frames.scopes c).notes
  | .methods ms => (Resolve.methods p.around p.frames.scopes ms).notes
  | .stmt s => (Resolve.stmt p.around p.frames.scopes s).notes
  | .stmts ss => (Resolve.stmts p.around p.frames.scopes ss).notes

/-- The expressions directly in an expression. -/
def operands : Expr Unit → List (Expr Unit)
  | .literal _ | .var _ _ | .this _ _ | .super _ _ _ | .function _ _ => []
  | .grouping inner => [inner]
  | .unary _ _ operand => [operand]
  | .binary left _ _ right => [left, right]
  | .logical left _ _ right => [left, right]
  | .assign _ _ value => [value]
  | .call callee _ arguments => callee :: arguments
  | .get object _ => [object]
  | .set object _ value => [object, value]
  | .update object _ _ _ value => [object, value]

/-- The place of the methods of a class, whose name the scopes declare already. -/
def ofMethods (a : Surroundings) (Γ : Frames) (parent : Option (Name × Unit))
    (ms : List (Method Unit)) : Place :=
  match parent with
  | none =>
    let a := { a with classBody := .base }
    let resolved := (Resolve.methods a ([("this", true)] :: Γ.scopes) ms).value
    ⟨a, .receiver resolved :: Γ, .methods ms⟩
  | some _ =>
    let a := { a with classBody := .derived }
    let resolved := (Resolve.methods a ([("this", true)] :: [("super", true)] :: Γ.scopes) ms).value
    ⟨a, .receiver resolved :: .superclass resolved :: Γ, .methods ms⟩

/-- The parts directly in a part, each with the scopes around it. -/
def children (p : Place) : List Place :=
  let ⟨a, Γ, part⟩ := p
  match part with
  | .expr (.function _ body) => [⟨a, Γ, .code .function body⟩]
  | .expr e => (operands e).map fun e => ⟨a, Γ, .expr e⟩
  | .code body (.mk params ss) =>
    let resolved := (Resolve.code a body Γ.scopes (.mk params ss)).value
    let frame := ⟨.function resolved, Frames.parameterNames params⟩
    [⟨{ a with body }, frame :: Γ, .stmts ss⟩]
  | .methods ms => ms.map fun f =>
    ⟨a, Γ, .code (if f.name.text = "init" then .initializer else .method) f.code⟩
  | .stmt (.expression e) => [⟨a, Γ, .expr e⟩]
  | .stmt (.print e) => [⟨a, Γ, .expr e⟩]
  | .stmt (.var x initial) => initial.toList.map fun e => ⟨a, Γ.declare x.text false, .expr e⟩
  | .stmt (.block body) =>
    [⟨a, ⟨.block (Resolve.stmts a ([] :: Γ.scopes) body).value, []⟩ :: Γ, .stmts body⟩]
  | .stmt (.branch condition yes no) =>
    ⟨a, Γ, .expr condition⟩ :: ⟨a, Γ, .stmt yes⟩ :: no.toList.map fun s => ⟨a, Γ, .stmt s⟩
  | .stmt (.loop condition body) => [⟨a, Γ, .expr condition⟩, ⟨a, Γ, .stmt body⟩]
  | .stmt (.function x body) => [⟨a, Γ.declare x.text true, .code .function body⟩]
  | .stmt (.ret _ value) => value.toList.map fun e => ⟨a, Γ, .expr e⟩
  -- A class does not extend itself, so that its own name, although it is declared already, has no
  -- part in finding its superclass.
  | .stmt (.classDef x parent ms) =>
    ofMethods a (Γ.declare x.text true) parent ms ::
      parent.toList.map fun y => ⟨a, Γ, .expr (.var y.1 y.2)⟩
  | .stmts [] => []
  | .stmts (s :: rest) => [⟨a, Γ, .stmt s⟩, ⟨a, Γ.after s, .stmts rest⟩]

/-- The places of a program. -/
inductive Within (program : List (Stmt Unit)) : Place → Prop
  | outermost : Within program ⟨⟨.outermost, .outside⟩, [], .stmts program⟩
  | child {p q : Place} : Within program p → q ∈ p.children → Within program q

end Place
end LoxScript
