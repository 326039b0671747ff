import LoxScript.Number.Display
import LoxScript.Scope.Environment
import LoxScript.Syntax

/-!
The values that programs compute with.

Functions, classes and instances have an identity, which is a number: two of them are equal only if
they are the same one.  Functions and classes never change; the fields of an instance do, and are
therefore kept elsewhere, under its number.

Like trees, values are indexed by what is known of the uses of names in the code that they hold, and
besides by what stands for the names around that code.  No operation looks at either.
-/

namespace LoxScript

/-- A function and the environment it was made in. -/
structure ClosureOf (ρ ε : Type) where
  /-- Functions written without a name have none. -/
  name : Option String
  code : Code ρ
  environment : ε
  /-- Calls answer the receiver, whatever the body returns. -/
  isInitializer : Bool
deriving Inhabited

namespace ClosureOf
variable {ρ ε : Type}

def arity (f : ClosureOf ρ ε) : Nat := f.code.params.length

end ClosureOf

/-- A class: its own methods, which are not yet bound to a receiver, and the class it extends. -/
inductive ClassOf (ρ ε : Type) where
  | mk (identity : Nat) (name : String) (methods : Bindings (ClosureOf ρ ε))
      (parent : Option (ClassOf ρ ε))
deriving Inhabited

namespace ClassOf
variable {ρ ε : Type}

def identity : ClassOf ρ ε → Nat
  | mk identity _ _ _ => identity

def name : ClassOf ρ ε → String
  | mk _ name _ _ => name

def methods : ClassOf ρ ε → Bindings (ClosureOf ρ ε)
  | mk _ _ methods _ => methods

def parent : ClassOf ρ ε → Option (ClassOf ρ ε)
  | mk _ _ _ parent => parent

/-- The method of that name of the nearest class, from this one on upwards, that has one. -/
def method? (x : String) : ClassOf ρ ε → Option (ClosureOf ρ ε)
  | mk _ _ methods none => methods.find? x
  | mk _ _ methods (some parent) => (methods.find? x).or (parent.method? x)

def initializer? (c : ClassOf ρ ε) : Option (ClosureOf ρ ε) := c.method? "init"

/-- A call of the class takes what its initializer takes. -/
def arity (c : ClassOf ρ ε) : Nat :=
  match c.initializer? with
  | some f => f.arity
  | none => 0

end ClassOf

/-- Functions that come with the language. -/
inductive Native where
  | clock
deriving Repr, DecidableEq, Inhabited

inductive ValueOf (ρ ε : Type) where
  | nil
  | bool (b : Bool)
  | number (x : Float)
  | string (s : String)
  | native (f : Native)
  | function (identity : Nat) (f : ClosureOf ρ ε)
  | class (c : ClassOf ρ ε)
  | instance (identity : Nat) (c : ClassOf ρ ε)
deriving Inhabited

namespace ValueOf
variable {ρ ε : Type}

def ofLiteral : Literal → ValueOf ρ ε
  | .nil => .nil
  | .bool b => .bool b
  | .number x => .number x
  | .string s => .string s

/-- Everything counts as true but `nil` and `false`. -/
def isTruthy : ValueOf ρ ε → Bool
  | .nil => false
  | .bool b => b
  | _ => true

/-- Values of different kinds differ, and a number that is none equals itself. -/
def equals : ValueOf ρ ε → ValueOf ρ ε → Bool
  | .nil, .nil => true
  | .bool a, .bool b => a == b
  | .number x, .number y => x == y || (x.isNaN && y.isNaN)
  | .string s, .string t => s == t
  | .native f, .native g => f == g
  | .function i _, .function j _ => i == j
  | .class c, .class d => c.identity == d.identity
  | .instance i _, .instance j _ => i == j
  | _, _ => false

/-- A value as it is printed. -/
def display : ValueOf ρ ε → String
  | .nil => "nil"
  | .bool true => "true"
  | .bool false => "false"
  | .number x => Number.display x
  | .string s => s
  | .native _ => "<native fn>"
  | .function _ f =>
    match f.name with
    | some name => "<fn " ++ name ++ ">"
    | none => "<fn>"
  | .class c => c.name
  | .instance _ c => c.name ++ " instance"

end ValueOf

/-- What can be called. -/
inductive CallableOf (ρ ε : Type) where
  | native (f : Native)
  | function (f : ClosureOf ρ ε)
  | class (c : ClassOf ρ ε)
deriving Inhabited

def ValueOf.callable? {ρ ε : Type} : ValueOf ρ ε → Option (CallableOf ρ ε)
  | .native f => some (.native f)
  | .function _ f => some (.function f)
  | .class c => some (.class c)
  | _ => none

/-- The number of arguments that a call takes. -/
def CallableOf.arity {ρ ε : Type} : CallableOf ρ ε → Nat
  | .native .clock => 0
  | .function f => f.arity
  | .class c => c.arity

/-- A function whose code is resolved. -/
abbrev Closure := ClosureOf (Option Nat) Environment

abbrev ClassObject := ClassOf (Option Nat) Environment

abbrev Value := ValueOf (Option Nat) Environment

abbrev Callable := CallableOf (Option Nat) Environment

end LoxScript
