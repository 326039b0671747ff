import LoxScript.Proofs.Binding.Place

/-!
The rules of scoping, stated about the program alone.

A rule is broken at a part of a program, in view of the parts around it; what resolution keeps track
of, the scopes and the kind of code it is in, has no part in the statement.
-/

namespace LoxScript
namespace Rules

/-- A part of a program that may lie in another one. -/
inductive Node where
  | expr (e : Expr Unit)
  | stmt (s : Stmt Unit)
  | method (m : Method Unit)

/-- The names that a list of statements declares in the scope it stands in. -/
def declared (body : List (Stmt Unit)) : List Name := body.filterMap Stmt.declares?

namespace Node

/-- The code of a function, if the part is one. -/
def code? : Node → Option (Code Unit)
  | expr (.function _ c) | stmt (.function _ c) | method (.mk _ c) => some c
  | _ => none

def isFunction (n : Node) : Bool := n.code?.isSome

def isClass : Node → Bool
  | stmt (.classDef _ _ _) => true
  | _ => false

/-- What is declared directly in the part is local. -/
def isScope : Node → Bool
  | stmt (.block _) => true
  | n => n.isFunction

/-- The names that the part declares in a scope of its own. -/
def names : Node → List Name
  | stmt (.block body) => declared body
  | n => match n.code? with
    | some (.mk params body) => params ++ declared body
    | none => []

/-- The parts directly in a part; those of a function are the statements of its body. -/
def parts : Node → List Node
  | expr (.function _ (.mk _ body)) => body.map stmt
  | expr e => (Place.operands e).map expr
  | method (.mk _ (.mk _ body)) => body.map stmt
  | stmt (.expression e) => [expr e]
  | stmt (.print e) => [expr e]
  | stmt (.var _ initial) => initial.toList.map expr
  | stmt (.block body) => body.map stmt
  | stmt (.branch condition yes no) => expr condition :: stmt yes :: no.toList.map stmt
  | stmt (.loop condition body) => [expr condition, stmt body]
  | stmt (.function _ (.mk _ body)) => body.map stmt
  | stmt (.ret _ value) => value.toList.map expr
  | stmt (.classDef _ _ methods) => methods.map method

end Node

/-- `Lies around n around' n'`: in `n`, which the parts `around` enclose, innermost first, lies
`n'`, enclosed by `around'`. -/
inductive Lies : List Node → Node → List Node → Node → Prop
  | here (around : List Node) (n : Node) : Lies around n around n
  | inside {around around' : List Node} {n m n' : Node} :
      m ∈ n.parts → Lies (n :: around) m around' n' → Lies around n around' n'

/-- The expression has the variable in it, outside every function. -/
inductive Reads (x : String) : Expr Unit → Prop
  | var (line : Nat) : Reads x (.var ⟨x, line⟩ ())
  | operand {e e' : Expr Unit} : e' ∈ Place.operands e → Reads x e' → Reads x e

/-- A part breaks a rule, given the parts around it, innermost first. -/
inductive Breaks (around : List Node) : Node → Prop
  | redeclared {n : Node} : ¬ (n.names.map (·.text)).Nodup → Breaks around n
  | ownInitializer {x : Name} {e : Expr Unit} :
      (∃ n ∈ around, n.isScope) → Reads x.text e → Breaks around (.stmt (.var x (some e)))
  | returnOutside (line : Nat) (value : Option (Expr Unit)) :
      (∀ n ∈ around, n.isFunction = false) → Breaks around (.stmt (.ret line value))
  | returnFromInitializer {line line' : Nat} {e : Expr Unit} {c : Code Unit} :
      around.find? Node.isFunction = some (.method (.mk ⟨"init", line'⟩ c)) →
      Breaks around (.stmt (.ret line (some e)))
  | thisOutside (line : Nat) :
      (∀ n ∈ around, n.isClass = false) → Breaks around (.expr (.this line ()))
  | superOutside (line : Nat) (x : Name) :
      (∀ n ∈ around, n.isClass = false) → Breaks around (.expr (.super line () x))
  | noSuperclass (line : Nat) (x : Name) {y : Name} {methods : List (Method Unit)} :
      around.find? Node.isClass = some (.stmt (.classDef y none methods)) →
      Breaks around (.expr (.super line () x))
  | ownSuperclass {x y : Name} {methods : List (Method Unit)} :
      y.text = x.text → Breaks around (.stmt (.classDef x (some (y, ())) methods))

/-- A rule is broken somewhere in the program. -/
def IllFormed (program : List (Stmt Unit)) : Prop :=
  ∃ s ∈ program, ∃ around n, Lies [] (.stmt s) around n ∧ Breaks around n

/-! ### Parts in which no rule is broken -/

/-- No rule is broken in the part. -/
def Sound (around : List Node) (n : Node) : Prop :=
  ∀ around' n', Lies around n around' n' → ¬ Breaks around' n'

theorem sound_iff {around : List Node} {n : Node} :
    Sound around n ↔ ¬ Breaks around n ∧ ∀ m ∈ n.parts, Sound (n :: around) m := by
  constructor
  · intro h
    exact ⟨h around n (.here around n), fun m hm a k hk => h a k (.inside hm hk)⟩
  · intro h a k hk
    cases hk with
    | here => exact h.1
    | inside hm hk => exact h.2 _ hm a k hk

theorem not_illFormed {program : List (Stmt Unit)} :
    ¬ IllFormed program ↔ ∀ s ∈ program, Sound [] (.stmt s) := by
  constructor
  · intro h s hs around n hn hb
    exact h ⟨s, hs, around, n, hn, hb⟩
  · intro h hill
    obtain ⟨s, hs, around, n, hn, hb⟩ := hill
    exact h s hs around n hn hb

end Rules
end LoxScript
