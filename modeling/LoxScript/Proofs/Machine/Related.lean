import Mathlib.Data.List.Forall2
import LoxScript.Operation
import LoxScript.Proofs.Scope.Changes

/-!
Values that differ only in the code that they hold.

A relation between functions, and one between methods that are not bound yet, are carried over to
classes and values.  Nothing that an operation looks at tells related values apart.
-/

namespace LoxScript

section
variable {α β : Type}

theorem rel_imp {r r' : α → β → Prop} (h : ∀ a b, r a b → r' a b) {a : Option α} {b : Option β}
    (hr : Option.Rel r a b) : Option.Rel r' a b := by
  cases hr with
  | none => exact .none
  | some hr => exact .some (h _ _ hr)

theorem rel_or {r : α → β → Prop} {a a' : Option α} {b b' : Option β} (h : Option.Rel r a b)
    (h' : Option.Rel r a' b') : Option.Rel r (a.or a') (b.or b') := by
  cases h with
  | none => exact h'
  | some h => exact .some h

theorem rel_find?_put {r : α → β → Prop} {b : Bindings α} {c : Bindings β}
    (h : ∀ x, Option.Rel r (b.find? x) (c.find? x)) {v : α} {w : β} (hv : r v w) (x y : String) :
    Option.Rel r ((b.put x v).find? y) ((c.put x w).find? y) := by
  rw [Bindings.find?_put, Bindings.find?_put]
  by_cases hy : y = x
  · rw [if_pos hy, if_pos hy]
    exact .some hv
  · rw [if_neg hy, if_neg hy]
    exact h y

/-- Tables that are built from related entries. -/
theorem rel_find?_foldl {γ δ : Type} {r : α → β → Prop} {key : γ → String} {value : γ → α}
    {key' : δ → String} {value' : δ → β} {l : List γ} {l' : List δ}
    (hl : List.Forall₂ (fun p q => key p = key' q ∧ r (value p) (value' q)) l l') {b : Bindings α}
    {c : Bindings β} (h : ∀ x, Option.Rel r (b.find? x) (c.find? x)) (x : String) :
    Option.Rel r ((l.foldl (fun b p => b.put (key p) (value p)) b).find? x)
      ((l'.foldl (fun c q => c.put (key' q) (value' q)) c).find? x) := by
  induction hl generalizing b c with
  | nil => exact h x
  | cons hpq _ ih =>
    refine ih fun y => ?_
    dsimp only
    rw [hpq.1]
    exact rel_find?_put h hpq.2 _ y

/-- A binding made in one of many tables. -/
theorem rel_modify_put {r : α → β → Prop} {a : Array (Bindings α)} {b : Array (Bindings β)}
    (hsize : a.size = b.size)
    (h : ∀ i x, Option.Rel r ((a.getD i []).find? x) ((b.getD i []).find? x)) {v : α} {w : β}
    (hv : r v w) (i : Nat) (x : String) (j : Nat) (y : String) :
    Option.Rel r (((a.modify i (·.put x v)).getD j []).find? y)
      (((b.modify i (·.put x w)).getD j []).find? y) := by
  rw [Bindings.getD_modify_put, Bindings.getD_modify_put, hsize]
  by_cases hj : j = i ∧ i < b.size
  · rw [if_pos hj, if_pos hj]
    exact rel_find?_put (h j) hv x y
  · rw [if_neg hj, if_neg hj]
    exact h j y

end

section
variable {ρ ε ρ' ε' : Type} (C M : ClosureOf ρ ε → ClosureOf ρ' ε' → Prop)

/-- The same class, with related methods. -/
def ClassOf.Related (c : ClassOf ρ ε) (d : ClassOf ρ' ε') : Prop :=
  c.identity = d.identity ∧ c.name = d.name ∧ ∀ x, Option.Rel M (c.method? x) (d.method? x)

/-- The same value, with related code. -/
inductive ValueOf.Related : ValueOf ρ ε → ValueOf ρ' ε' → Prop
  | nil : Related .nil .nil
  | bool (b : Bool) : Related (.bool b) (.bool b)
  | number (x : Float) : Related (.number x) (.number x)
  | string (s : String) : Related (.string s) (.string s)
  | native (f : Native) : Related (.native f) (.native f)
  | function (i : Nat) {f : ClosureOf ρ ε} {g : ClosureOf ρ' ε'} :
      C f g → f.name = g.name → Related (.function i f) (.function i g)
  | class {c : ClassOf ρ ε} {d : ClassOf ρ' ε'} : c.Related M d → Related (.class c) (.class d)
  | instance (i : Nat) {c : ClassOf ρ ε} {d : ClassOf ρ' ε'} :
      c.Related M d → Related (.instance i c) (.instance i d)

inductive CallableOf.Related : CallableOf ρ ε → CallableOf ρ' ε' → Prop
  | native (f : Native) : Related (.native f) (.native f)
  | function {f : ClosureOf ρ ε} {g : ClosureOf ρ' ε'} : C f g → Related (.function f) (.function g)
  | class {c : ClassOf ρ ε} {d : ClassOf ρ' ε'} : c.Related M d → Related (.class c) (.class d)

/-- What an operation makes of values. -/
inductive ValueOf.RelatedOutcome :
    Except Fault (ValueOf ρ ε) → Except Fault (ValueOf ρ' ε') → Prop
  | ok {v : ValueOf ρ ε} {w : ValueOf ρ' ε'} : v.Related C M w → RelatedOutcome (.ok v) (.ok w)
  | error (f : Fault) : RelatedOutcome (.error f) (.error f)

end

section
variable {ρ ε ρ' ε' : Type} {C C' M M' : ClosureOf ρ ε → ClosureOf ρ' ε' → Prop}

theorem ClassOf.Related.imp (hM : ∀ f g, M f g → M' f g) {c : ClassOf ρ ε} {d : ClassOf ρ' ε'}
    (h : c.Related M d) : c.Related M' d :=
  ⟨h.1, h.2.1, fun x => rel_imp hM (h.2.2 x)⟩

theorem ClassOf.Related.arity (hM : ∀ f g, M f g → f.arity = g.arity) {c : ClassOf ρ ε}
    {d : ClassOf ρ' ε'} (h : c.Related M d) : c.arity = d.arity := by
  have hinit := h.2.2 "init"
  rw [ClassOf.arity, ClassOf.arity, initializer?, initializer?]
  generalize c.method? "init" = f at hinit
  generalize d.method? "init" = g at hinit
  cases hinit with
  | none => rfl
  | some hf => exact hM _ _ hf

theorem CallableOf.Related.arity (hC : ∀ f g, C f g → f.arity = g.arity)
    (hM : ∀ f g, M f g → f.arity = g.arity) {c : CallableOf ρ ε} {d : CallableOf ρ' ε'}
    (h : c.Related C M d) : c.arity = d.arity := by
  cases h with
  | native f => rfl
  | function hf => exact hC _ _ hf
  | «class» hc => exact hc.arity hM

namespace ValueOf

theorem related_ofLiteral (l : Literal) :
    Related C M (ofLiteral l) (ofLiteral l) := by
  cases l with
  | nil => exact .nil
  | bool b => exact .bool b
  | number x => exact .number x
  | string s => exact .string s

namespace Related
variable {v v' : ValueOf ρ ε} {w w' : ValueOf ρ' ε'}

theorem imp (hC : ∀ f g, C f g → C' f g) (hM : ∀ f g, M f g → M' f g) (h : v.Related C M w) :
    v.Related C' M' w := by
  cases h with
  | nil => exact .nil
  | bool b => exact .bool b
  | number x => exact .number x
  | string s => exact .string s
  | native f => exact .native f
  | function i hf hname => exact .function i (hC _ _ hf) hname
  | «class» hc => exact .class (hc.imp hM)
  | «instance» i hc => exact .instance i (hc.imp hM)

theorem isTruthy (h : v.Related C M w) : v.isTruthy = w.isTruthy := by
  cases h <;> rfl

theorem display (h : v.Related C M w) : v.display = w.display := by
  cases h with
  | function i hf hname => rw [ValueOf.display, ValueOf.display, hname]
  | «class» hc => exact hc.2.1
  | «instance» i hc => rw [ValueOf.display, ValueOf.display, hc.2.1]
  | bool b => cases b <;> rfl
  | _ => rfl

theorem equals (h : v.Related C M w) (h' : v'.Related C M w') : v.equals v' = w.equals w' := by
  cases h with
  | «class» hc =>
    cases h' with
    | «class» hd => rw [ValueOf.equals, ValueOf.equals, hc.1, hd.1]
    | _ => rfl
  | _ => cases h' <;> rfl

theorem callable? (h : v.Related C M w) :
    Option.Rel (CallableOf.Related C M) v.callable? w.callable? := by
  cases h with
  | native f => exact .some (.native f)
  | function i hf => exact .some (.function hf)
  | «class» hc => exact .some (.class hc)
  | _ => exact .none

theorem isDecidedBy (op : LogicalOp) (h : v.Related C M w) :
    op.isDecidedBy v = op.isDecidedBy w := by
  cases op with
  | and => exact congrArg (!·) h.isTruthy
  | or => exact h.isTruthy

theorem unary (op : UnaryOp) (h : v.Related C M w) :
    RelatedOutcome C M (op.apply v) (op.apply w) := by
  cases op with
  | not =>
    rw [UnaryOp.apply, UnaryOp.apply, h.isTruthy]
    exact .ok (.bool _)
  | negate =>
    cases h with
    | number x => exact .ok (.number _)
    | _ => exact .error _

theorem arith (op : ArithOp) (h : v.Related C M w) (h' : v'.Related C M w') :
    RelatedOutcome C M (op.apply v v') (op.apply w w') := by
  have hd := h.display
  have hd' := h'.display
  cases op with
  | add =>
    cases h <;> cases h' <;>
      first
      | exact .error _
      | exact .ok (.number _)
      | (simp only [ArithOp.apply, hd, hd']; exact .ok (.string _))
  | divide =>
    cases h <;> cases h' <;> try exact .error _
    simp only [ArithOp.apply]
    split
    · exact .error _
    · exact .ok (.number _)
  | _ => cases h <;> cases h' <;> first | exact .error _ | exact .ok (.number _)

theorem binary (op : BinaryOp) (h : v.Related C M w) (h' : v'.Related C M w') :
    RelatedOutcome C M (op.apply v v') (op.apply w w') := by
  cases op with
  | equal =>
    rw [BinaryOp.apply, BinaryOp.apply, h.equals h']
    exact .ok (.bool _)
  | notEqual =>
    rw [BinaryOp.apply, BinaryOp.apply, h.equals h']
    exact .ok (.bool _)
  | arith op => exact h.arith op h'
  | order op => cases h <;> cases h' <;> first | exact .error _ | exact .ok (.bool _)

end Related
end ValueOf

end
end LoxScript
