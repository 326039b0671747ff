import LoxScript.Proofs.Joined.Renumber
import LoxScript.Proofs.Outline.Nodes

/-!
An outline, read back.

The depths of the lines say which of them belong to which group, and the headings say how the groups
are put together.  What comes out is the program but for the lines of its tokens.
-/

namespace LoxScript
namespace Static.Node
open Outline

/-- A node without lines of tokens, and a method as the function that it is. -/
def blank : Node Unit → Node Unit
  | program body => program (Renumber.stmts (fun _ => 0) body)
  | expr e => expr (Renumber.expr (fun _ => 0) e)
  | stmt s => stmt (Renumber.stmt (fun _ => 0) s)
  | method (.mk x c) => stmt (.function (x.renumber fun _ => 0) (Renumber.code (fun _ => 0) c))

def expr? : Node Unit → Option (Expr Unit)
  | expr e => some e
  | _ => none

def stmt? : Node Unit → Option (Stmt Unit)
  | stmt s => some s
  | _ => none

/-- The function as a method. -/
def method? : Node Unit → Option (Method Unit)
  | stmt (.function x c) => some (.mk x c)
  | _ => none

def named (x : String) : Name := ⟨x, 0⟩

/-- The node with the given line and parts. -/
def assembled : Heading → List (Node Unit) → Node Unit
  | ⟨.program, _⟩, ns => program (ns.filterMap stmt?)
  | ⟨.exprStmt, _⟩, [expr e] => stmt (.expression e)
  | ⟨.print, _⟩, [expr e] => stmt (.print e)
  | ⟨.var, x⟩, ns => stmt (.var (named x) (ns.filterMap expr?).head?)
  | ⟨.block, _⟩, ns => stmt (.block (ns.filterMap stmt?))
  | ⟨.branch, _⟩, [expr e, stmt s] => stmt (.branch e s none)
  | ⟨.loop, _⟩, [expr e, stmt s] => stmt (.loop e s)
  | ⟨.function, (x, xs)⟩, ns => stmt (.function (named x) (.mk (xs.map named) (ns.filterMap stmt?)))
  | ⟨.ret, _⟩, ns => stmt (.ret 0 (ns.filterMap expr?).head?)
  | ⟨.classDef, (x, parent)⟩, ns =>
    stmt (.classDef (named x) (parent.map fun y => (named y, ())) (ns.filterMap method?))
  | ⟨.literal, value⟩, _ => expr (.literal value)
  | ⟨.grouping, _⟩, [expr e] => expr (.grouping e)
  | ⟨.unary, op⟩, [expr e] => expr (.unary op 0 e)
  | ⟨.binary, op⟩, [expr e, expr e'] => expr (.binary e op 0 e')
  | ⟨.logical, op⟩, [expr e, expr e'] => expr (.logical e op 0 e')
  | ⟨.reference, x⟩, _ => expr (.var (named x) ())
  | ⟨.assign, x⟩, [expr e] => expr (.assign (named x) () e)
  | ⟨.call, _⟩, expr e :: ns => expr (.call e 0 (ns.filterMap expr?))
  | ⟨.get, x⟩, [expr e] => expr (.get e (named x))
  | ⟨.set, (x, none)⟩, [expr e, expr e'] => expr (.set e (named x) e')
  | ⟨.set, (x, some op)⟩, [expr e, expr e'] => expr (.update e (named x) op 0 e')
  | ⟨.this, _⟩, _ => expr (.this 0 ())
  | ⟨.super, x⟩, _ => expr (.super 0 () (named x))
  | ⟨.functionExpr, xs⟩, ns => expr (.function 0 (.mk (xs.map named) (ns.filterMap stmt?)))
  | _, _ => program []

theorem filterMap_stmt?_blank (ss : List (Stmt Unit)) :
    ((ss.map stmt).map blank).filterMap stmt? = Renumber.stmts (fun _ => 0) ss := by
  induction ss with
  | nil => rfl
  | cons s rest ih => simpa [blank, stmt?, Renumber.stmts] using ih

theorem filterMap_expr?_blank (es : List (Expr Unit)) :
    ((es.map expr).map blank).filterMap expr? = Renumber.exprs (fun _ => 0) es := by
  induction es with
  | nil => rfl
  | cons e rest ih => simpa [blank, expr?, Renumber.exprs] using ih

theorem filterMap_method?_blank (ms : List (Method Unit)) :
    ((ms.map method).map blank).filterMap method? = Renumber.methods (fun _ => 0) ms := by
  induction ms with
  | nil => rfl
  | cons m rest ih =>
    obtain ⟨x, c⟩ := m
    simpa [blank, method?, Renumber.methods] using ih

theorem head?_expr?_blank (e : Option (Expr Unit)) :
    (((e.toList.map expr).map blank).filterMap expr?).head? =
      Renumber.optionalExpr (fun _ => 0) e := by
  cases e <;> rfl

theorem code_blank (params : List Name) (body : List (Stmt Unit)) :
    Code.mk ((params.map Name.text).map named) (((body.map stmt).map blank).filterMap stmt?) =
      Renumber.code (fun _ => 0) (.mk params body) := by
  rw [filterMap_stmt?_blank, List.map_map]
  rfl

/-- Without a second branch, a node is put together from its line and its parts. -/
theorem assembled_ofNode {n : Node Unit} (h : n.hasElse = false) :
    assembled (Heading.ofNode n) (n.shown.map blank) = n.blank := by
  cases n with
  | program body => exact congrArg program (filterMap_stmt?_blank body)
  | method m =>
    obtain ⟨x, params, body⟩ := m
    exact congrArg (fun c => stmt (.function _ c)) (code_blank params body)
  | expr e =>
    cases e with
    | function line code =>
      obtain ⟨params, body⟩ := code
      exact congrArg (fun c => expr (.function 0 c)) (code_blank params body)
    | call callee line arguments =>
      exact congrArg (fun es => expr (.call _ 0 es)) (filterMap_expr?_blank arguments)
    | _ => rfl
  | stmt s =>
    cases s with
    | function x code =>
      obtain ⟨params, body⟩ := code
      exact congrArg (fun c => stmt (.function _ c)) (code_blank params body)
    | block body => exact congrArg (fun ss => stmt (.block ss)) (filterMap_stmt?_blank body)
    | branch condition yes no =>
      cases no with
      | none => rfl
      | some no => cases h
    | classDef x parent methods =>
      cases parent <;>
        exact congrArg (fun ms => stmt (.classDef _ _ ms)) (filterMap_method?_blank methods)
    | var x e => exact congrArg (fun e => stmt (.var _ e)) (head?_expr?_blank e)
    | ret line e => exact congrArg (fun e => stmt (.ret 0 e)) (head?_expr?_blank e)
    | _ => rfl

/-- Conditionals with a second branch, which begin with the same line as those without. -/
def withElse : Node Unit → Stmt Unit → Node Unit
  | stmt (.branch e s _), no => stmt (.branch e s (some no))
  | n, _ => n

/-- The nodes that are written in the given groups. -/
def assemble : List (Heading × List (Node Unit)) → List (Node Unit)
  | [] => []
  | g :: (⟨.otherwise, _⟩, [stmt no]) :: rest =>
    withElse (assembled g.1 g.2) no :: assemble rest
  | g :: rest => assembled g.1 g.2 :: assemble rest

/-- A group with its parts put together. -/
def blanked (g : Heading × List (Node Unit)) : Heading × List (Node Unit) := (g.1, g.2.map blank)

theorem kind_ofNode (n : Node Unit) : (Heading.ofNode n).kind ≠ .otherwise := by
  rcases n with _ | e | s | m
  · nofun
  · cases e <;> nofun
  · cases s <;> nofun
  · cases m; nofun

/-- A group stands alone if no `Else` comes behind it. -/
theorem assemble_cons {g : Heading × List (Node Unit)} {rest : List (Heading × List (Node Unit))}
    (h : ∀ g' ∈ rest.head?, g'.1.kind ≠ .otherwise) :
    assemble (g :: rest) = assembled g.1 g.2 :: assemble rest := by
  rw [assemble]
  rintro _ _ _ rfl
  exact h _ rfl rfl

/-- Nodes are put together from their groups. -/
theorem assemble_groups (ns : List (Node Unit)) :
    assemble ((ns.flatMap groups).map blanked) = ns.map blank := by
  induction ns with
  | nil => rfl
  | cons n rest ih =>
    have hhead : ∀ g ∈ ((rest.flatMap groups).map blanked).head?, g.1.kind ≠ .otherwise := by
      cases rest with
      | nil => nofun
      | cons n' rest =>
        obtain ⟨-, hn'⟩ | ⟨e, yes, no, rfl⟩ := n'.groups_cases
        · rw [List.flatMap_cons, hn']
          rintro _ ⟨⟩
          exact kind_ofNode n'
        · rintro _ ⟨⟩
          nofun
    rw [List.flatMap_cons, List.map_append, List.map_cons, ← ih]
    obtain ⟨helse, hn⟩ | ⟨e, yes, no, rfl⟩ := n.groups_cases
    · rw [hn, ← assembled_ofNode helse]
      exact assemble_cons hhead
    · rfl

/-- Groups can be told apart by the depths of their lines. -/
theorem map_blanked_eq (depth : Nat) {gs gs' : List (Heading × List (Node Unit))}
    (hhead : ∀ g ∈ gs, ∀ g' ∈ gs', g.1.text = g'.1.text → g.1 = g'.1)
    (hparts : ∀ g ∈ gs, ∀ g' ∈ gs', g.2.flatMap (lines (depth + 1)) =
      g'.2.flatMap (lines (depth + 1)) → g.2.map blank = g'.2.map blank)
    (h : gs.flatMap (ofGroup depth) = gs'.flatMap (ofGroup depth)) :
    gs.map blanked = gs'.map blanked := by
  have hbelow (ns : List (Node Unit)) :
      ∀ l ∈ ns.flatMap (lines (depth + 1)), decide (depth < l.depth) = true := by
    intro l hl
    obtain ⟨n, -, hl⟩ := List.mem_flatMap.1 hl
    exact decide_eq_true (le_depth l hl)
  have hnext (gs : List (Heading × List (Node Unit))) :
      ∀ l, (gs.flatMap (ofGroup depth)).head? = some l → decide (depth < l.depth) = false := by
    cases gs with
    | nil => nofun
    | cons g rest =>
      rintro _ ⟨⟩
      exact decide_eq_false (Nat.lt_irrefl depth)
  induction gs generalizing gs' with
  | nil =>
    cases gs' with
    | nil => rfl
    | cons g' rest' => cases h
  | cons g rest ih =>
    cases gs' with
    | nil => cases h
    | cons g' rest' =>
      obtain ⟨hline, hmore⟩ := List.cons.inj h
      obtain ⟨hown, hrest⟩ :=
        Segment.append_inj_of_span (hbelow g.2) (hnext rest) (hbelow g'.2) (hnext rest') hmore
      have hg : blanked g = blanked g' := Prod.ext
        (hhead g List.mem_cons_self g' List.mem_cons_self (OutlineLine.mk.inj hline).2)
        (hparts g List.mem_cons_self g' List.mem_cons_self hown)
      rw [List.map_cons, List.map_cons, hg, ih (fun g hg g' hg' => hhead g (.tail _ hg) g'
        (.tail _ hg')) (fun g hg g' hg' => hparts g (.tail _ hg) g' (.tail _ hg')) hrest]

end Static.Node

namespace Outline
open Static

/-- The names of a line are words, and its numbers are among the given ones. -/
structure Heading.Over (X : Float → Prop) (h : Heading) : Prop where
  plain : h.IsPlain
  numbers : ∀ x ∈ h.numbers, X x

/-- The lines of a node and of the nodes below it have the property. -/
inductive Throughout (P : Heading → Prop) : Node Unit → Prop
  | intro {n : Node Unit} (line : P (.ofNode n)) (parts : ∀ m ∈ n.shown, Throughout P m) :
      Throughout P n

namespace Throughout
variable {P : Heading → Prop} {n m : Node Unit}

theorem line (h : Throughout P n) : P (.ofNode n) := by
  cases h with
  | intro line _ => exact line

theorem parts (h : Throughout P n) : ∀ m ∈ n.shown, Throughout P m := by
  cases h with
  | intro _ parts => exact parts

end Throughout

/-- The lines of a node and of the nodes below it can be read back. -/
abbrev Legible (X : Float → Prop) (n : Node Unit) : Prop := Throughout (Heading.Over X) n

/-- The line of a second branch says nothing. -/
theorem Legible.over_group {X : Float → Prop} {n : Node Unit} (h : Legible X n)
    {g : Heading × List (Node Unit)} (hg : g ∈ n.groups) : g.1.Over X := by
  obtain ⟨-, hn⟩ | ⟨e, yes, no, rfl⟩ := n.groups_cases
  · rw [hn, List.mem_singleton] at hg
    rw [hg]
    exact h.line
  · rcases List.mem_cons.1 hg with rfl | hg
    · exact h.line
    · rw [List.mem_singleton.1 hg]
      exact ⟨nofun, nofun⟩

/-- Two numbers that are written in the same way are the same. -/
def ToldApart (X Y : Float → Prop) : Prop :=
  ∀ x y, X x → Y y → Number.display x = Number.display y → x = y

/-- Nodes with the same lines are the same, but for the lines of their tokens. -/
theorem blank_eq_of_lines {X Y : Float → Prop} (hXY : ToldApart X Y) (depth : Nat)
    {ns ns' : List (Node Unit)} (hns : ∀ n ∈ ns, Legible X n) (hns' : ∀ n ∈ ns', Legible Y n)
    (h : ns.flatMap (Node.lines depth) = ns'.flatMap (Node.lines depth)) :
    ns.map Node.blank = ns'.map Node.blank := by
  obtain ⟨size, hsize⟩ : ∃ size, ∀ n ∈ ns, sizeOf n < size :=
    ⟨sizeOf ns, fun n hn => List.sizeOf_lt_of_mem hn⟩
  induction size using Nat.strongRecOn generalizing depth ns ns' with
  | ind size ih =>
    rw [← Node.assemble_groups, ← Node.assemble_groups]
    refine congrArg Node.assemble (Node.map_blanked_eq depth ?_ ?_ ?_)
    · intro g hg g' hg' htext
      obtain ⟨n, hn, hg⟩ := List.mem_flatMap.1 hg
      obtain ⟨n', hn', hg'⟩ := List.mem_flatMap.1 hg'
      have hover := Legible.over_group (hns n hn) hg
      have hover' := Legible.over_group (hns' n' hn') hg'
      exact Heading.text_injective hover.plain hover'.plain
        (fun x hx y hy => hXY x y (hover.numbers x hx) (hover'.numbers y hy)) htext
    · intro g hg g' hg' hlines
      obtain ⟨n, hn, hg⟩ := List.mem_flatMap.1 hg
      obtain ⟨n', hn', hg'⟩ := List.mem_flatMap.1 hg'
      have hshown : ∀ m ∈ g.2, m ∈ n.shown := fun m => Node.mem_shown_of_mem_groups hg
      have hshown' : ∀ m ∈ g'.2, m ∈ n'.shown := fun m => Node.mem_shown_of_mem_groups hg'
      exact ih (sizeOf n) (hsize n hn) (depth + 1) (fun m hm => (hns n hn).parts m (hshown m hm))
        (fun m hm => (hns' n' hn').parts m (hshown' m hm)) hlines
        fun m hm => Node.sizeOf_lt_of_mem_shown (hshown m hm)
    · simpa only [List.flatMap_assoc, ← Node.lines_eq] using h

end Outline
end LoxScript
