import Mathlib.Data.List.Perm.Basic
import LoxScript.Proofs.Outline.Headings

/-!
The lines of an outline and the nodes of the program.

A node is written as a line and, one step further in, its parts.  Only a conditional with a second
branch is written in two such groups.  So the lines are those of the nodes, each at its depth, and
one more for each second branch.
-/

namespace LoxScript
namespace Static.Node
open Outline
variable {ρ : Type}

/-- The parts of a node that have lines of their own: all but the reference to a superclass. -/
def shown : Node ρ → List (Node ρ)
  | stmt (.classDef _ _ methods) => methods.map method
  | n => n.parts

/-- The groups in which a node is written: a line, and the parts below it. -/
def groups : Node ρ → List (Heading × List (Node ρ))
  | stmt (.branch condition yes (some no)) =>
    [(⟨.branch, ()⟩, [expr condition, stmt yes]), (⟨.otherwise, ()⟩, [stmt no])]
  | n => [(Heading.ofNode n, n.shown)]

/-- The node has a second branch. -/
def hasElse : Node ρ → Bool
  | stmt (.branch _ _ (some _)) => true
  | _ => false

/-- A node is written in one group, or it has a second branch. -/
theorem groups_cases (n : Node ρ) :
    (n.hasElse = false ∧ n.groups = [(Heading.ofNode n, n.shown)]) ∨
      ∃ condition yes no, n = stmt (.branch condition yes (some no)) := by
  rcases n with _ | _ | s | _
  case stmt =>
    rcases s with _ | _ | _ | _ | ⟨e, yes, _ | no⟩ | _ | _ | _ | _
    case branch.some => exact .inr ⟨e, yes, no, rfl⟩
    all_goals exact .inl ⟨rfl, rfl⟩
  all_goals exact .inl ⟨rfl, rfl⟩

def lines (depth : Nat) : Node ρ → List OutlineLine
  | program body => ⟨depth, "Program"⟩ :: ofStmts (depth + 1) body
  | expr e => ofExpr depth e
  | stmt s => ofStmt depth s
  | method (.mk x c) => ofCode depth ("Function " ++ x.text) c

theorem ofStmts_eq (depth : Nat) (ss : List (Stmt ρ)) :
    ofStmts depth ss = (ss.map stmt).flatMap (lines depth) := by
  induction ss with
  | nil => rw [ofStmts]; rfl
  | cons s rest ih => rw [ofStmts, ih]; rfl

theorem ofExprs_eq (depth : Nat) (es : List (Expr ρ)) :
    ofExprs depth es = (es.map expr).flatMap (lines depth) := by
  induction es with
  | nil => rw [ofExprs]; rfl
  | cons e rest ih => rw [ofExprs, ih]; rfl

theorem ofOptionalExpr_eq (depth : Nat) (e : Option (Expr ρ)) :
    ofOptionalExpr depth e = (e.toList.map expr).flatMap (lines depth) := by
  cases e with
  | none => rw [ofOptionalExpr]; rfl
  | some e => simp [ofOptionalExpr, lines]

theorem ofMethods_eq (depth : Nat) (ms : List (Method ρ)) :
    ofMethods depth ms = (ms.map method).flatMap (lines depth) := by
  induction ms with
  | nil => rw [ofMethods]; rfl
  | cons m rest ih =>
    obtain ⟨x, c⟩ := m
    rw [ofMethods, ih]
    rfl

def ofGroup (depth : Nat) (g : Heading × List (Node ρ)) : List OutlineLine :=
  ⟨depth, g.1.text⟩ :: g.2.flatMap (lines (depth + 1))

/-- A node is written group by group. -/
theorem lines_eq (depth : Nat) (n : Node ρ) :
    n.lines depth = n.groups.flatMap (ofGroup depth) := by
  show n.lines depth = n.groups.flatMap fun g =>
    ⟨depth, g.1.text⟩ :: g.2.flatMap (lines (depth + 1))
  cases n with
  | program body =>
    simp [lines, groups, Heading.ofNode, Heading.text, shown, parts, body?, ofStmts_eq, Kind.word,
      Kind.shape, Shape.text]
  | method m =>
    obtain ⟨x, ps, body⟩ := m
    simp [lines, groups, Heading.ofNode, Heading.text, shown, parts, body?, ofStmts_eq, Kind.word,
      Kind.shape, Shape.text, ofCode, Code.params, Code.body, nameList, ← String.append_assoc]
  | expr e =>
    cases e with
    | function line code =>
      obtain ⟨ps, body⟩ := code
      simp [lines, groups, Heading.ofNode, Heading.ofExpr, Heading.text, shown, parts, body?,
        ofExpr, ofStmts_eq, Kind.word, Kind.shape, Shape.text, ofCode, Code.params, Code.body,
        nameList, ← String.append_assoc]
    | _ =>
      simp [lines, groups, Heading.ofNode, Heading.ofExpr, Heading.text, shown, parts, body?,
        ofOperands, ofExpr, ofExprs_eq, Kind.word, Kind.shape, Shape.text, ← String.append_assoc]
  | stmt s =>
    cases s with
    | function x code =>
      obtain ⟨ps, body⟩ := code
      simp [lines, groups, Heading.ofNode, Heading.ofStmt, Heading.text, shown, parts, body?,
        ofStmt, ofStmts_eq, Kind.word, Kind.shape, Shape.text, ofCode, Code.params, Code.body,
        nameList, ← String.append_assoc]
    | branch condition yes no =>
      cases no <;>
        simp [lines, groups, Heading.ofNode, Heading.ofStmt, Heading.text, shown, parts, body?,
          ofParts, ofStmt, ofElse, Kind.word, Kind.shape, Shape.text]
    | classDef x parent methods =>
      rcases parent with _ | ⟨y, ref⟩ <;>
        simp [lines, groups, Heading.ofNode, Heading.ofStmt, Heading.text, shown, ofStmt,
          ofMethods_eq, Kind.word, Kind.shape, Shape.text, ← String.append_assoc]
    | _ =>
      simp [lines, groups, Heading.ofNode, Heading.ofStmt, Heading.text, shown, parts, body?,
        ofParts, ofStmt, ofOptionalExpr_eq, ofStmts_eq, Kind.word, Kind.shape, Shape.text,
        ← String.append_assoc]

theorem sizeOf_lt_of_mem_shown [SizeOf ρ] {n m : Node ρ} (h : m ∈ n.shown) :
    sizeOf m < sizeOf n := by
  have hmem {α : Type} [SizeOf α] (f : α → Node ρ) (hf : ∀ x, sizeOf (f x) = 1 + sizeOf x)
      (xs : List α) (h : m ∈ xs.map f) : sizeOf m ≤ sizeOf xs := by
    obtain ⟨x, hx, rfl⟩ := List.mem_map.1 h
    have := List.sizeOf_lt_of_mem hx
    rw [hf x]
    omega
  have hstmts {body : List (Stmt ρ)} := hmem stmt (fun _ => rfl) body
  have hexprs {es : List (Expr ρ)} := hmem expr (fun _ => rfl) es
  have hmethods {ms : List (Method ρ)} := hmem method (fun _ => rfl) ms
  rcases n with body | e | s | ⟨x, ps, body⟩
  · have := hstmts h
    simp only [program.sizeOf_spec]
    omega
  · rcases e with _ | _ | _ | _ | _ | _ | _ | _ | _ | _ | _ | _ | _ | ⟨_, _, _⟩ <;>
      simp only [shown, parts, body?, ofOperands, List.mem_cons, List.not_mem_nil, or_false,
        Code.body] at h <;>
      grind [expr.sizeOf_spec, Expr.grouping.sizeOf_spec, Expr.unary.sizeOf_spec,
        Expr.binary.sizeOf_spec, Expr.logical.sizeOf_spec, Expr.assign.sizeOf_spec,
        Expr.call.sizeOf_spec, Expr.get.sizeOf_spec, Expr.set.sizeOf_spec,
        Expr.update.sizeOf_spec, Expr.function.sizeOf_spec, Code.mk.sizeOf_spec]
  · rcases s with _ | _ | ⟨_, _ | _⟩ | _ | ⟨_, _, _ | _⟩ | _ | ⟨_, _, _⟩ | ⟨_, _ | _⟩ | _ <;>
      simp only [shown, parts, body?, ofParts, List.mem_cons, List.not_mem_nil, or_false,
        Code.body, Option.toList, List.map_cons, List.map_nil] at h <;>
      grind [expr.sizeOf_spec, stmt.sizeOf_spec, Code.mk.sizeOf_spec,
        Stmt.expression.sizeOf_spec, Stmt.print.sizeOf_spec, Stmt.var.sizeOf_spec,
        Stmt.block.sizeOf_spec, Stmt.branch.sizeOf_spec, Stmt.loop.sizeOf_spec,
        Stmt.function.sizeOf_spec, Stmt.ret.sizeOf_spec, Stmt.classDef.sizeOf_spec,
        Option.some.sizeOf_spec]
  · have := hstmts h
    simp only [method.sizeOf_spec, Method.mk.sizeOf_spec, Code.mk.sizeOf_spec, Code.body] at this ⊢
    omega

/-- The nodes that have lines of their own, in their order, each with its depth. -/
def listed (depth : Nat) (n : Node ρ) : List (Nat × Node ρ) :=
  (depth, n) :: n.shown.attach.flatMap fun ⟨m, _⟩ => m.listed (depth + 1)
termination_by sizeOf n
decreasing_by exact sizeOf_lt_of_mem_shown ‹_›

theorem listed_eq (depth : Nat) (n : Node ρ) :
    n.listed depth = (depth, n) :: n.shown.flatMap (listed (depth + 1)) := by
  rw [listed, List.flatMap_subtype (g := listed (depth + 1)) (by simp), List.unattach_attach]

theorem flatMap_groups (n : Node ρ) : n.groups.flatMap Prod.snd = n.shown := by
  obtain ⟨-, hn⟩ | ⟨e, yes, no, rfl⟩ := n.groups_cases
  · rw [hn, List.flatMap_singleton]
  · rfl

theorem mem_shown_of_mem_groups {n m : Node ρ} {g : Heading × List (Node ρ)} (hg : g ∈ n.groups)
    (hm : m ∈ g.2) : m ∈ n.shown := by
  rw [← flatMap_groups]
  exact List.mem_flatMap.2 ⟨g, hg, hm⟩

theorem le_depth {depth : Nat} {n : Node ρ} : ∀ l ∈ n.lines depth, depth ≤ l.depth := by
  induction depth, n using listed.induct with
  | case1 depth n ih =>
    intro l hl
    rw [lines_eq] at hl
    obtain ⟨g, hg, hl⟩ := List.mem_flatMap.1 hl
    rcases List.mem_cons.1 hl with rfl | hl
    · exact Nat.le_refl _
    · obtain ⟨m, hm, hl⟩ := List.mem_flatMap.1 hl
      exact Nat.le_of_succ_le (ih m (mem_shown_of_mem_groups hg hm) l hl)

/-- The lines that a node has itself: its own, and one more for a second branch. -/
def ownLines (depth : Nat) (n : Node ρ) : List OutlineLine :=
  ⟨depth, (Heading.ofNode n).text⟩ :: if n.hasElse then [⟨depth, "Else"⟩] else []

theorem map_groups (depth : Nat) (n : Node ρ) :
    n.groups.map (fun g => ⟨depth, g.1.text⟩) = n.ownLines depth := by
  obtain ⟨helse, hn⟩ | ⟨e, yes, no, rfl⟩ := n.groups_cases
  · rw [hn, ownLines, helse]
    rfl
  · rfl

/-- The lines below a node are those of its nodes. -/
theorem lines_perm (depth : Nat) (n : Node ρ) :
    (n.lines depth).Perm ((n.listed depth).flatMap fun m => m.2.ownLines m.1) := by
  induction depth, n using listed.induct with
  | case1 depth n ih =>
    have hparts : (n.groups.flatMap fun g => g.2.flatMap (lines (depth + 1))).Perm
        ((n.shown.flatMap (listed (depth + 1))).flatMap fun m => m.2.ownLines m.1) := by
      rw [← List.flatMap_assoc, flatMap_groups, List.flatMap_assoc]
      exact List.Perm.flatMap_left _ fun m hm => ih m hm
    rw [lines_eq, listed_eq, List.flatMap_cons, ← map_groups]
    exact (List.map_append_flatMap_perm n.groups _ _).symm.trans (hparts.append_left _)

end Static.Node
end LoxScript
