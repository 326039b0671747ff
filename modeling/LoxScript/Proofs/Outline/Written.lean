import LoxScript.Proofs.Outline.Assembly
import LoxScript.Proofs.Surface.Reading
import LoxScript.Proofs.Token.Respaced

/-!
Where the names and the numbers of a program come from.

Reading puts nothing into a program that is not among the tokens: every name is an identifier there,
and every number is the value of a numeral.
-/

namespace LoxScript
namespace Outline
open Static

/-- A token that is a word, if it is a name, and one of the given numbers, if it is a number. -/
def Supplies (X : Float → Prop) (t : Token) : Prop :=
  match t.kind with
  | .identifier x => IsName x
  | .number _ x => X x
  | _ => True

/-- All tokens supply their part. -/
abbrev Supplied (X : Float → Prop) (ts : List Token) : Prop := ∀ t ∈ ts, Supplies X t

section
variable {X : Float → Prop} {rest : List Token}

theorem supplied_cons {t : Token} : Supplied X (t :: rest) → Supplies X t ∧ Supplied X rest :=
  List.forall_mem_cons.1

theorem Supplied.tail {t : Token} (h : Supplied X (t :: rest)) : Supplied X rest :=
  (supplied_cons h).2

theorem Supplied.name {x : Name} (h : Supplied X (x.token :: rest)) : IsName x.text :=
  (supplied_cons h).1

end
end Outline

namespace Surface
open Outline Static Elaboration

variable {X : Float → Prop} {L : Layout} {rest : List Token}

theorem legible_one {n : Node Unit} (h : Legible X n) : ∀ m ∈ [n], Legible X m :=
  List.forall_mem_singleton.2 h

theorem legible_two {n m : Node Unit} (hn : Legible X n) (hm : Legible X m) :
    ∀ k ∈ [n, m], Legible X k :=
  List.forall_mem_cons.2 ⟨hn, legible_one hm⟩

/-- A line with the names of the given places, and no number. -/
theorem over_names {h : Heading} {xs : List Name} (hxs : ∀ x ∈ xs, IsName x.text)
    (hnames : h.names = xs.map Name.text) (hnumbers : h.numbers = []) : h.Over X := by
  refine ⟨?_, ?_⟩
  · intro y hy
    rw [hnames] at hy
    obtain ⟨x, hx, rfl⟩ := List.mem_map.1 hy
    exact hxs x hx
  · rw [hnumbers]
    nofun

theorem over_name {h : Heading} {x : Name} (hx : IsName x.text) (hnames : h.names = [x.text])
    (hnumbers : h.numbers = []) : h.Over X :=
  over_names (List.forall_mem_singleton.2 hx) hnames hnumbers

theorem over_class {x : Name} {parent : Option (Name × Unit)} (hx : IsName x.text)
    (hparent : ∀ y ∈ parent, IsName y.1.text) :
    Heading.Over X ⟨.classDef, (x.text, parent.map (·.1.text))⟩ := by
  cases parent with
  | none => exact over_name hx rfl rfl
  | some y =>
    have hxs : ∀ z ∈ [x, y.1], IsName z.text :=
      List.forall_mem_cons.2 ⟨hx, List.forall_mem_singleton.2 (hparent y rfl)⟩
    exact over_names hxs rfl rfl

theorem legible_literal {l : Literal} (h : Supplied X (L.literal l rest)) :
    Legible X (.expr (.literal l)) ∧ Supplied X rest := by
  cases l with
  | nil => exact ⟨.intro ⟨nofun, nofun⟩ nofun, h.tail⟩
  | bool b => cases b <;> exact ⟨.intro ⟨nofun, nofun⟩ nofun, h.tail⟩
  | number x =>
    exact ⟨.intro ⟨nofun, List.forall_mem_singleton.2 (supplied_cons h).1⟩ nofun, h.tail⟩
  | string s => exact ⟨.intro ⟨nofun, nofun⟩ nofun, h.tail⟩

theorem names_moreParameters : {xs : List Name} → Supplied X (L.moreParameters xs rest) →
    (∀ x ∈ xs, IsName x.text) ∧ Supplied X rest
  | [], h => ⟨nofun, h⟩
  | _ :: _, h => by
    obtain ⟨hxs, hr⟩ := names_moreParameters h.tail.tail
    exact ⟨List.forall_mem_cons.2 ⟨h.tail.name, hxs⟩, hr⟩

theorem names_parameters {xs : List Name} (h : Supplied X (L.parameters xs rest)) :
    (∀ x ∈ xs, IsName x.text) ∧ Supplied X rest := by
  cases xs with
  | nil => exact ⟨nofun, h⟩
  | cons x xs =>
    obtain ⟨hxs, hr⟩ := names_moreParameters h.tail
    exact ⟨List.forall_mem_cons.2 ⟨h.name, hxs⟩, hr⟩

theorem name_superclass {parent : Option (Name × Unit)}
    (h : Supplied X (L.superclass parent rest)) :
    (∀ y ∈ parent, IsName y.1.text) ∧ Supplied X rest := by
  cases parent with
  | none => exact ⟨nofun, h⟩
  | some y => exact ⟨by rintro _ ⟨⟩; exact h.tail.name, h.tail.tail⟩

theorem legible_node (op : Infix) {left right : LoxScript.Expr Unit} (line : Nat)
    (hl : Legible X (.expr left)) (hr : Legible X (.expr right)) :
    Legible X (.expr (op.node left line right)) := by
  cases op <;> exact .intro ⟨nofun, nofun⟩ (legible_two hl hr)

theorem legible_forLoop {initial : Option (LoxScript.Stmt Unit)}
    {condition step : Option (LoxScript.Expr Unit)} {body : LoxScript.Stmt Unit}
    (hi : ∀ n ∈ initial.toList.map Node.stmt, Legible X n)
    (hc : ∀ n ∈ condition.toList.map Node.expr, Legible X n)
    (hs : ∀ n ∈ step.toList.map Node.expr, Legible X n) (hb : Legible X (.stmt body)) :
    Legible X (.stmt (.forLoop initial condition step body)) := by
  have hcondition : Legible X (.expr (condition.getD (.literal (.bool true)))) := by
    cases condition with
    | none => exact .intro ⟨nofun, nofun⟩ nofun
    | some e => exact hc _ List.mem_cons_self
  have hloop : Legible X (.stmt (.forLoop none condition step body)) := by
    cases step with
    | none => exact .intro ⟨nofun, nofun⟩ (legible_two hcondition hb)
    | some e =>
      have hstep : Legible X (.stmt (.expression e)) := .intro ⟨nofun, nofun⟩ hs
      have hblock : Legible X (.stmt (.block [body, .expression e])) :=
        .intro ⟨nofun, nofun⟩ (legible_two hb hstep)
      exact .intro ⟨nofun, nofun⟩ (legible_two hcondition hblock)
  cases initial with
  | none => exact hloop
  | some s => exact .intro ⟨nofun, nofun⟩ (legible_two (hi _ List.mem_cons_self) hloop)

mutual

theorem legible_expr : (e : Expr) → (rest : List Token) → Supplied X (Printed.expr L e rest) →
    Legible X (.expr (core.expr e)) ∧ Supplied X rest
  | .literal _, _, h => legible_literal h
  | .grouping inner, _, h => by
    obtain ⟨hi, hr⟩ := legible_expr inner _ h.tail
    exact ⟨.intro ⟨nofun, nofun⟩ (legible_one hi), hr.tail⟩
  | .unary _ _ operand, _, h => by
    obtain ⟨ho, hr⟩ := legible_expr operand _ h.tail
    exact ⟨.intro ⟨nofun, nofun⟩ (legible_one ho), hr⟩
  | .infixed left op line right, _, h => by
    obtain ⟨hleft, hmore⟩ := legible_expr left _ h
    obtain ⟨hright, hr⟩ := legible_expr right _ hmore.tail
    exact ⟨legible_node op line hleft hright, hr⟩
  | .var x, _, h => ⟨.intro (over_name h.name rfl rfl) nofun, h.tail⟩
  | .assign x .plain value, _, h => by
    obtain ⟨hv, hr⟩ := legible_expr value _ h.tail.tail
    exact ⟨.intro (over_name h.name rfl rfl) (legible_one hv), hr⟩
  | .assign x (.compound op line) value, _, h => by
    obtain ⟨hv, hr⟩ := legible_expr value _ h.tail.tail
    have hx : Legible X (.expr (.var x ())) := .intro (over_name h.name rfl rfl) nofun
    have hop : Legible X (.expr (.binary (.var x ()) (.arith op) line (core.expr value))) :=
      .intro ⟨nofun, nofun⟩ (legible_two hx hv)
    exact ⟨.intro (over_name h.name rfl rfl) (legible_one hop), hr⟩
  | .call callee _ arguments, _, h => by
    obtain ⟨hc, hmore⟩ := legible_expr callee _ h
    obtain ⟨ha, hr⟩ := legible_exprs arguments _ hmore.tail
    exact ⟨.intro ⟨nofun, nofun⟩ (List.forall_mem_cons.2 ⟨hc, ha⟩), hr.tail⟩
  | .get object x, _, h => by
    obtain ⟨ho, hr⟩ := legible_expr object _ h
    exact ⟨.intro (over_name hr.tail.name rfl rfl) (legible_one ho), hr.tail.tail⟩
  | .set object x .plain value, _, h => by
    obtain ⟨ho, hmore⟩ := legible_expr object _ h
    obtain ⟨hv, hr⟩ := legible_expr value _ hmore.tail.tail.tail
    exact ⟨.intro (over_name hmore.tail.name rfl rfl) (legible_two ho hv), hr⟩
  | .set object x (.compound op line) value, _, h => by
    obtain ⟨ho, hmore⟩ := legible_expr object _ h
    obtain ⟨hv, hr⟩ := legible_expr value _ hmore.tail.tail.tail
    exact ⟨.intro (over_name hmore.tail.name rfl rfl) (legible_two ho hv), hr⟩
  | .this _, _, h => ⟨.intro ⟨nofun, nofun⟩ nofun, h.tail⟩
  | .super _ x, _, h => ⟨.intro (over_name h.tail.tail.name rfl rfl) nofun, h.tail.tail.tail⟩
  | .function _ c, _, h => by
    obtain ⟨hparams, hbody, hr⟩ := legible_code c _ h.tail
    exact ⟨.intro (over_names hparams rfl rfl) hbody, hr⟩

theorem legible_exprs : (es : List Expr) → (rest : List Token) →
    Supplied X (Printed.exprs L es rest) →
    (∀ n ∈ (core.exprs es).map Node.expr, Legible X n) ∧ Supplied X rest
  | [], _, h => ⟨nofun, h⟩
  | e :: es, _, h => by
    obtain ⟨he, hmore⟩ := legible_expr e _ h
    obtain ⟨hes, hr⟩ := legible_moreExprs es _ hmore
    exact ⟨List.forall_mem_cons.2 ⟨he, hes⟩, hr⟩

theorem legible_moreExprs : (es : List Expr) → (rest : List Token) →
    Supplied X (Printed.moreExprs L es rest) →
    (∀ n ∈ (core.exprs es).map Node.expr, Legible X n) ∧ Supplied X rest
  | [], _, h => ⟨nofun, h⟩
  | e :: es, _, h => by
    obtain ⟨he, hmore⟩ := legible_expr e _ h.tail
    obtain ⟨hes, hr⟩ := legible_moreExprs es _ hmore
    exact ⟨List.forall_mem_cons.2 ⟨he, hes⟩, hr⟩

theorem legible_code : (c : Code) → (rest : List Token) → Supplied X (Printed.code L c rest) →
    (∀ x ∈ (core.code c).params, IsName x.text) ∧
      (∀ n ∈ (core.code c).body.map Node.stmt, Legible X n) ∧ Supplied X rest
  | .mk params body, _, h => by
    obtain ⟨hparams, hmore⟩ := names_parameters h.tail
    obtain ⟨hbody, hr⟩ := legible_stmts body _ hmore.tail.tail
    exact ⟨hparams, hbody, hr.tail⟩

theorem legible_optionalExpr : (o : Option Expr) → (rest : List Token) →
    Supplied X (Printed.optionalExpr L o rest) →
    (∀ n ∈ (core.optionalExpr o).toList.map Node.expr, Legible X n) ∧ Supplied X rest
  | none, _, h => ⟨nofun, h⟩
  | some e, _, h => by
    obtain ⟨he, hr⟩ := legible_expr e _ h
    exact ⟨legible_one he, hr⟩

theorem legible_initial : (o : Option Expr) → (rest : List Token) →
    Supplied X (Printed.initial L o rest) →
    (∀ n ∈ (core.optionalExpr o).toList.map Node.expr, Legible X n) ∧ Supplied X rest
  | none, _, h => ⟨nofun, h⟩
  | some e, _, h => by
    obtain ⟨he, hr⟩ := legible_expr e _ h.tail
    exact ⟨legible_one he, hr⟩

theorem legible_methods : (ms : List Method) → (rest : List Token) →
    Supplied X (Printed.methods L ms rest) →
    (∀ n ∈ (core.methods ms).map Node.method, Legible X n) ∧ Supplied X rest
  | [], _, h => ⟨nofun, h⟩
  | .mk x c :: ms, _, h => by
    obtain ⟨hparams, hbody, hmore⟩ := legible_code c _ h.tail
    obtain ⟨hms, hr⟩ := legible_methods ms _ hmore
    have hx : Heading.Over X (.ofNode (.method (.mk x (core.code c)))) :=
      over_names (List.forall_mem_cons.2 ⟨h.name, hparams⟩) rfl rfl
    exact ⟨List.forall_mem_cons.2 ⟨.intro hx hbody, hms⟩, hr⟩

theorem legible_stmt : (s : Stmt) → (rest : List Token) → Supplied X (Printed.stmt L s rest) →
    Legible X (.stmt (core.stmt s)) ∧ Supplied X rest
  | .expression e, _, h => by
    obtain ⟨he, hr⟩ := legible_expr e _ h
    exact ⟨.intro ⟨nofun, nofun⟩ (legible_one he), hr.tail⟩
  | .print e, _, h => by
    obtain ⟨he, hr⟩ := legible_expr e _ h.tail
    exact ⟨.intro ⟨nofun, nofun⟩ (legible_one he), hr.tail⟩
  | .var x value, _, h => by
    obtain ⟨hv, hr⟩ := legible_initial value _ h.tail.tail
    exact ⟨.intro (over_name h.tail.name rfl rfl) hv, hr.tail⟩
  | .block body, _, h => by
    obtain ⟨hbody, hr⟩ := legible_stmts body _ h.tail
    exact ⟨.intro ⟨nofun, nofun⟩ hbody, hr.tail⟩
  | .branch condition yes no, _, h => by
    obtain ⟨hc, hmore⟩ := legible_expr condition _ h.tail.tail
    obtain ⟨hy, hmore⟩ := legible_stmt yes _ hmore.tail
    obtain ⟨hn, hr⟩ := legible_otherwise no _ hmore
    exact ⟨.intro ⟨nofun, nofun⟩
      (List.forall_mem_cons.2 ⟨hc, List.forall_mem_cons.2 ⟨hy, hn⟩⟩), hr⟩
  | .loop condition body, _, h => by
    obtain ⟨hc, hmore⟩ := legible_expr condition _ h.tail.tail
    obtain ⟨hbody, hr⟩ := legible_stmt body _ hmore.tail
    exact ⟨.intro ⟨nofun, nofun⟩ (legible_two hc hbody), hr⟩
  | .function x c, _, h => by
    obtain ⟨hparams, hbody, hr⟩ := legible_code c _ h.tail.tail
    exact ⟨.intro (over_names (List.forall_mem_cons.2 ⟨h.tail.name, hparams⟩) rfl rfl) hbody, hr⟩
  | .ret _ value, _, h => by
    obtain ⟨hv, hr⟩ := legible_optionalExpr value _ h.tail
    exact ⟨.intro ⟨nofun, nofun⟩ hv, hr.tail⟩
  | .classDef x parent ms, _, h => by
    obtain ⟨hparent, hmore⟩ := name_superclass h.tail.tail
    obtain ⟨hms, hr⟩ := legible_methods ms _ hmore.tail
    exact ⟨.intro (over_class h.tail.name hparent) hms, hr.tail⟩
  | .forLoop start condition step body, _, h => by
    obtain ⟨hstart, hmore⟩ := legible_initializer start _ h.tail.tail
    obtain ⟨hc, hmore⟩ := legible_optionalExpr condition _ hmore
    obtain ⟨hs, hmore⟩ := legible_optionalExpr step _ hmore.tail
    obtain ⟨hbody, hr⟩ := legible_stmt body _ hmore.tail
    exact ⟨legible_forLoop hstart hc hs hbody, hr⟩

theorem legible_otherwise : (o : Option Stmt) → (rest : List Token) →
    Supplied X (Printed.otherwise L o rest) →
    (∀ n ∈ (core.optionalStmt o).toList.map Node.stmt, Legible X n) ∧ Supplied X rest
  | none, _, h => ⟨nofun, h⟩
  | some s, _, h => by
    obtain ⟨hs, hr⟩ := legible_stmt s _ h.tail
    exact ⟨legible_one hs, hr⟩

theorem legible_initializer : (o : Option Stmt) → (rest : List Token) →
    Supplied X (Printed.initializer L o rest) →
    (∀ n ∈ (core.optionalStmt o).toList.map Node.stmt, Legible X n) ∧ Supplied X rest
  | none, _, h => ⟨nofun, h.tail⟩
  | some s, _, h => by
    obtain ⟨hs, hr⟩ := legible_stmt s _ h
    exact ⟨legible_one hs, hr⟩

theorem legible_stmts : (ss : List Stmt) → (rest : List Token) →
    Supplied X (Printed.stmts L ss rest) →
    (∀ n ∈ (core.stmts ss).map Node.stmt, Legible X n) ∧ Supplied X rest
  | [], _, h => ⟨nofun, h⟩
  | s :: ss, _, h => by
    obtain ⟨hs, hmore⟩ := legible_stmt s _ h
    obtain ⟨hss, hr⟩ := legible_stmts ss _ hmore
    exact ⟨List.forall_mem_cons.2 ⟨hs, hss⟩, hr⟩

end

end Surface

namespace Outline
open Static

/-- The values of the numerals in a text. -/
def Numeral (source : String) (x : Float) : Prop :=
  ∃ text, .number text x ∈ (Scan.ofText source).tokens.map Token.kind

theorem supplied_ofText (source : String) :
    Supplied (Numeral source) (Scan.ofText source).tokens := by
  rintro ⟨kind, line⟩ ht
  have hkind := List.mem_map_of_mem (f := Token.kind) ht
  cases kind with
  | identifier x =>
    obtain ⟨rest, hfits⟩ := Scan.isReadable source _ hkind
    exact hfits.1.holds
  | number text x => exact ⟨text, hkind⟩
  | _ => trivial

/-- The lines of a program that is read from a text. -/
theorem legible_program {source : String} {n : Nat} {p : List (Stmt Unit)}
    (h : Grammar.program n (Scan.ofText source).tokens = (p, [])) :
    Legible (Numeral source) (.program p) := by
  obtain ⟨ss, rfl, -, htokens⟩ := Grammar.program_written h
  have hsupplied := supplied_ofText source
  rw [← htokens] at hsupplied
  exact .intro ⟨nofun, nofun⟩ (Surface.legible_stmts ss [] hsupplied).1

end Outline
end LoxScript
