import LoxScript.Proofs.Printed.Statements

/-!
Reading undoes writing out.

The induction is on the tree.  Each case is one lemma about the construct, applied to what is known
of its parts; whether a part may stand where it does is what canonical trees are about.
-/

namespace LoxScript
namespace Grammar
open Parsed

section
variable (n : Nat) (L : Layout)

mutual

theorem readsBack_expr : (e : Expr Unit) → Canonical.expr e → ReadsBack n L e
  | .literal l, _ =>
    .of_call (callReads_of_primary (primary_literal l)) trivial (Nat.le_succ 9)
  | .grouping inner, hc =>
    have hi := readsBack_expr inner hc
    .of_call (callReads_of_primary (primary_grouping hi)) hc (Nat.le_succ 9)
  | .unary op line operand, hc =>
    have ho := readsBack_expr operand hc.2
    .of_unary (.unary op line (ho.unary hc.1)) rfl
  | .binary left op line right, hc => by
    obtain ⟨hls, hrs, hl, hr⟩ := hc
    have hleft := (readsBack_expr left hl).infixed _ hls
    have hright := (readsBack_expr right hr).operand hrs
    exact .of_infixed (fun rest _ _ => InfixReads.node (.binary op) line hleft hright rest) rfl
  | .logical left op line right, hc => by
    obtain ⟨hls, hrs, hl, hr⟩ := hc
    have hleft := (readsBack_expr left hl).infixed _ hls
    have hright := (readsBack_expr right hr).operand hrs
    exact .of_infixed (fun rest _ _ => InfixReads.node (.logical op) line hleft hright rest) rfl
  | .var x _, _ => readsBack_var x
  | .assign x _ value, hc => .of_expression (.assign (readsBack_expr value hc).expression x) rfl
  | .call callee line arguments, hc => by
    obtain ⟨hs, hlen, hcallee, harguments⟩ := hc
    have hread := (readsBack_expr callee hcallee).call hs
    have hes := readsBack_exprs arguments harguments
    exact .of_call (hread.call arguments line hes hlen) ⟨hs, hlen, hcallee, harguments⟩
      (Nat.le_refl 9)
  | .get object x, hc =>
    .of_call (((readsBack_expr object hc.2).call hc.1).get x) hc (Nat.le_refl 9)
  | .set object x value, hc => by
    obtain ⟨hs, hobject, hvalue⟩ := hc
    have hread := infixReads_get ((readsBack_expr object hobject).call hs) hobject hs x
    exact .of_expression (.set hread (readsBack_expr value hvalue).expression) rfl
  | .update object x op line value, hc => by
    obtain ⟨hs, hobject, hvalue⟩ := hc
    have hread := infixReads_get ((readsBack_expr object hobject).call hs) hobject hs x
    exact .of_expression (.update hread op line (readsBack_expr value hvalue).expression) rfl
  | .this line _, _ =>
    .of_call (callReads_of_primary (primary_this line)) trivial (Nat.le_succ 9)
  | .super line _ x, _ =>
    .of_call (callReads_of_primary (primary_super line x)) trivial (Nat.le_succ 9)
  | .function line body, hc =>
    have hb := codeReads_code body hc
    .of_call (callReads_of_primary (primary_function hb line)) hc (Nat.le_succ 9)

theorem readsBack_exprs : (es : List (Expr Unit)) → Canonical.exprs es →
    ∀ e ∈ es, Canonical.expr e ∧ ReadsBack n L e
  | [], _ => nofun
  | e :: es, hc =>
    List.forall_mem_cons.2 ⟨⟨hc.1, readsBack_expr e hc.1⟩, readsBack_exprs es hc.2⟩

theorem exprReads_optionalExpr : (value : Option (Expr Unit)) → Canonical.optionalExpr value →
    ∀ e ∈ value, ExprReads n L e
  | none, _ => nofun
  | some e, hc => by
    rintro e' ⟨⟩
    exact (readsBack_expr e hc).expression

theorem codeReads_code : (c : Code Unit) → Canonical.code c → CodeReads n L c
  | .mk _ body, hc => .mk (blockReads_of_declarations (declarationReads_stmts body hc.2)) hc.1

theorem methodsReads_methods : (ms : List (Method Unit)) → Canonical.methods ms →
    MethodsReads n L ms
  | [], _ => methodsReads_nil
  | .mk x body :: ms, hc => (methodsReads_methods ms hc.2).cons x (codeReads_code body hc.1)

/-- Declarations are not read as statements. -/
theorem stmtReads_stmt : (s : Stmt Unit) → Canonical.stmt s → s.declares? = none →
    StmtReads n L s
  | .expression e, hc, _ => .expression (readsBack_expr e hc).expression hc
  | .print e, hc, _ => .print (readsBack_expr e hc).expression
  | .block body, hc, _ => .block (blockReads_of_declarations (declarationReads_stmts body hc))
  | .branch condition yes none, hc, _ => by
    obtain ⟨hcondition, hdeclares, -, hyes, -⟩ := hc
    exact .branch (readsBack_expr condition hcondition).expression
      (stmtReads_stmt yes hyes hdeclares)
  | .branch condition yes (some no), hc, _ => by
    obtain ⟨hcondition, hdeclares, hopen, hyes, hdeclares', hno⟩ := hc
    exact .branches (readsBack_expr condition hcondition).expression
      (stmtReads_stmt yes hyes hdeclares) (hopen rfl) (stmtReads_stmt no hno hdeclares')
  | .loop condition body, hc, _ => by
    obtain ⟨hcondition, hdeclares, hbody⟩ := hc
    exact .loop (readsBack_expr condition hcondition).expression
      (stmtReads_stmt body hbody hdeclares)
  | .ret line value, hc, _ => .ret (exprReads_optionalExpr value hc) hc line

theorem declarationReads_stmts : (ss : List (Stmt Unit)) → Canonical.stmts ss →
    ∀ s ∈ ss, DeclarationReads n L s
  | [], _ => nofun
  | s :: ss, hc =>
    List.forall_mem_cons.2 ⟨declarationReads_stmt s hc.1, declarationReads_stmts ss hc.2⟩

theorem declarationReads_stmt : (s : Stmt Unit) → Canonical.stmt s → DeclarationReads n L s
  | .var x initial, hc => .var (exprReads_optionalExpr initial hc) x
  | .function x body, hc => .function (codeReads_code body hc) x
  | .classDef x parent declared, hc => .classDef (methodsReads_methods declared hc) x parent
  | .expression e, hc => .of_stmt (stmtReads_stmt (.expression e) hc rfl) rfl hc
  | .print e, hc => .of_stmt (stmtReads_stmt (.print e) hc rfl) rfl hc
  | .block body, hc => .of_stmt (stmtReads_stmt (.block body) hc rfl) rfl hc
  | .branch condition yes no, hc =>
    .of_stmt (stmtReads_stmt (.branch condition yes no) hc rfl) rfl hc
  | .loop condition body, hc => .of_stmt (stmtReads_stmt (.loop condition body) hc rfl) rfl hc
  | .ret line value, hc => .of_stmt (stmtReads_stmt (.ret line value) hc rfl) rfl hc

end

end

/-- A canonical program that has been written out is read again, and nothing is complained of. -/
theorem program_printed (L : Layout) (endLine : Nat) {P : List (Stmt Unit)}
    (h : Canonical.stmts P) : program endLine (L.stmts P []) = (P, []) :=
  program_stmts (declarationReads_stmts endLine L P h)

/-- `if (a) if (b) o.f(a).g -= a = -b; else fun (p) { return p - a - b; };`, where the `else`
belongs to the second `if`. -/
def danglingElse : List (Stmt Unit) :=
  let a : Expr Unit := .var ⟨"a", 1⟩ ()
  let b : Expr Unit := .var ⟨"b", 1⟩ ()
  let difference : Expr Unit :=
    .binary (.binary (.var ⟨"p", 1⟩ ()) (.arith .subtract) 1 a) (.arith .subtract) 1 b
  let property : Expr Unit := .call (.get (.var ⟨"o", 1⟩ ()) ⟨"f", 1⟩) 1 [a]
  [.branch a (.branch b
    (.expression (.update property ⟨"g", 1⟩ .subtract 1 (.assign ⟨"a", 1⟩ () (.unary .negate 1 b))))
    (some (.expression (.function 1 (.mk [⟨"p", 1⟩] [.ret 1 (some difference)]))))) none]

theorem program_printed_dangling_else : Canonical.stmts danglingElse ∧
    program 1 ((⟨fun _ => 1, fun _ _ => ""⟩ : Layout).stmts danglingElse []) = (danglingElse, []) :=
  have h : Canonical.stmts danglingElse := by
    simp [danglingElse, Canonical.stmts, Canonical.stmt, Canonical.optionalStmt, Canonical.expr,
      Canonical.exprs, Canonical.code, Canonical.optionalExpr, Stmt.declares?, Stmt.endsOpen,
      Expr.strength, Level.strength, Infix.level, Mistake.maxArguments]
  ⟨h, program_printed _ 1 h⟩

end Grammar
end LoxScript
