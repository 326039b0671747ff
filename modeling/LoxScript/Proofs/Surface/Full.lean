import LoxScript.Proofs.Printed.Programs
import LoxScript.Proofs.Surface.Tree

/-!
Abbreviations written out are canonical.

Writing an abbreviation out changes neither how tightly an expression binds nor what a statement
declares, and it leaves no statement open that was not.  The parentheses around the right operand of
a compound assignment are what makes that operand fit behind its operator.
-/

namespace LoxScript
namespace Surface
open Elaboration

/-! ### What writing out leaves as it was -/

theorem strength_node {ρ : Type} (op : Infix) (left : LoxScript.Expr ρ) (line : Nat)
    (right : LoxScript.Expr ρ) : (op.node left line right).strength = op.level.strength := by
  cases op <;> rfl

theorem strength_full (e : Expr) : (full.expr e).strength = e.strength := by
  cases e with
  | infixed left op line right => exact strength_node op _ line _
  | assign x sign value => cases sign <;> rfl
  | set object x sign value =>
    cases sign with
    | plain => rfl
    | compound op line =>
      show (fullSet _ x (.compound op line) _).strength = 1
      by_cases hr : isRepeatable (full.expr object)
      · simp only [fullSet, if_pos hr, LoxScript.Expr.strength]
      · simp only [fullSet, if_neg hr, LoxScript.Expr.strength]
  | _ => rfl

theorem length_full (es : List Expr) : (full.exprs es).length = es.length := by
  induction es with
  | nil => rfl
  | cons e es ih => exact congrArg (· + 1) ih

theorem declares_full {s : Stmt} (h : s.declares = false) : (full.stmt s).declares? = none := by
  cases s with
  | var | function | classDef => cases h
  | forLoop initial condition step body => cases initial <;> cases step <;> rfl
  | _ => rfl

theorem endsOpen_full : (s : Stmt) → (full.stmt s).endsOpen = true → s.endsOpen = true
  | .branch _ _ none, _ => rfl
  | .branch _ _ (some no), h => endsOpen_full no h
  | .loop _ body, h => endsOpen_full body h
  | .forLoop none _ none body, h => endsOpen_full body h

theorem closed_full {s : Stmt} (h : s.endsOpen = false) : (full.stmt s).endsOpen = false :=
  Bool.eq_false_iff.2 fun ho => Bool.eq_false_iff.1 h (endsOpen_full s ho)

/-! ### Canonical trees -/

theorem canonical_node {op : Infix} {left right : LoxScript.Expr Unit} (line : Nat)
    (hls : op.level.strength ≤ left.strength) (hrs : op.level.strength < right.strength)
    (hl : Canonical.expr left) (hr : Canonical.expr right) :
    Canonical.expr (op.node left line right) := by
  cases op <;> exact ⟨hls, hrs, hl, hr⟩

theorem level_lt_ten (op : Infix) : op.level.strength < 10 :=
  Nat.lt_of_le_of_lt op.level.strength_le (by decide)

/-- What is assigned to stands in front of the operator, the value in parentheses behind it. -/
theorem canonical_compound {place value : LoxScript.Expr Unit} (op : ArithOp) (line : Nat)
    (hs : 9 ≤ place.strength) (hp : Canonical.expr place) (hv : Canonical.expr value) :
    Canonical.expr (.binary place (.arith op) line (.grouping value)) := by
  have hle : (Infix.binary (.arith op)).level.strength ≤ 7 := Level.strength_le _
  exact ⟨by omega, level_lt_ten _, hp, hv⟩

theorem canonical_fullAssign (x : Name) (sign : Sign) {value : LoxScript.Expr Unit}
    (hv : Canonical.expr value) : Canonical.expr (fullAssign x sign value) := by
  cases sign with
  | plain => exact hv
  | compound op line =>
    have hx : 9 ≤ (LoxScript.Expr.var x ()).strength := Nat.le_succ 9
    exact canonical_compound op line hx trivial hv

theorem canonical_fullSet (x : Name) (sign : Sign) {object value : LoxScript.Expr Unit}
    (hs : 9 ≤ object.strength) (ho : Canonical.expr object) (hv : Canonical.expr value) :
    Canonical.expr (fullSet object x sign value) := by
  cases sign with
  | plain => exact ⟨hs, ho, hv⟩
  | compound op line =>
    by_cases hr : isRepeatable object
    · have hget : Canonical.expr (.get object x) := ⟨hs, ho⟩
      simp only [fullSet, if_pos hr]
      exact ⟨hs, ho, canonical_compound op line (Nat.le_refl 9) hget hv⟩
    · simp only [fullSet, if_neg hr]
      exact ⟨hs, ho, hv⟩

theorem canonical_whileLoop {condition step : Option (LoxScript.Expr Unit)}
    {body : LoxScript.Stmt Unit} (hc : Canonical.optionalExpr condition)
    (hs : Canonical.optionalExpr step) (hd : body.declares? = none) (hb : Canonical.stmt body) :
    Canonical.stmt (whileLoop condition step body) := by
  have hcond : Canonical.expr (condition.getD (.literal (.bool true))) := by
    cases condition with
    | none => trivial
    | some e => exact hc
  cases step with
  | none => exact ⟨hcond, hd, hb⟩
  | some e => exact ⟨hcond, rfl, hb, hs, trivial⟩

theorem canonical_fullLoop {initial : Option (LoxScript.Stmt Unit)}
    {condition step : Option (LoxScript.Expr Unit)} {body : LoxScript.Stmt Unit}
    (hi : ∀ s ∈ initial, Canonical.stmt s) (hc : Canonical.optionalExpr condition)
    (hs : Canonical.optionalExpr step) (hd : body.declares? = none) (hb : Canonical.stmt body) :
    Canonical.stmt (fullLoop initial condition step body) := by
  have hloop := canonical_whileLoop hc hs hd hb
  cases initial with
  | none => exact hloop
  | some s => exact ⟨hi s rfl, hloop, trivial⟩

mutual

theorem canonical_expr : (e : Expr) → Proper.expr e → Canonical.expr (full.expr e)
  | .literal _, _ => trivial
  | .grouping inner, hp => canonical_expr inner hp
  | .unary _ _ operand, hp =>
    ⟨(strength_full operand).symm ▸ hp.1, canonical_expr operand hp.2⟩
  | .infixed left op line right, hp => by
    obtain ⟨hls, hrs, hl, hr⟩ := hp
    rw [← strength_full] at hls hrs
    exact canonical_node line hls hrs (canonical_expr left hl) (canonical_expr right hr)
  | .var _, _ => trivial
  | .assign x sign value, hp => canonical_fullAssign x sign (canonical_expr value hp)
  | .call callee line arguments, hp => by
    obtain ⟨hs, hlen, hc, ha⟩ := hp
    rw [← strength_full] at hs
    rw [← length_full] at hlen
    exact ⟨hs, hlen, canonical_expr callee hc, canonical_exprs arguments ha⟩
  | .get object _, hp => ⟨(strength_full object).symm ▸ hp.1, canonical_expr object hp.2⟩
  | .set object x sign value, hp => by
    obtain ⟨hs, ho, hv⟩ := hp
    rw [← strength_full] at hs
    exact canonical_fullSet x sign hs (canonical_expr object ho) (canonical_expr value hv)
  | .this _, _ => trivial
  | .super _ _, _ => trivial
  | .function _ body, hp => canonical_code body hp

theorem canonical_exprs : (es : List Expr) → Proper.exprs es → Canonical.exprs (full.exprs es)
  | [], _ => trivial
  | e :: es, hp => ⟨canonical_expr e hp.1, canonical_exprs es hp.2⟩

theorem canonical_optionalExpr : (o : Option Expr) → Proper.optionalExpr o →
    Canonical.optionalExpr (full.optionalExpr o)
  | none, _ => trivial
  | some e, hp => canonical_expr e hp

theorem canonical_code : (c : Code) → Proper.code c → Canonical.code (full.code c)
  | .mk _ body, hp => ⟨hp.1, canonical_stmts body hp.2⟩

theorem canonical_methods : (ms : List Method) → Proper.methods ms →
    Canonical.methods (full.methods ms)
  | [], _ => trivial
  | .mk _ body :: ms, hp => ⟨canonical_code body hp.1, canonical_methods ms hp.2⟩

theorem canonical_stmt : (s : Stmt) → Proper.stmt s → Canonical.stmt (full.stmt s)
  | .expression e, hp => canonical_expr e hp
  | .print e, hp => canonical_expr e hp
  | .var _ initial, hp => canonical_optionalExpr initial hp
  | .block body, hp => canonical_stmts body hp
  | .branch condition yes none, hp => by
    obtain ⟨hc, hd, -, hy, -⟩ := hp
    exact ⟨canonical_expr condition hc, declares_full hd, nofun, canonical_stmt yes hy, trivial⟩
  | .branch condition yes (some no), hp => by
    obtain ⟨hc, hd, hclosed, hy, hdn, hn⟩ := hp
    exact ⟨canonical_expr condition hc, declares_full hd, fun _ => closed_full (hclosed rfl),
      canonical_stmt yes hy, declares_full hdn, canonical_stmt no hn⟩
  | .loop condition body, hp =>
    ⟨canonical_expr condition hp.1, declares_full hp.2.1, canonical_stmt body hp.2.2⟩
  | .function _ body, hp => canonical_code body hp
  | .ret _ value, hp => canonical_optionalExpr value hp
  | .classDef _ _ declared, hp => canonical_methods declared hp
  | .forLoop initial condition step body, hp => by
    obtain ⟨hi, hc, hs, hd, hb⟩ := hp
    exact canonical_fullLoop (canonical_initializer initial hi)
      (canonical_optionalExpr condition hc) (canonical_optionalExpr step hs) (declares_full hd)
      (canonical_stmt body hb)

theorem canonical_initializer : (o : Option Stmt) → Proper.initializer o →
    ∀ s ∈ full.optionalStmt o, Canonical.stmt s
  | none, _ => nofun
  | some s, hp => by
    intro s' hs'
    rw [← Option.mem_some_iff.1 hs']
    exact canonical_stmt s hp.2

theorem canonical_stmts : (ss : List Stmt) → Proper.stmts ss → Canonical.stmts (full.stmts ss)
  | [], _ => trivial
  | s :: ss, hp => ⟨canonical_stmt s hp.1, canonical_stmts ss hp.2⟩

end

end Surface
end LoxScript
