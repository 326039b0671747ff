import Mathlib
import LoxScript.Proofs.Surface.Full
import LoxScript.Proofs.Surface.Reading

/-!
Tokens without abbreviations.

If no token belongs to an abbreviation, the tree that was written has none either.  Then reading and
writing out agree on it, and its tokens are those of what was read.
-/

namespace LoxScript

/-- A `for`, or the symbol of a compound assignment. -/
def TokenKind.abbreviates : TokenKind → Bool
  | keyword .for_ => true
  | symbol .plusEqual | symbol .minusEqual | symbol .starEqual | symbol .slashEqual => true
  | _ => false

theorem ArithOp.abbreviates_assignment (op : ArithOp) :
    (TokenKind.symbol op.assignment).abbreviates = true := by
  cases op <;> rfl

/-- None of the tokens belongs to an abbreviation. -/
def Plain (ts : List Token) : Prop := ∀ t ∈ ts, t.kind.abbreviates = false

theorem Plain.of_suffix {ts us : List Token} (h : Plain us) (hs : ts <:+ us) : Plain ts :=
  fun t ht => h t (hs.subset ht)

theorem Plain.tail {t : Token} {ts : List Token} (h : Plain (t :: ts)) : Plain ts :=
  h.of_suffix (List.suffix_cons t ts)

namespace Surface
open Elaboration

section
variable (L : Layout)

/-! ### Trees without abbreviations -/

/-- Nothing has to be written out, and writing out what is read gives the tokens back. -/
def Faithful {σ α : Type} (read fully : σ → α) (write : α → List Token → List Token)
    (tokens : σ → List Token → List Token) (e : σ) (rest : List Token) : Prop :=
  fully e = read e ∧ write (read e) rest = tokens e rest

theorem sign_plain {s : Sign} {rest : List Token} (h : Plain (Printed.sign L s rest)) :
    s = .plain := by
  cases s with
  | plain => rfl
  | compound op line =>
    have hop := h ⟨.symbol op.assignment, line⟩ List.mem_cons_self
    rw [ArithOp.abbreviates_assignment] at hop
    cases hop

mutual

theorem plain_expr : (e : Expr) → (rest : List Token) → Plain (Printed.expr L e rest) →
    Faithful core.expr full.expr L.expr (Printed.expr L) e rest
  | .literal _, _, _ => ⟨rfl, rfl⟩
  | .grouping inner, rest, h => by
    obtain ⟨hf, ht⟩ := plain_expr inner (L.symbol .rightParen rest) h.tail
    exact ⟨congrArg _ hf, congrArg (L.symbol .leftParen) ht⟩
  | .unary op line operand, rest, h => by
    obtain ⟨hf, ht⟩ := plain_expr operand rest h.tail
    exact ⟨congrArg _ hf, congrArg (List.cons (Token.mk (.symbol op.symbol) line)) ht⟩
  | .infixed left op line right, rest, h => by
    have hr := (h.of_suffix (suffix_expr L left (List.suffix_refl _))).tail
    obtain ⟨hlf, hlt⟩ := plain_expr left (⟨op.kind, line⟩ :: Printed.expr L right rest) h
    obtain ⟨hrf, hrt⟩ := plain_expr right rest hr
    refine ⟨?_, ?_⟩
    · simp only [Elaboration.expr, hlf, hrf]
    · cases op <;> simp only [Elaboration.expr, Infix.node, Layout.expr, hrt] <;> exact hlt
  | .var _, _, _ => ⟨rfl, rfl⟩
  | .assign x s value, rest, h => by
    obtain rfl := sign_plain L h.tail
    obtain ⟨hf, ht⟩ := plain_expr value rest h.tail.tail
    refine ⟨congrArg (LoxScript.Expr.assign x ()) hf, ?_⟩
    exact congrArg (fun ts => x.token :: L.symbol .equal ts) ht
  | .call callee line arguments, rest, h => by
    have ha := (h.of_suffix (suffix_expr L callee (List.suffix_refl _))).tail
    obtain ⟨hcf, hct⟩ := plain_expr callee _ h
    obtain ⟨haf, hat⟩ := plain_exprs arguments (⟨.symbol .rightParen, line⟩ :: rest) ha
    refine ⟨?_, ?_⟩
    · simp only [Elaboration.expr, hcf, haf]
    · simp only [Elaboration.expr, Layout.expr, hat]
      exact hct
  | .get object x, rest, h => by
    obtain ⟨hf, ht⟩ := plain_expr object (L.symbol .dot (x.token :: rest)) h
    exact ⟨congrArg (LoxScript.Expr.get · x) hf, ht⟩
  | .set object x s value, rest, h => by
    have hs := (h.of_suffix (suffix_expr L object (List.suffix_refl _))).tail.tail
    obtain rfl := sign_plain L hs
    obtain ⟨hof, hot⟩ := plain_expr object _ h
    obtain ⟨hvf, hvt⟩ := plain_expr value rest hs.tail
    refine ⟨?_, ?_⟩
    · show LoxScript.Expr.set (full.expr object) x (full.expr value) = _
      rw [hof, hvf]
      rfl
    · show L.expr (core.expr object)
        (L.symbol .dot (x.token :: L.symbol .equal (L.expr (core.expr value) rest))) = _
      rw [hvt]
      exact hot
  | .this _, _, _ => ⟨rfl, rfl⟩
  | .super _ _, _, _ => ⟨rfl, rfl⟩
  | .function line body, rest, h => by
    obtain ⟨hf, ht⟩ := plain_code body rest h.tail
    exact ⟨congrArg _ hf, congrArg (List.cons (Token.mk (.keyword .fun_) line)) ht⟩

theorem plain_exprs : (es : List Expr) → (rest : List Token) → Plain (Printed.exprs L es rest) →
    Faithful core.exprs full.exprs L.exprs (Printed.exprs L) es rest
  | [], _, _ => ⟨rfl, rfl⟩
  | e :: es, rest, h => by
    have hes := h.of_suffix (suffix_expr L e (List.suffix_refl _))
    obtain ⟨hf, ht⟩ := plain_expr e _ h
    obtain ⟨hfs, hts⟩ := plain_moreExprs es rest hes
    refine ⟨?_, ?_⟩
    · simp only [Elaboration.exprs, hf, hfs]
    · simp only [Elaboration.exprs, Layout.exprs, hts]
      exact ht

theorem plain_moreExprs : (es : List Expr) → (rest : List Token) →
    Plain (Printed.moreExprs L es rest) →
    Faithful core.exprs full.exprs L.moreExprs (Printed.moreExprs L) es rest
  | [], _, _ => ⟨rfl, rfl⟩
  | e :: es, rest, h => by
    have hes := h.tail.of_suffix (suffix_expr L e (List.suffix_refl _))
    obtain ⟨hf, ht⟩ := plain_expr e _ h.tail
    obtain ⟨hfs, hts⟩ := plain_moreExprs es rest hes
    refine ⟨?_, ?_⟩
    · simp only [Elaboration.exprs, hf, hfs]
    · simp only [Elaboration.exprs, Layout.moreExprs, hts]
      exact congrArg (L.symbol .comma) ht

theorem plain_optionalExpr : (o : Option Expr) → (rest : List Token) →
    Plain (Printed.optionalExpr L o rest) →
    Faithful core.optionalExpr full.optionalExpr L.optionalExpr (Printed.optionalExpr L) o rest
  | none, _, _ => ⟨rfl, rfl⟩
  | some e, rest, h => by
    obtain ⟨hf, ht⟩ := plain_expr e rest h
    exact ⟨congrArg some hf, ht⟩

theorem plain_initial : (o : Option Expr) → (rest : List Token) →
    Plain (Printed.initial L o rest) →
    Faithful core.optionalExpr full.optionalExpr L.initial (Printed.initial L) o rest
  | none, _, _ => ⟨rfl, rfl⟩
  | some e, rest, h => by
    obtain ⟨hf, ht⟩ := plain_expr e rest h.tail
    exact ⟨congrArg some hf, congrArg (L.symbol .equal) ht⟩

theorem plain_code : (c : Code) → (rest : List Token) → Plain (Printed.code L c rest) →
    Faithful core.code full.code L.code (Printed.code L) c rest
  | .mk params body, rest, h => by
    have hb := (h.tail.of_suffix (suffix_parameters L params (List.suffix_refl _))).tail.tail
    obtain ⟨hf, ht⟩ := plain_stmts body (L.symbol .rightBrace rest) hb
    refine ⟨congrArg _ hf, ?_⟩
    simp only [Elaboration.code, Layout.code, ht, Printed.code]

theorem plain_methods : (ms : List Method) → (rest : List Token) →
    Plain (Printed.methods L ms rest) →
    Faithful core.methods full.methods L.methods (Printed.methods L) ms rest
  | [], _, _ => ⟨rfl, rfl⟩
  | .mk x body :: ms, rest, h => by
    have hms := h.tail.of_suffix (suffix_code L body (List.suffix_refl _))
    obtain ⟨hf, ht⟩ := plain_code body _ h.tail
    obtain ⟨hfs, hts⟩ := plain_methods ms rest hms
    refine ⟨?_, ?_⟩
    · simp only [Elaboration.methods, hf, hfs]
    · simp only [Elaboration.methods, Layout.methods, hts]
      exact congrArg (x.token :: ·) ht

theorem plain_stmt : (s : Stmt) → (rest : List Token) → Plain (Printed.stmt L s rest) →
    Faithful core.stmt full.stmt L.stmt (Printed.stmt L) s rest
  | .expression e, rest, h => by
    obtain ⟨hf, ht⟩ := plain_expr e (L.symbol .semicolon rest) h
    exact ⟨congrArg _ hf, ht⟩
  | .print e, rest, h => by
    obtain ⟨hf, ht⟩ := plain_expr e (L.symbol .semicolon rest) h.tail
    exact ⟨congrArg _ hf, congrArg (L.keyword .print_) ht⟩
  | .var x value, rest, h => by
    obtain ⟨hf, ht⟩ := plain_initial value (L.symbol .semicolon rest) h.tail.tail
    exact ⟨congrArg _ hf, congrArg (fun ts => L.keyword .var_ (x.token :: ts)) ht⟩
  | .block body, rest, h => by
    obtain ⟨hf, ht⟩ := plain_stmts body (L.symbol .rightBrace rest) h.tail
    exact ⟨congrArg _ hf, congrArg (L.symbol .leftBrace) ht⟩
  | .branch condition yes no, rest, h => by
    have hy := (h.tail.tail.of_suffix (suffix_expr L condition (List.suffix_refl _))).tail
    have hn := hy.of_suffix (suffix_stmt L yes (List.suffix_refl _))
    obtain ⟨hcf, hct⟩ := plain_expr condition _ h.tail.tail
    obtain ⟨hyf, hyt⟩ := plain_stmt yes _ hy
    obtain ⟨hnf, hnt⟩ := plain_otherwise no rest hn
    refine ⟨?_, ?_⟩
    · simp only [Elaboration.stmt, hcf, hyf, hnf]
    · simp only [Elaboration.stmt, Layout.stmt, hnt, hyt, hct, Printed.stmt]
  | .loop condition body, rest, h => by
    have hb := (h.tail.tail.of_suffix (suffix_expr L condition (List.suffix_refl _))).tail
    obtain ⟨hcf, hct⟩ := plain_expr condition _ h.tail.tail
    obtain ⟨hbf, hbt⟩ := plain_stmt body rest hb
    refine ⟨?_, ?_⟩
    · simp only [Elaboration.stmt, hcf, hbf]
    · simp only [Elaboration.stmt, Layout.stmt, hbt, hct, Printed.stmt]
  | .function x body, rest, h => by
    obtain ⟨hf, ht⟩ := plain_code body rest h.tail.tail
    exact ⟨congrArg _ hf, congrArg (fun ts => L.keyword .fun_ (x.token :: ts)) ht⟩
  | .ret line value, rest, h => by
    obtain ⟨hf, ht⟩ := plain_optionalExpr value (L.symbol .semicolon rest) h.tail
    exact ⟨congrArg _ hf, congrArg (List.cons (Token.mk (.keyword .return_) line)) ht⟩
  | .classDef x parent declared, rest, h => by
    have hd := (h.tail.tail.of_suffix (suffix_superclass L parent (List.suffix_refl _))).tail
    obtain ⟨hf, ht⟩ := plain_methods declared (L.symbol .rightBrace rest) hd
    refine ⟨congrArg _ hf, ?_⟩
    simp only [Elaboration.stmt, Layout.stmt, ht, Printed.stmt]
  | .forLoop initial condition step body, rest, h => by
    have hfor := h ⟨.keyword .for_, _⟩ List.mem_cons_self
    cases hfor

theorem plain_otherwise : (o : Option Stmt) → (rest : List Token) →
    Plain (Printed.otherwise L o rest) →
    Faithful core.optionalStmt full.optionalStmt L.otherwise (Printed.otherwise L) o rest
  | none, _, _ => ⟨rfl, rfl⟩
  | some s, rest, h => by
    obtain ⟨hf, ht⟩ := plain_stmt s rest h.tail
    exact ⟨congrArg some hf, congrArg (L.keyword .else_) ht⟩

theorem plain_stmts : (ss : List Stmt) → (rest : List Token) → Plain (Printed.stmts L ss rest) →
    Faithful core.stmts full.stmts L.stmts (Printed.stmts L) ss rest
  | [], _, _ => ⟨rfl, rfl⟩
  | s :: ss, rest, h => by
    have hss := h.of_suffix (suffix_stmt L s (List.suffix_refl _))
    obtain ⟨hf, ht⟩ := plain_stmt s _ h
    obtain ⟨hfs, hts⟩ := plain_stmts ss rest hss
    refine ⟨?_, ?_⟩
    · simp only [Elaboration.stmts, hf, hfs]
    · simp only [Elaboration.stmts, Layout.stmts, hts]
      exact ht

end

end
end Surface

namespace Grammar
open Surface Elaboration

/-- What is read without complaints from tokens that abbreviate nothing is canonical, and writing it
out gives exactly those tokens. -/
theorem program_accepted {endLine : Nat} {ts : List Token} {P : List (LoxScript.Stmt Unit)}
    (h : program endLine ts = (P, [])) (hts : Plain ts) :
    Canonical.stmts P ∧ (Layout.of ts).stmts P [] = ts := by
  obtain ⟨ss, rfl, hp, htoks⟩ := program_written h
  have hplain : Plain (Printed.stmts (.of ts) ss []) := htoks.symm ▸ hts
  obtain ⟨hfull, hprinted⟩ := plain_stmts (.of ts) ss [] hplain
  refine ⟨?_, hprinted.trans htoks⟩
  rw [← hfull]
  exact canonical_stmts ss hp

/-- `if (a) if (b) o.f(a).g = "s"; else b = a - -b;`, each statement on a line of its own. -/
def nestedBranches : List Token :=
  [⟨.keyword .if_, 1⟩, ⟨.symbol .leftParen, 1⟩, ⟨.identifier "a", 1⟩, ⟨.symbol .rightParen, 1⟩,
    ⟨.keyword .if_, 2⟩, ⟨.symbol .leftParen, 2⟩, ⟨.identifier "b", 2⟩, ⟨.symbol .rightParen, 2⟩,
    ⟨.identifier "o", 3⟩, ⟨.symbol .dot, 3⟩, ⟨.identifier "f", 3⟩, ⟨.symbol .leftParen, 3⟩,
    ⟨.identifier "a", 3⟩, ⟨.symbol .rightParen, 3⟩, ⟨.symbol .dot, 3⟩, ⟨.identifier "g", 3⟩,
    ⟨.symbol .equal, 3⟩, ⟨.string "s", 3⟩, ⟨.symbol .semicolon, 3⟩,
    ⟨.keyword .else_, 4⟩, ⟨.identifier "b", 4⟩, ⟨.symbol .equal, 4⟩, ⟨.identifier "a", 4⟩,
    ⟨.symbol .minus, 4⟩, ⟨.symbol .minus, 4⟩, ⟨.identifier "b", 4⟩, ⟨.symbol .semicolon, 4⟩]

/-- The `else` belongs to the second `if`. -/
def innerElse : List (LoxScript.Stmt Unit) :=
  let property : LoxScript.Expr Unit :=
    .call (.get (.var ⟨"o", 3⟩ ()) ⟨"f", 3⟩) 3 [.var ⟨"a", 3⟩ ()]
  let difference : LoxScript.Expr Unit :=
    .binary (.var ⟨"a", 4⟩ ()) (.arith .subtract) 4 (.unary .negate 4 (.var ⟨"b", 4⟩ ()))
  [.branch (.var ⟨"a", 1⟩ ()) (.branch (.var ⟨"b", 2⟩ ())
    (.expression (.set property ⟨"g", 3⟩ (.literal (.string "s"))))
    (some (.expression (.assign ⟨"b", 4⟩ () difference)))) none]

theorem program_accepted_inner_else :
    program 4 nestedBranches = (innerElse, []) ∧ Plain nestedBranches ∧
      Canonical.stmts innerElse ∧ (Layout.of nestedBranches).stmts innerElse [] = nestedBranches :=
  have hread : program 4 nestedBranches = (innerElse, []) := by cbv
  have hplain : Plain nestedBranches := by unfold Plain; decide
  ⟨hread, hplain, program_accepted hread hplain⟩

end Grammar
end LoxScript
