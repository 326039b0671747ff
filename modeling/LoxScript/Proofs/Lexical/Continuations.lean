import LoxScript.Proofs.Lexical.Correspondence

/-!
What is left to do in a state of the machine and in one of the evaluator by name.

It is the same if it is the same code, at the same places, with environments that correspond.
Locations made later do not change that, unless they are for a block that is being run: a block has
locations for exactly the names declared in it so far.
-/

namespace LoxScript.Lexical

section
variable (P : List (List (Stmt Unit))) (owners : Owners)

def SameExpr (env : Environment) (σ : Scope) (e : RExpr) (e₀ : Expr Unit) : Prop :=
  ∃ Γ, ExprAt P Γ e₀ e ∧ Corresponds owners Γ env σ

/-- Statements that declare nothing. -/
def SameBody (env : Environment) (σ : Scope) (s : RStmt) (s₀ : Stmt Unit) : Prop :=
  ∃ Γ, BodyAt P Γ s₀ s ∧ Corresponds owners Γ env σ

inductive SameCompletion : LoxScript.Completion → Completion → Prop
  | normal : SameCompletion .normal .normal
  | returned {v : LoxScript.Value} {w : Value} :
      SameValue P owners v w → SameCompletion (.returned v) (.returned w)

inductive SameResult : LoxScript.CallResult → CallResult → Prop
  | returned : SameResult .returned .returned
  | receiver {ms : List (Method (Option Nat))} {Γ : Frames} {env : Environment} {σ : Scope} :
      Corresponds owners (.receiver ms :: Γ) env σ → SameResult (.receiver env) (.receiver σ)
  | made {v : LoxScript.Value} {w : Value} :
      SameValue P owners v w → SameResult (.made v) (.made w)

end

mutual

/-- The same is done with a value.  The scopes of the blocks being run are before `n`, and each of
them is before those of the blocks inside it. -/
inductive SameValueCont (P : List (List (Stmt Unit))) (owners : Owners) :
    Nat → LoxScript.ValueCont → ValueCont → Prop
  | unary {n op line k k₀} : SameValueCont P owners n k k₀ →
      SameValueCont P owners n (.unary op line k) (.unary op line k₀)
  | binaryLeft {n op line e e₀ env σ k k₀} : SameExpr P owners env σ e e₀ →
      SameValueCont P owners n k k₀ →
      SameValueCont P owners n (.binaryLeft op line e env k) (.binaryLeft op line e₀ σ k₀)
  | binaryRight {n op line v w k k₀} : SameValue P owners v w → SameValueCont P owners n k k₀ →
      SameValueCont P owners n (.binaryRight op line v k) (.binaryRight op line w k₀)
  | logical {n op e e₀ env σ k k₀} : SameExpr P owners env σ e e₀ →
      SameValueCont P owners n k k₀ →
      SameValueCont P owners n (.logical op e env k) (.logical op e₀ σ k₀)
  | assign {n x Γ env σ k k₀} : Corresponds owners Γ env σ → SameValueCont P owners n k k₀ →
      SameValueCont P owners n (.assign x (Γ.scopes.distance? x.text) env k) (.assign x σ k₀)
  | callee {n line es es₀ env σ k k₀} : List.Forall₂ (SameExpr P owners env σ) es es₀ →
      SameValueCont P owners n k k₀ →
      SameValueCont P owners n (.callee line es env k) (.callee line es₀ σ k₀)
  | argument {n line v w vs ws es es₀ env σ k k₀} : SameValue P owners v w →
      List.Forall₂ (SameValue P owners) vs ws → List.Forall₂ (SameExpr P owners env σ) es es₀ →
      SameValueCont P owners n k k₀ →
      SameValueCont P owners n (.argument line v vs es env k) (.argument line w ws es₀ σ k₀)
  | get {n x k k₀} : SameValueCont P owners n k k₀ →
      SameValueCont P owners n (.get x k) (.get x k₀)
  | setObject {n x e e₀ env σ k k₀} : SameExpr P owners env σ e e₀ →
      SameValueCont P owners n k k₀ →
      SameValueCont P owners n (.setObject x e env k) (.setObject x e₀ σ k₀)
  | setValue {n i x k k₀} : SameValueCont P owners n k k₀ →
      SameValueCont P owners n (.setValue i x k) (.setValue i x k₀)
  | updateObject {n x op line e e₀ env σ k k₀} : SameExpr P owners env σ e e₀ →
      SameValueCont P owners n k k₀ →
      SameValueCont P owners n (.updateObject x op line e env k) (.updateObject x op line e₀ σ k₀)
  | updateValue {n i x op line v w k k₀} : SameValue P owners v w →
      SameValueCont P owners n k k₀ →
      SameValueCont P owners n (.updateValue i x op line v k) (.updateValue i x op line w k₀)
  | discard {n k k₀} : SameStmtCont P owners n k k₀ →
      SameValueCont P owners n (.discard k) (.discard k₀)
  | print {n k k₀} : SameStmtCont P owners n k k₀ →
      SameValueCont P owners n (.print k) (.print k₀)
  | define {n Γ x env σ k k₀} : Corresponds owners Γ env σ → Declares Γ x →
      SameStmtCont P owners n k k₀ →
      SameValueCont P owners n (.define x env k) (.define x σ k₀)
  | ret {n k k₀} : SameStmtCont P owners n k k₀ → SameValueCont P owners n (.ret k) (.ret k₀)
  | branch {n yes yes₀ no no₀ env σ k k₀} : SameBody P owners env σ yes yes₀ →
      Option.Rel (SameBody P owners env σ) no no₀ → SameStmtCont P owners n k k₀ →
      SameValueCont P owners n (.branch yes no env k) (.branch yes₀ no₀ σ k₀)
  | loopTest {n e e₀ s s₀ env σ k k₀} : SameExpr P owners env σ e e₀ →
      SameBody P owners env σ s s₀ → SameStmtCont P owners n k k₀ →
      SameValueCont P owners n (.loopTest e s env k) (.loopTest e₀ s₀ σ k₀)
  | inherit {n Γ x y ms ms₀ env σ k k₀} : Corresponds owners Γ env σ → Declares Γ x.text →
      MethodsAt P (.receiver ms :: .superclass ms :: Γ) ms₀ ms → SameStmtCont P owners n k k₀ →
      SameValueCont P owners n (.inherit x y ms env k) (.inherit x y ms₀ σ k₀)

inductive SameStmtCont (P : List (List (Stmt Unit))) (owners : Owners) :
    Nat → LoxScript.StmtCont → StmtCont → Prop
  | sequence {n ss ss₀ env σ k k₀} : SameRest P owners env σ ss ss₀ → 0 < env.scope.index →
      env.scope.index < n → SameStmtCont P owners env.scope.index k k₀ →
      SameStmtCont P owners n (.sequence ss env k) (.sequence ss₀ σ k₀)
  | loopBody {n e e₀ s s₀ env σ k k₀} : SameExpr P owners env σ e e₀ →
      SameBody P owners env σ s s₀ → SameStmtCont P owners n k k₀ →
      SameStmtCont P owners n (.loopBody e s env k) (.loopBody e₀ s₀ σ k₀)
  | call {n r r₀ k k₀} : SameResult P owners r r₀ → SameValueCont P owners n k k₀ →
      SameStmtCont P owners n (.call r k) (.call r₀ k₀)
  | finish {n} : SameStmtCont P owners n .finish .finish

end

/-! ### More locations -/

section
variable {P : List (List (Stmt Unit))} {owners owners' : Owners}

theorem SameExpr.mono (h : owners <+: owners') {env : Environment} {σ : Scope} {e : RExpr}
    {e₀ : Expr Unit} (he : SameExpr P owners env σ e e₀) : SameExpr P owners' env σ e e₀ := by
  obtain ⟨Γ, he, hc⟩ := he
  exact ⟨Γ, he, hc.mono h⟩

theorem SameBody.mono (h : owners <+: owners') {env : Environment} {σ : Scope} {s : RStmt}
    {s₀ : Stmt Unit} (hs : SameBody P owners env σ s s₀) : SameBody P owners' env σ s s₀ := by
  obtain ⟨Γ, hs, hc⟩ := hs
  exact ⟨Γ, hs, hc.mono h⟩

theorem SameResult.mono (h : owners <+: owners') {r : LoxScript.CallResult} {r₀ : CallResult}
    (hr : SameResult P owners r r₀) : SameResult P owners' r r₀ := by
  cases hr with
  | returned => exact .returned
  | receiver hc => exact .receiver (hc.mono h)
  | made hv => exact .made (hv.mono h)

mutual

theorem SameValueCont.mono {n n' : Nat} {k : LoxScript.ValueCont} {k₀ : ValueCont}
    (hg : owners.Grow n owners') (hn : n ≤ n') :
    SameValueCont P owners n k k₀ → SameValueCont P owners' n' k k₀
  | .unary hk => .unary (hk.mono hg hn)
  | .binaryLeft he hk => .binaryLeft (he.mono hg.prefix_) (hk.mono hg hn)
  | .binaryRight hv hk => .binaryRight (hv.mono hg.prefix_) (hk.mono hg hn)
  | .logical he hk => .logical (he.mono hg.prefix_) (hk.mono hg hn)
  | .assign hc hk => .assign (hc.mono hg.prefix_) (hk.mono hg hn)
  | .callee hes hk => .callee (hes.imp fun _ _ he => he.mono hg.prefix_) (hk.mono hg hn)
  | .argument hv hvs hes hk =>
    .argument (hv.mono hg.prefix_) (hvs.imp fun _ _ hv => hv.mono hg.prefix_)
      (hes.imp fun _ _ he => he.mono hg.prefix_) (hk.mono hg hn)
  | .get hk => .get (hk.mono hg hn)
  | .setObject he hk => .setObject (he.mono hg.prefix_) (hk.mono hg hn)
  | .setValue hk => .setValue (hk.mono hg hn)
  | .updateObject he hk => .updateObject (he.mono hg.prefix_) (hk.mono hg hn)
  | .updateValue hv hk => .updateValue (hv.mono hg.prefix_) (hk.mono hg hn)
  | .discard hk => .discard (hk.mono hg hn)
  | .print hk => .print (hk.mono hg hn)
  | .define hc hx hk => .define (hc.mono hg.prefix_) hx (hk.mono hg hn)
  | .ret hk => .ret (hk.mono hg hn)
  | .branch hyes hno hk =>
    .branch (hyes.mono hg.prefix_) (rel_imp (fun _ _ hs => hs.mono hg.prefix_) hno) (hk.mono hg hn)
  | .loopTest he hs hk => .loopTest (he.mono hg.prefix_) (hs.mono hg.prefix_) (hk.mono hg hn)
  | .inherit hc hx hms hk => .inherit (hc.mono hg.prefix_) hx hms (hk.mono hg hn)

theorem SameStmtCont.mono {n n' : Nat} {k : LoxScript.StmtCont} {k₀ : StmtCont}
    (hg : owners.Grow n owners') (hn : n ≤ n') :
    SameStmtCont P owners n k k₀ → SameStmtCont P owners' n' k k₀
  | .sequence hs hpos hlt hk =>
    .sequence (hs.mono hg hlt) hpos (Nat.lt_of_lt_of_le hlt hn)
      (hk.mono (hg.weaken (Nat.le_of_lt hlt)) (Nat.le_refl _))
  | .loopBody he hs hk => .loopBody (he.mono hg.prefix_) (hs.mono hg.prefix_) (hk.mono hg hn)
  | .call hr hk => .call (hr.mono hg.prefix_) (hk.mono hg hn)
  | .finish => .finish

end

end
end LoxScript.Lexical
