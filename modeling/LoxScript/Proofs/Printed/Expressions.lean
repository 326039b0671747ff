import LoxScript.Proofs.Printed.Reads

/-!
Expressions that have been written out are read again.

An operator's left operand is not read by itself: the reader of its level goes on with what it has
read so far.  What is shown of the operand is therefore that reading goes on with it.
-/

namespace LoxScript
namespace Grammar
open Parsed

section
variable (n : Nat) (L : Layout)

/-- Calls and properties of the expression are read on from it. -/
def CallReads (e : Expr Unit) : Prop :=
  ∀ rest v r, (callTail n e rest).Reads v r → (call n (L.expr e rest)).Reads v r

def UnaryReads (e : Expr Unit) : Prop :=
  ∀ rest, grip rest ≤ 8 → (unary n (L.expr e rest)).Reads e rest

/-- Operators of the level are read on from the expression. -/
def InfixReads (level : Level) (e : Expr Unit) : Prop :=
  ∀ rest v r, grip rest ≤ level.strength → (infixTail n level e rest).Reads v r →
    (infixed n level (L.expr e rest)).Reads v r

def OperandReads (level : Level) (e : Expr Unit) : Prop :=
  ∀ rest, grip rest ≤ level.strength → (operand n level (L.expr e rest)).Reads e rest

def ExprReads (e : Expr Unit) : Prop :=
  ∀ rest, grip rest = 0 → (expression n (L.expr e rest)).Reads e rest

end

section
variable {n : Nat} {L : Layout} {e : Expr Unit}

theorem callTail_done (e : Expr Unit) {rest : List Token} (h : grip rest ≤ 8) :
    (callTail n e rest).Reads e rest := by
  unfold callTail
  split
  · exact absurd (show 9 ≤ 8 from h) (by decide)
  · exact absurd (show 9 ≤ 8 from h) (by decide)
  · exact reads_done e rest

theorem infixTail_done (e : Expr Unit) {level : Level} {rest : List Token}
    (h : grip rest < level.strength) : (infixTail n level e rest).Reads e rest := by
  unfold infixTail
  cases rest with
  | nil => exact reads_done e []
  | cons t rest =>
    have hnone := Infix.atLevel?_eq_none (k := t.kind) (Nat.ne_of_lt h)
    simp only [hnone]
    exact reads_done e _

/-! ### From one level to the next -/

theorem UnaryReads.of_call (h : CallReads n L e) (ho : ∀ rest, Opening (L.expr e rest)) :
    UnaryReads n L e := by
  intro rest hrest
  rw [unary_of_opening n (ho rest)]
  exact h rest e rest (callTail_done e hrest)

theorem InfixReads.of_operand {level : Level} (h : OperandReads n L level e) :
    InfixReads n L level e := by
  intro rest v r hrest ht
  unfold infixed
  exact reads_andThen (h rest hrest) fun _ => ht

theorem OperandReads.of_infixed {level tighter : Level} (ht : level.tighter? = some tighter)
    (h : InfixReads n L tighter e) : OperandReads n L level e := by
  intro rest hrest
  have hlt : grip rest < tighter.strength := by
    rw [Level.strength_tighter ht]
    exact Nat.lt_succ_of_le hrest
  have hi := h rest e rest (Nat.le_of_lt hlt) (infixTail_done e hlt)
  unfold operand
  split
  · rename_i t ht'
    cases ht.symm.trans ht'
    exact hi
  · rename_i ht'
    rw [ht] at ht'
    cases ht'

theorem OperandReads.of_unary (h : UnaryReads n L e) : OperandReads n L .factor e := by
  intro rest hrest
  unfold operand
  exact h rest (Nat.le_succ_of_le hrest)

theorem InfixReads.of_unary (h : UnaryReads n L e) (level : Level) : InfixReads n L level e := by
  refine .of_operand ?_
  cases ht : level.tighter? with
  | some tighter => exact .of_infixed ht (InfixReads.of_unary h tighter)
  | none =>
    cases level <;> cases ht
    exact .of_unary h
termination_by level.height
decreasing_by exact Level.height_tighter ht

theorem InfixReads.weaken {own : Level} (h : InfixReads n L own e) (level : Level)
    (hle : level.strength ≤ own.strength) : InfixReads n L level e := by
  rcases Nat.eq_or_lt_of_le hle with heq | hlt
  · rw [Level.strength_injective heq]
    exact h
  · refine .of_operand ?_
    cases ht : level.tighter? with
    | some tighter =>
      have hle' : tighter.strength ≤ own.strength := by
        rw [Level.strength_tighter ht]
        exact hlt
      exact .of_infixed ht (h.weaken tighter hle')
    | none =>
      cases level <;> cases ht
      exact absurd (Level.strength_le own) (Nat.not_le_of_lt hlt)
termination_by level.height
decreasing_by exact Level.height_tighter ht

theorem assignment?_of_grip {s : Symbol} {line : Nat} {rest : List Token}
    (h : grip (⟨.symbol s, line⟩ :: rest) = 0) : s.assignment? = none := by
  cases s <;> first | rfl | cases h

theorem ExprReads.of_infixed (h : InfixReads n L .or e) : ExprReads n L e := by
  intro rest hrest
  have hlt : grip rest < Level.or.strength := hrest ▸ Nat.two_pos
  unfold expression
  refine reads_andThen (h rest e rest (Nat.le_of_lt hlt) (infixTail_done e hlt)) fun hs => ?_
  cases rest with
  | nil => exact reads_done e []
  | cons t rest =>
    obtain ⟨kind, line⟩ := t
    cases kind with
    | symbol s =>
      have hs := assignment?_of_grip hrest
      simp only [hs]
      exact reads_done e _
    | _ => exact reads_done e _

/-- What reading makes of an expression that has been written out. -/
structure ReadsBack (n : Nat) (L : Layout) (e : Expr Unit) : Prop where
  call : 9 ≤ e.strength → CallReads n L e
  unary : 8 ≤ e.strength → UnaryReads n L e
  infixed (level : Level) : level.strength ≤ e.strength → InfixReads n L level e
  expression : ExprReads n L e

namespace ReadsBack

theorem of_call (h : CallReads n L e) (hc : Canonical.expr e) (hs : 9 ≤ e.strength) :
    ReadsBack n L e :=
  have hu : UnaryReads n L e := .of_call h fun rest => opening_expr L e rest hc hs
  ⟨fun _ => h, fun _ => hu, fun level _ => .of_unary hu level, .of_infixed (.of_unary hu .or)⟩

theorem of_unary (h : UnaryReads n L e) (hs : e.strength = 8) : ReadsBack n L e :=
  ⟨fun hs' => absurd (hs ▸ hs') (by decide), fun _ => h, fun level _ => .of_unary h level,
    .of_infixed (.of_unary h .or)⟩

theorem of_infixed {level : Level} (h : InfixReads n L level e) (hs : e.strength = level.strength) :
    ReadsBack n L e := by
  have hle : e.strength ≤ 7 := hs ▸ level.strength_le
  refine ⟨fun hs' => ?_, fun hs' => ?_, fun l hl => h.weaken l (hs ▸ hl),
    .of_infixed (h.weaken .or level.two_le_strength)⟩
  · omega
  · omega

theorem of_expression (h : ExprReads n L e) (hs : e.strength = 1) : ReadsBack n L e := by
  refine ⟨fun hs' => ?_, fun hs' => ?_, fun l hl => ?_, h⟩
  · omega
  · omega
  · have := l.two_le_strength
    omega

theorem operand (h : ReadsBack n L e) {level : Level} (hlt : level.strength < e.strength) :
    OperandReads n L level e := by
  cases ht : level.tighter? with
  | some tighter =>
    refine .of_infixed ht (h.infixed tighter ?_)
    rw [Level.strength_tighter ht]
    exact hlt
  | none =>
    cases level <;> cases ht
    exact .of_unary (h.unary hlt)

end ReadsBack

/-! ### Each kind of expression -/

theorem callReads_of_primary (h : ∀ rest, (primary n (L.expr e rest)).Reads e rest) :
    CallReads n L e := by
  intro rest v r ht
  unfold call
  exact reads_andThen (h rest) fun _ => ht

theorem primary_literal (l : Literal) (rest : List Token) :
    (primary n (L.literal l rest)).Reads (.literal l) rest := by
  unfold primary
  cases l with
  | bool b => cases b <;> exact reads_behind (reads_done _ _) _
  | _ => exact reads_behind (reads_done _ _) _

theorem primary_grouping (h : ReadsBack n L e) (rest : List Token) :
    (primary n (L.expr (.grouping e) rest)).Reads (.grouping e) rest := by
  unfold primary
  refine reads_behind (reads_andThen (h.expression _ rfl) fun _ => ?_) _
  exact reads_map (reads_symbol _ _ _ _ rest) _

theorem primary_this (line : Nat) (rest : List Token) :
    (primary n (L.expr (.this line ()) rest)).Reads (.this line ()) rest := by
  unfold primary
  exact reads_behind (reads_done (Expr.this line ()) rest) _

theorem primary_super (line : Nat) (x : Name) (rest : List Token) :
    (primary n (L.expr (.super line () x) rest)).Reads (.super line () x) rest := by
  unfold primary
  refine reads_behind (reads_andThen (reads_symbol _ _ _ _ _) fun _ => ?_) _
  exact reads_map (reads_name _ _ x rest) _

theorem primary_function {c : Code Unit}
    (h : ∀ kind rest, (code n kind (L.code c rest)).Reads c rest) (line : Nat)
    (rest : List Token) :
    (primary n (L.expr (.function line c) rest)).Reads (.function line c) rest := by
  unfold primary
  exact reads_behind (reads_map (h .function rest) _) _

theorem UnaryReads.unary (op : UnaryOp) (line : Nat) (h : UnaryReads n L e) :
    UnaryReads n L (.unary op line e) := by
  intro rest hrest
  rw [Layout.expr, Grammar.unary.eq_def]
  cases op <;> exact reads_behind (reads_map (h rest hrest) _) _

theorem CallReads.get (h : CallReads n L e) (x : Name) : CallReads n L (.get e x) := by
  intro rest v r ht
  refine h _ v r ?_
  rw [callTail.eq_def]
  refine reads_weaken (reads_behind (reads_andThen (reads_name _ _ x rest) fun _ => ?_) _)
  exact ht

theorem InfixReads.node {left right : Expr Unit} (op : Infix) (line : Nat)
    (hl : InfixReads n L op.level left) (hr : OperandReads n L op.level right) (rest : List Token)
    {v : Expr Unit} {r : List Token} (hrest : grip rest ≤ op.level.strength)
    (ht : (infixTail n op.level (op.node left line right) rest).Reads v r) :
    (infixed n op.level (L.expr left (⟨op.kind, line⟩ :: L.expr right rest))).Reads v r := by
  refine hl _ v r (Nat.le_of_eq (grip_operator op line _)) ?_
  rw [infixTail.eq_def]
  simp only [Infix.atLevel?_kind]
  exact reads_weaken (reads_behind (reads_andThen (hr rest hrest) fun _ => ht) _)

theorem reads_argumentList (es : List (Expr Unit)) {count : Nat} (line : Nat) (rest : List Token)
    (hes : ∀ e' ∈ e :: es, ReadsBack n L e') (hcount : count + es.length < Mistake.maxArguments) :
    (argumentList n count (L.expr e (L.moreExprs es (⟨.symbol .rightParen, line⟩ :: rest)))).Reads
      (e :: es) (⟨.symbol .rightParen, line⟩ :: rest) := by
  have he := (hes e List.mem_cons_self).expression
  induction es generalizing e count with
  | nil =>
    rw [argumentList.eq_def, if_pos (show count < Mistake.maxArguments from hcount)]
    exact reads_after (reads_andThen (he _ rfl) fun _ => reads_done [e] _)
  | cons e' es ih =>
    have hlt : count + 1 + es.length < Mistake.maxArguments := by
      rw [Nat.add_assoc, Nat.add_comm 1]
      exact hcount
    have hrest := ih (fun e₀ he₀ => hes e₀ (List.mem_cons_of_mem e he₀)) hlt
      (hes e' (List.mem_cons_of_mem e List.mem_cons_self)).expression
    rw [argumentList.eq_def, if_pos (Nat.lt_of_le_of_lt (Nat.le_add_right _ _) hcount)]
    refine reads_after (reads_andThen (he _ rfl) fun _ => ?_)
    exact reads_weaken (reads_behind (reads_map hrest _) _)

theorem reads_arguments (es : List (Expr Unit)) (line : Nat) (rest : List Token)
    (hes : ∀ e ∈ es, Canonical.expr e ∧ ReadsBack n L e) (hlen : es.length ≤ Mistake.maxArguments) :
    (arguments n (L.exprs es (⟨.symbol .rightParen, line⟩ :: rest))).Reads es
      (⟨.symbol .rightParen, line⟩ :: rest) := by
  cases es with
  | nil =>
    rw [arguments.eq_def]
    exact reads_done [] _
  | cons e es =>
    rw [Layout.exprs, arguments_of_begins n (begins_expr L e _ (hes e List.mem_cons_self).1)]
    refine reads_weaken (reads_argumentList es line rest (fun e' he' => (hes e' he').2) ?_)
    rw [Nat.zero_add]
    exact hlen

theorem CallReads.call (h : CallReads n L e) (es : List (Expr Unit)) (line : Nat)
    (hes : ∀ e ∈ es, Canonical.expr e ∧ ReadsBack n L e) (hlen : es.length ≤ Mistake.maxArguments) :
    CallReads n L (.call e line es) := by
  intro rest v r ht
  refine h _ v r ?_
  rw [callTail.eq_def]
  refine reads_weaken (reads_behind (reads_andThen (reads_arguments es line rest hes hlen) ?_) _)
  intro _
  exact reads_andThen (reads_symbol _ _ _ line rest) fun _ => ht

/-- A place to assign to is read as an expression first. -/
theorem expression_assignment {target value result : Expr Unit} {s : Symbol}
    {op : Option ArithOp} {line : Nat} (hs : s.assignment? = some op)
    (ht : InfixReads n L .or target) (hv : ExprReads n L value)
    (ha : target.assignment? op line value = some result) {rest : List Token}
    (hrest : grip rest = 0) :
    (expression n (L.expr target (⟨.symbol s, line⟩ :: L.expr value rest))).Reads result rest := by
  have hgrip : grip (⟨.symbol s, line⟩ :: L.expr value rest) = 1 := by
    cases s <;> first | rfl | cases hs
  have hlt : grip (⟨.symbol s, line⟩ :: L.expr value rest) < Level.or.strength :=
    hgrip ▸ Nat.one_lt_two
  rw [expression.eq_def]
  refine reads_andThen (ht _ target _ (Nat.le_of_lt hlt) (infixTail_done target hlt)) fun _ => ?_
  simp only [hs]
  refine reads_weaken (reads_behind (reads_andThen (hv rest hrest) fun _ => ?_) _)
  rw [ha]
  exact reads_done result rest

theorem readsBack_var (x : Name) : ReadsBack n L (.var x ()) := by
  refine .of_call (callReads_of_primary fun rest => ?_) trivial (Nat.le_succ 9)
  unfold primary
  exact reads_behind (reads_done (Expr.var x ()) rest) x.token

theorem ExprReads.assign (h : ExprReads n L e) (x : Name) : ExprReads n L (.assign x () e) := by
  intro rest hrest
  have hx : InfixReads n L .or (.var x ()) := 
    (readsBack_var x).infixed .or (Nat.le_of_ble_eq_true rfl)
  exact expression_assignment (s := .equal) rfl hx h rfl hrest

theorem infixReads_get {object : Expr Unit} (h : CallReads n L object)
    (hc : Canonical.expr object) (hs : 9 ≤ object.strength) (x : Name) :
    InfixReads n L .or (.get object x) :=
  (ReadsBack.of_call (h.get x) ⟨hs, hc⟩ (Nat.le_refl 9)).infixed .or (Nat.le_of_ble_eq_true rfl)

theorem ExprReads.set {object : Expr Unit} (h : InfixReads n L .or (.get object x))
    (hv : ExprReads n L e) : ExprReads n L (.set object x e) :=
  fun _ hrest => expression_assignment (s := .equal) rfl h hv rfl hrest

theorem ExprReads.update {object : Expr Unit} {x : Name} (h : InfixReads n L .or (.get object x))
    (op : ArithOp) (line : Nat) (hv : ExprReads n L e) :
    ExprReads n L (.update object x op line e) := by
  intro rest hrest
  have hop : op.assignment.assignment? = some (some op) := by cases op <;> rfl
  exact expression_assignment hop h hv rfl hrest

end
end Grammar
end LoxScript
