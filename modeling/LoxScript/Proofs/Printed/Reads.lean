import LoxScript.Proofs.Printed.Canonical

/-!
Reading without complaints, and what the next token decides.

A token that may go on with what stands before it has a grip: what binds more tightly than that is
complete in front of the token.  The first token of an expression tells the readers of statements,
arguments and operators that an expression begins.
-/

namespace LoxScript

namespace Parsed

/-- A value is read without complaints, and these tokens are left. -/
def Reads {a : Bool} {ts : List Token} {α : Type} (p : Parsed a ts α) (v : α) (rest : List Token) :
    Prop :=
  ∃ h, p = ok v rest h []

section
variable {a b : Bool} {ts rest rest' : List Token} {α β : Type} {v : α} {w : β}

theorem reads_done (v : α) (ts : List Token) : (done v ts).Reads v ts := ⟨.refl ts, rfl⟩

theorem reads_after {p : Parsed a ts α} (h : p.Reads v rest) : (p.after []).Reads v rest := by
  obtain ⟨hs, rfl⟩ := h
  exact ⟨hs, rfl⟩

theorem reads_behind {p : Parsed a ts α} (h : p.Reads v rest) (t : Token) :
    (p.behind (t := t)).Reads v rest := by
  obtain ⟨hs, rfl⟩ := h
  exact ⟨hs.cons t, rfl⟩

theorem reads_weaken {p : Parsed a ts α} (h : p.Reads v rest) : p.weaken.Reads v rest := by
  obtain ⟨hs, rfl⟩ := h
  exact ⟨hs.weaken, rfl⟩

theorem reads_within {p : Parsed a ts α} (h : p.Reads v rest) {all : List Token}
    (hs : Shrinks b ts all) : (p.within hs).Reads v rest := by
  obtain ⟨hs', rfl⟩ := h
  exact ⟨hs.then_le hs', rfl⟩

theorem reads_map {p : Parsed a ts α} (h : p.Reads v rest) (f : α → β) :
    (p.map f).Reads (f v) rest := by
  obtain ⟨hs, rfl⟩ := h
  exact ⟨hs, rfl⟩

theorem reads_andThen {p : Parsed a ts α}
    {next : α → (rest : List Token) → Shrinks a rest ts → Parsed b rest β} (h : p.Reads v rest)
    (hn : ∀ hs, (next v rest hs).Reads w rest') : (p.andThen next).Reads w rest' := by
  obtain ⟨hs, rfl⟩ := h
  obtain ⟨hs', hq⟩ := hn hs
  simp only [andThen, hq]
  exact ⟨hs.trans hs', rfl⟩

theorem reads_symbol (s : Symbol) (m : Mistake) (n line : Nat) (rest : List Token) :
    (symbol s m n (⟨.symbol s, line⟩ :: rest)).Reads line rest := by
  rw [symbol, if_pos rfl]
  exact reads_behind (reads_done line rest) _

theorem reads_name (m : Mistake) (n : Nat) (x : Name) (rest : List Token) :
    (name m n (x.token :: rest)).Reads x rest :=
  reads_behind (reads_done x rest) x.token

end
end Parsed

/-! ### Tokens that go on with what stands before them -/

namespace Infix

def kind : Infix → TokenKind
  | binary op => .symbol op.symbol
  | logical op => .keyword op.keyword

theorem ofKind?_kind (op : Infix) : ofKind? op.kind = some op := by
  rcases op with (_ | _ | _ | _) | _
  all_goals first | rfl | (rename_i op; cases op <;> rfl)

end Infix

/-- The strength from which on an expression is complete in front of the token, less one. -/
def TokenKind.grip (k : TokenKind) : Nat :=
  match k, Infix.ofKind? k with
  | _, some op => op.level.strength
  | .symbol .leftParen, _ | .symbol .dot, _ => 9
  | .symbol s, _ => if s.assignment?.isSome then 1 else 0
  | _, _ => 0

def grip : List Token → Nat
  | [] => 0
  | t :: _ => t.kind.grip

theorem grip_operator (op : Infix) (line : Nat) (rest : List Token) :
    grip (⟨op.kind, line⟩ :: rest) = op.level.strength := by
  show TokenKind.grip op.kind = _
  unfold TokenKind.grip
  rw [Infix.ofKind?_kind]

theorem Level.strength_injective {l l' : Level} (h : l.strength = l'.strength) : l = l' := by
  cases l <;> cases l' <;> first | rfl | cases h

theorem Level.strength_tighter {l t : Level} (h : l.tighter? = some t) :
    t.strength = l.strength + 1 := by
  cases l <;> cases h <;> rfl

theorem Level.strength_le (l : Level) : l.strength ≤ 7 := by cases l <;> decide

theorem Level.two_le_strength (l : Level) : 2 ≤ l.strength := by cases l <;> decide

theorem Infix.atLevel?_kind (op : Infix) : atLevel? op.level op.kind = some op := by
  rw [atLevel?, ofKind?_kind]
  exact Option.filter_eq_some_iff.2 ⟨rfl, decide_eq_true rfl⟩

/-- A token of another grip is no operator of the level. -/
theorem Infix.atLevel?_eq_none {level : Level} {k : TokenKind} (h : k.grip ≠ level.strength) :
    atLevel? level k = none := by
  unfold atLevel?
  unfold TokenKind.grip at h
  generalize ofKind? k = o at h
  cases o with
  | none => rfl
  | some op =>
    refine Option.filter_eq_none_iff.2 ?_
    rintro _ ⟨⟩ hop
    exact h (congrArg Level.strength (of_decide_eq_true hop))

/-! ### Tokens that an expression begins with -/

/-- The token begins an expression that cannot be taken apart.  A `fun` does not by itself. -/
def TokenKind.opens : TokenKind → Bool
  | symbol .leftParen => true
  | keyword .false_ | keyword .true_ | keyword .nil_ | keyword .super_ | keyword .this_ => true
  | identifier _ | string _ | number _ _ => true
  | _ => false

inductive Opening : List Token → Prop
  | primary {t : Token} {rest : List Token} : t.kind.opens = true → Opening (t :: rest)
  | function (line line' : Nat) (rest : List Token) :
      Opening (⟨.keyword .fun_, line⟩ :: ⟨.symbol .leftParen, line'⟩ :: rest)

inductive Begins : List Token → Prop
  | opening {ts : List Token} : Opening ts → Begins ts
  | unary (op : UnaryOp) (line : Nat) (rest : List Token) :
      Begins (⟨.symbol op.symbol, line⟩ :: rest)

namespace Grammar
open Parsed

section
variable {ts : List Token} (n : Nat)

theorem unary_of_opening (h : Opening ts) : unary n ts = call n ts := by
  unfold unary
  cases h with
  | @primary t rest ht =>
    obtain ⟨kind, line⟩ := t
    cases kind with
    | symbol s => cases s <;> first | rfl | cases ht
    | _ => rfl
  | function => rfl

theorem arguments_of_begins (h : Begins ts) : arguments n ts = (argumentList n 0 ts).weaken := by
  rw [arguments.eq_def]
  cases h with
  | opening h =>
    cases h with
    | @primary t rest ht =>
      obtain ⟨kind, line⟩ := t
      cases kind with
      | symbol s => cases s <;> first | rfl | cases ht
      | _ => rfl
    | function => rfl
  | unary op line rest => cases op <;> rfl

theorem expressionUnless_of_begins (h : Begins ts) {stop : Symbol}
    (hs : stop = .semicolon ∨ stop = .rightParen) :
    expressionUnless n stop ts = ((expression n ts).map some).weaken := by
  unfold expressionUnless
  cases h with
  | opening h =>
    cases h with
    | @primary t rest ht =>
      obtain ⟨kind, line⟩ := t
      cases kind with
      | symbol s =>
        cases s with
        | leftParen => rcases hs with rfl | rfl <;> rfl
        | _ => cases ht
      | _ => rfl
    | function => rfl
  | unary op line rest => cases op <;> rcases hs with rfl | rfl <;> rfl

theorem statement_of_begins (h : Begins ts) : statement n ts = expressionStatement n ts := by
  rw [statement.eq_def]
  cases h with
  | opening h =>
    cases h with
    | @primary t rest ht =>
      obtain ⟨kind, line⟩ := t
      cases kind with
      | symbol s => cases s <;> first | rfl | cases ht
      | keyword k => cases k <;> first | rfl | cases ht
      | _ => rfl
    | function => rfl
  | unary op line rest => cases op <;> rfl

/-- What begins like an expression is no declaration; a `fun` is followed by a parenthesis. -/
theorem declaration_of_begins {t : Token} {rest : List Token} (h : Begins (t :: rest)) :
    declaration n t rest = (statement n (t :: rest)).recover := by
  rw [declaration.eq_def]
  cases h with
  | opening h =>
    cases h with
    | primary ht =>
      obtain ⟨kind, line⟩ := t
      cases kind with
      | keyword k => cases k <;> first | rfl | cases ht
      | _ => rfl
    | function => rfl
  | unary op line rest => rfl

end
end Grammar

/-- A block does not end and no branch begins where an expression does. -/
theorem Begins.head {ts : List Token} (h : Begins ts) :
    ∃ t rest, ts = t :: rest ∧ t.kind ≠ .symbol .rightBrace ∧ t.kind ≠ .keyword .else_ := by
  cases h with
  | opening h =>
    cases h with
    | @primary t rest ht =>
      refine ⟨t, rest, rfl, ?_, ?_⟩
      · intro hk
        rw [hk] at ht
        cases ht
      · intro hk
        rw [hk] at ht
        cases ht
    | function line line' rest => exact ⟨_, _, rfl, nofun, nofun⟩
  | unary op line rest => cases op <;> exact ⟨_, _, rfl, nofun, nofun⟩

section
variable (L : Layout)

/-- A call, a property or an expression that cannot be taken apart begins with no operator. -/
theorem opening_expr : (e : Expr Unit) → (rest : List Token) → Canonical.expr e → 9 ≤ e.strength →
    Opening (L.expr e rest)
  | .literal l, rest, _, _ => by
    cases l with
    | bool b => cases b <;> exact .primary rfl
    | _ => exact .primary rfl
  | .grouping _, _, _, _ => .primary rfl
  | .var _ _, _, _, _ => .primary rfl
  | .call callee _ _, _, hc, _ => opening_expr callee _ hc.2.2.1 hc.1
  | .get object _, _, hc, _ => opening_expr object _ hc.2 hc.1
  | .this _ _, _, _, _ => .primary rfl
  | .super _ _ _, _, _, _ => .primary rfl
  | .function line (.mk _ _), _, _, _ => .function line _ _
  | .unary _ _ _, _, _, h => absurd h (by simp [Expr.strength])
  | .binary _ op _ _, _, _, h => absurd (Nat.le_trans h (Level.strength_le _)) (by decide)
  | .logical _ op _ _, _, _, h => absurd (Nat.le_trans h (Level.strength_le _)) (by decide)
  | .assign _ _ _, _, _, h => absurd h (by simp [Expr.strength])
  | .set _ _ _, _, _, h => absurd h (by simp [Expr.strength])
  | .update _ _ _ _ _, _, _, h => absurd h (by simp [Expr.strength])

theorem begins_expr : (e : Expr Unit) → (rest : List Token) → Canonical.expr e →
    Begins (L.expr e rest)
  | .unary op line _, _, _ => .unary op line _
  | .binary left _ _ _, _, hc => begins_expr left _ hc.2.2.1
  | .logical left _ _ _, _, hc => begins_expr left _ hc.2.2.1
  | .assign _ _ _, _, _ => .opening (.primary rfl)
  | .set object _ _, _, hc => .opening (opening_expr L object _ hc.2.1 hc.1)
  | .update object _ _ _ _, _, hc => .opening (opening_expr L object _ hc.2.1 hc.1)
  | .literal l, rest, hc => .opening (opening_expr L (.literal l) rest hc (Nat.le_succ 9))
  | .grouping e, rest, hc => .opening (opening_expr L (.grouping e) rest hc (Nat.le_succ 9))
  | .var x ref, rest, hc => .opening (opening_expr L (.var x ref) rest hc (Nat.le_succ 9))
  | .call f line es, rest, hc => .opening (opening_expr L (.call f line es) rest hc (Nat.le_refl 9))
  | .get e x, rest, hc => .opening (opening_expr L (.get e x) rest hc (Nat.le_refl 9))
  | .this line ref, rest, hc => .opening (opening_expr L (.this line ref) rest hc (Nat.le_succ 9))
  | .super line ref x, rest, hc =>
    .opening (opening_expr L (.super line ref x) rest hc (Nat.le_succ 9))
  | .function line c, rest, hc =>
    .opening (opening_expr L (.function line c) rest hc (Nat.le_succ 9))

end
end LoxScript
