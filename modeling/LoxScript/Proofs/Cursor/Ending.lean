import LoxScript.Proofs.Cursor.Tracking

/-!
Reading by position comes to an end.

No list of tokens keeps a reader from ending, however malformed it is.  With fuel for the tokens
that are left, a reader stays inside the list, and does not go back.  A declaration takes a token,
also if it has to be recovered from a mistake, and so all declarations are read up to the end of the
input.
-/

namespace LoxScript
namespace Cursor

/-- The reader has ended at one of the positions, with a value or with a mistake that it complained
about. -/
def Outcome.Lands {α : Type} (first last : Nat) (o : Outcome α) : Prop :=
  ∃ q, first ≤ q ∧ q ≤ last ∧
    ((∃ v notes, o = .value v q notes) ∨ ∃ notes, notes ≠ [] ∧ o = .mistaken q notes)

section
variable (tokens : List Token) (n : Nat)

/-- From every position, if there is fuel for the tokens behind it, the reader ends there or further
on, and not behind the end of the input. -/
def EndsAhead {α : Type} (x : Nat → Reader α) : Prop :=
  ∀ p fuel, p ≤ tokens.length → 20 * (tokens.length - p) + 19 < fuel →
    (x fuel (entries tokens n) p).Lands p tokens.length

/-- The tokens are read to their end, whatever they are. -/
structure ReadingEnds : Prop where
  program : ∀ fuel, 20 * tokens.length + 19 < fuel →
    Cursor.program fuel (entries tokens n) 0 =
      .value (Grammar.program n tokens).1 tokens.length (Grammar.program n tokens).2
  /-- A declaration takes a token, and complains if it comes to nothing. -/
  declaration : ∀ p fuel, p < tokens.length → 20 * (tokens.length - p) + 19 < fuel →
    ∃ s q notes, Cursor.declaration fuel (entries tokens n) p = .value s q notes ∧
      p < q ∧ q ≤ tokens.length ∧ (s = none → notes ≠ [])
  classDeclaration : EndsAhead tokens n Cursor.classDeclaration
  methods : EndsAhead tokens n Cursor.methods
  code (kind : CodeKind) : EndsAhead tokens n (Cursor.code kind)
  varDeclaration : EndsAhead tokens n Cursor.varDeclaration
  statement : EndsAhead tokens n Cursor.statement
  initializer : EndsAhead tokens n Cursor.initializer
  block : EndsAhead tokens n Cursor.block
  expressionStatement : EndsAhead tokens n Cursor.expressionStatement
  expressionUnless (stop : Symbol) : EndsAhead tokens n (Cursor.expressionUnless stop)
  expression : EndsAhead tokens n Cursor.expression
  operand (level : Level) : EndsAhead tokens n (Cursor.operand level)
  infixTail (level : Level) (left : Expr Unit) : EndsAhead tokens n (Cursor.infixTail level left)
  unary : EndsAhead tokens n Cursor.unary
  call : EndsAhead tokens n Cursor.call
  callTail (callee : Expr Unit) : EndsAhead tokens n (Cursor.callTail callee)
  arguments : EndsAhead tokens n Cursor.arguments
  argumentList (count : Nat) : EndsAhead tokens n (Cursor.argumentList count)
  primary : EndsAhead tokens n Cursor.primary

end

variable {tokens ts : List Token} {n p fuel : Nat} {a : Bool} {α : Type}

theorem Tracks.lands {o : Outcome α} {P : Parsed a ts α} (h : Tracks tokens o P)
    (hat : At tokens p ts) : o.Lands p tokens.length := by
  have hlength := hat.length_eq
  cases P with
  | ok v rest hs notes =>
    obtain ⟨q, hq, ho⟩ := h
    have hlength' := hq.length_eq
    have hle := hs.le
    exact ⟨q, by omega, hq.le, .inl ⟨v, notes, ho⟩⟩
  | failed rest hs notes hnotes =>
    obtain ⟨q, hq, ho⟩ := h
    have hlength' := hq.length_eq
    have hle := hs.le
    exact ⟨q, by omega, hq.le, .inr ⟨notes, hnotes, ho⟩⟩

/-- A reader ends if it does what a reader of the grammar does. -/
theorem endsAhead {x : Nat → Reader α} {P : ∀ ts, Parsed a ts α} {c : Nat} (hc : c ≤ 19)
    (h : ∀ ts, Follows n tokens c x (P ts)) : EndsAhead tokens n x := by
  intro p fuel hp hfuel
  have hat : At tokens p (tokens.drop p) := .of_le hp
  refine (((h _).mono hc) fuel p ?_ hat).lands hat
  rwa [List.length_drop]

/-- What comes to nothing was complained about. -/
theorem notes_ne_nil_of_recover {t : Token} (P : Parsed true (t :: ts) (Stmt Unit))
    (h : P.recover.statement = none) : P.recover.notes ≠ [] := by
  cases P with
  | ok s rest hs notes => cases h
  | failed rest hs notes hnotes => exact hnotes

theorem declaration_ends (hp : p < tokens.length)
    (hfuel : 20 * (tokens.length - p) + 19 < fuel) :
    ∃ s q notes, declaration fuel (entries tokens n) p = .value s q notes ∧
      p < q ∧ q ≤ tokens.length ∧ (s = none → notes ≠ []) := by
  have hat : At tokens p (tokens.drop p) := .of_le (Nat.le_of_lt hp)
  have hlength := hat.length_eq
  cases hts : tokens.drop p with
  | nil =>
    rw [hts] at hlength
    exact absurd hlength (Nat.ne_of_lt hp)
  | cons t rest =>
    rw [hts] at hat hlength
    obtain ⟨q, hq, hd⟩ := FollowsAll.of_declaration (fun us _ => followsAll n tokens us)
      (show 20 * (t :: rest).length + 18 < fuel by omega) hat
    have hlength' := hq.length_eq
    have hlt := (Grammar.declaration n t rest).shrinks.lt
    refine ⟨_, q, _, hd, by omega, hq.le, ?_⟩
    unfold Grammar.declaration
    exact notes_ne_nil_of_recover _

/-- Declaration by declaration, the end of the input is reached. -/
theorem program_eq {ts : List Token} {p fuel : Nat} (hat : At tokens p ts)
    (hfuel : 20 * ts.length + 19 < fuel) :
    program fuel (entries tokens n) p =
      .value (Grammar.program n ts).1 tokens.length (Grammar.program n ts).2 := by
  obtain ⟨fuel, rfl⟩ := Nat.exists_eq_add_one.2 (Nat.zero_lt_of_lt hfuel)
  rw [program, bind_of_value_nil (atEof_eq hat)]
  cases ts with
  | nil =>
    rw [Grammar.program, ← hat.length_eq]
    rfl
  | cons t rest =>
    have hlt : 20 * (t :: rest).length + 18 < fuel := by omega
    obtain ⟨q, hq, hd⟩ := FollowsAll.of_declaration (fun us _ => followsAll n tokens us) hlt hat
    have hs := (Grammar.declaration n t rest).shrinks.lt
    have hrest : 20 * (Grammar.declaration n t rest).rest.length + 19 < fuel := by omega
    rw [List.isEmpty_cons, if_neg Bool.false_ne_true, bind_of_value hd,
      bind_of_value (program_eq hq hrest), Grammar.program]
    simp only [pure, Outcome.after, List.append_nil]
termination_by ts.length

/-- The list of tokens may be any list. -/
theorem reading_ends (tokens : List Token) (n : Nat) : ReadingEnds tokens n where
  program fuel hfuel := program_eq (.start tokens) hfuel
  declaration p fuel := declaration_ends
  classDeclaration := endsAhead (Nat.le_refl 19) fun ts => (followsAll n tokens ts).classDeclaration
  methods := endsAhead (Nat.le_refl 19) fun ts => (followsAll n tokens ts).methods
  code kind := endsAhead (Nat.le_refl 19) fun ts => (followsAll n tokens ts).code kind
  varDeclaration := endsAhead (Nat.le_refl 19) fun ts => (followsAll n tokens ts).varDeclaration
  statement := endsAhead (Nat.le_refl 19) fun ts => (followsAll n tokens ts).statement
  initializer := endsAhead (Nat.le_refl 19) fun ts => (followsAll n tokens ts).initializer
  block := endsAhead (Nat.le_refl 19) fun ts => (followsAll n tokens ts).block
  expressionStatement := endsAhead (by decide) fun ts =>
    FollowsAll.of_expressionStatement fun us _ => followsAll n tokens us
  expressionUnless stop := endsAhead (Nat.le_refl 19) fun ts =>
    (followsAll n tokens ts).expressionUnless stop
  expression := endsAhead (Nat.le_refl 19) fun ts => (followsAll n tokens ts).expression
  operand level := endsAhead (Nat.le_refl 19) fun ts => (followsAll n tokens ts).operand level
  infixTail level left := endsAhead (Nat.le_refl 19) fun ts =>
    (followsAll n tokens ts).infixTail level left
  unary := endsAhead (Nat.le_refl 19) fun ts => (followsAll n tokens ts).unary
  call := endsAhead (by decide) fun ts => FollowsAll.of_call fun us _ => followsAll n tokens us
  callTail callee := endsAhead (Nat.le_refl 19) fun ts => (followsAll n tokens ts).callTail callee
  arguments := endsAhead (Nat.le_refl 19) fun ts => (followsAll n tokens ts).arguments
  argumentList count := endsAhead (Nat.le_refl 19) fun ts =>
    (followsAll n tokens ts).argumentList count
  primary := endsAhead (by decide) fun ts =>
    FollowsAll.of_primary fun us _ => followsAll n tokens us

/-- A brace that closes nothing is complained about and given up. -/
example : program 40 (entries [⟨.symbol .rightBrace, 1⟩] 1) 0 =
    .value [] 1 [Mistake.expression.report 1 [⟨.symbol .rightBrace, 1⟩]] := by rfl

end Cursor
end LoxScript
