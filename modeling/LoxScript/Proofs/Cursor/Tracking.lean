import LoxScript.Proofs.Cursor.Reading
import LoxScript.Proofs.Grammar.WellFormed

/-!
The readers by position do what the readers of the grammar do.

At a position, the tokens to come are what a reader of the grammar is given.  Both readers come to
the same value or to the same mistake, with the same tokens to come and the same complaints.  The
fuel that is needed grows with the number of tokens: a reader that has taken no token calls only
readers further down in the grammar, of which there are fewer than twenty.
-/

namespace LoxScript
namespace Cursor
open Parsed

variable {n : Nat} {tokens ts rest : List Token} {p fuel : Nat} {a b : Bool} {α β : Type}

/-- The outcome at a position is the one that a reader of the grammar has come to. -/
def Tracks (tokens : List Token) (o : Outcome α) : Parsed a ts α → Prop
  | ok v rest _ notes => ∃ q, At tokens q rest ∧ o = .value v q notes
  | failed rest _ notes _ => ∃ q, At tokens q rest ∧ o = .mistaken q notes

section
variable {o : Outcome α} {P : Parsed a ts α}

theorem tracks_done (h : At tokens p ts) (v : α) :
    Tracks tokens ((pure v : Reader α) (entries tokens n) p) (done v ts) := ⟨p, h, rfl⟩

theorem tracks_fail (h : At tokens p ts) (m : Mistake) :
    Tracks tokens ((error m : Reader α) (entries tokens n) p) (fail m n ts : Parsed a ts α) :=
  ⟨p, h, error_eq h m⟩

theorem tracks_behind {t : Token} (h : Tracks tokens o P) :
    Tracks tokens o (P.behind (t := t)) := by
  cases P <;> exact h

theorem tracks_weaken (h : Tracks tokens o P) : Tracks tokens o P.weaken := by
  cases P <;> exact h

theorem tracks_within {all : List Token} (h : Tracks tokens o P) (hs : Shrinks b ts all) :
    Tracks tokens o (P.within hs) := by
  cases P <;> exact h

theorem tracks_after (h : Tracks tokens o P) (ds : List Diagnostic) :
    Tracks tokens (o.after ds) (P.after ds) := by
  cases P with
  | ok v rest hs notes | failed rest hs notes _ =>
    obtain ⟨q, hq, rfl⟩ := h
    exact ⟨q, hq, rfl⟩

theorem tracks_map {x : Reader α} {l : List Entry} (h : Tracks tokens (x l p) P) (f : α → β) :
    Tracks tokens ((do return f (← x) : Reader β) l p) (P.map f) := by
  cases P with
  | ok v rest hs notes =>
    obtain ⟨q, hq, ho⟩ := h
    refine ⟨q, hq, (bind_of_value ho).trans ?_⟩
    exact congrArg (Outcome.value (f v) q) (List.append_nil notes)
  | failed rest hs notes _ =>
    obtain ⟨q, hq, ho⟩ := h
    exact ⟨q, hq, bind_of_mistaken ho⟩

theorem tracks_andThen {x : Reader α} {f : α → Reader β} {l : List Entry}
    {next : α → (rest : List Token) → Shrinks a rest ts → Parsed b rest β}
    (h : Tracks tokens (x l p) P)
    (hn : ∀ v rest hs q, At tokens q rest → Tracks tokens (f v l q) (next v rest hs)) :
    Tracks tokens ((x >>= f) l p) (P.andThen next) := by
  cases P with
  | failed rest hs notes _ =>
    obtain ⟨q, hq, ho⟩ := h
    exact ⟨q, hq, bind_of_mistaken ho⟩
  | ok v rest hs notes =>
    obtain ⟨q, hq, ho⟩ := h
    rw [bind_of_value ho]
    have hv := hn v rest hs q hq
    simp only [andThen]
    cases hnext : next v rest hs with
    | ok w rest' hs' notes' | failed rest' hs' notes' _ =>
      rw [hnext] at hv
      obtain ⟨q', hq', ho'⟩ := hv
      rw [ho']
      exact ⟨q', hq', rfl⟩

/-- A declaration is recovered from in the same way. -/
theorem recovering_eq {t : Token} {x : Reader (Stmt Unit)} {P : Parsed true (t :: ts) (Stmt Unit)}
    (h : Tracks tokens (x (entries tokens n) p) P) (hfuel : (t :: ts).length < fuel) :
    ∃ q, At tokens q P.recover.rest ∧
      recovering fuel x (entries tokens n) p = .value P.recover.statement q P.recover.notes := by
  unfold recovering
  cases P with
  | ok s rest hs notes =>
    obtain ⟨q, hq, ho⟩ := h
    rw [ho]
    exact ⟨q, hq, rfl⟩
  | failed rest hs notes _ =>
    obtain ⟨q, hq, ho⟩ := h
    obtain ⟨q', hq', hskip⟩ := synchronize_eq (n := n) hq (Nat.lt_of_le_of_lt hs.le hfuel)
    rw [ho]
    refine ⟨q', hq', ?_⟩
    simp only [bind_of_value_nil hskip]
    exact congrArg (Outcome.value none q') (List.append_nil notes)

end

/-! ### What needs no fuel -/

theorem tracks_symbol (h : At tokens p ts) (s : Symbol) (m : Mistake) :
    Tracks tokens (symbol s m (entries tokens n) p) (Parsed.symbol s m n ts) := by
  unfold symbol
  cases ts with
  | nil => exact ⟨p, h, bind_of_mistaken (expect_misses h rfl m)⟩
  | cons t rest =>
    rw [Parsed.symbol]
    split
    · rename_i ht
      exact ⟨p + 1, h.succ, bind_of_value_nil (expect_cons h (decide_eq_true ht) m)⟩
    · rename_i ht
      have hm : Misses (fun kind => kind = .symbol s) (t :: rest) := decide_eq_false ht
      exact ⟨p, h, bind_of_mistaken (expect_misses h hm m)⟩

theorem name_identifier {text : String} {line : Nat}
    (h : At tokens p (⟨.identifier text, line⟩ :: rest)) (m : Mistake) :
    name m (entries tokens n) p = .value ⟨text, line⟩ (p + 1) [] :=
  bind_of_value_nil (expect_cons h rfl m)

theorem name_misses (h : At tokens p ts) (hm : Misses isIdentifier ts) (m : Mistake) :
    name m (entries tokens n) p = .mistaken p [m.report n ts] :=
  bind_of_mistaken (expect_misses h hm m)

/-- A name does not come next. -/
theorem misses_isIdentifier
    (h : ∀ text line rest, ts = ⟨.identifier text, line⟩ :: rest → False) :
    Misses isIdentifier ts := by
  cases ts with
  | nil => rfl
  | cons t rest =>
    obtain ⟨kind, line⟩ := t
    cases kind with
    | identifier text => exact (h text line rest rfl).elim
    | _ => rfl

theorem misses_isAssignment (h : ∀ s line rest, ts = ⟨.symbol s, line⟩ :: rest → False) :
    Misses isAssignment ts := by
  cases ts with
  | nil => rfl
  | cons t rest =>
    obtain ⟨kind, line⟩ := t
    cases kind with
    | symbol s => exact (h s line rest rfl).elim
    | _ => rfl

theorem misses_isLiteral
    (hnumber : ∀ text value line rest, ts = ⟨.number text value, line⟩ :: rest → False)
    (hstring : ∀ text line rest, ts = ⟨.string text, line⟩ :: rest → False) :
    Misses isLiteral ts := by
  cases ts with
  | nil => rfl
  | cons t rest =>
    obtain ⟨kind, line⟩ := t
    cases kind with
    | number text value => exact (hnumber text value line rest rfl).elim
    | string text => exact (hstring text line rest rfl).elim
    | _ => rfl

theorem tracks_name (h : At tokens p ts) (m : Mistake) :
    Tracks tokens (name m (entries tokens n) p) (Parsed.name m n ts) := by
  unfold Parsed.name
  split
  · exact ⟨p + 1, h.succ, name_identifier h m⟩
  · exact ⟨p, h, name_misses h (misses_isIdentifier ‹_›) m⟩

section
variable {is : TokenKind → Bool} {t : Token} {x y : Reader α} {P : Parsed a ts α}

/-- The first way is gone, behind a token that is taken. -/
theorem tracks_taking (hat : At tokens p (t :: rest)) (ht : is t.kind = true)
    (h : Tracks tokens (x (entries tokens n) (p + 1)) P) :
    Tracks tokens ((do if ← accept is then x else y : Reader α) (entries tokens n) p) P := by
  rwa [bind_of_value_nil (accept_cons hat ht), if_pos rfl]

theorem tracks_otherwise {us : List Token} (hat : At tokens p us) (hm : Misses is us)
    (h : Tracks tokens (y (entries tokens n) p) P) :
    Tracks tokens ((do if ← accept is then x else y : Reader α) (entries tokens n) p) P := by
  rwa [bind_of_value_nil (accept_misses hat hm), if_neg Bool.false_ne_true]

theorem tracks_seeing (hat : At tokens p (t :: rest)) (ht : is t.kind = true)
    (h : Tracks tokens (x (entries tokens n) p) P) :
    Tracks tokens ((do if ← looksAt is then x else y : Reader α) (entries tokens n) p) P := by
  rwa [bind_of_value_nil (looksAt_cons hat ht), if_pos rfl]

theorem tracks_missing {us : List Token} (hat : At tokens p us) (hm : Misses is us)
    (h : Tracks tokens (y (entries tokens n) p) P) :
    Tracks tokens ((do if ← looksAt is then x else y : Reader α) (entries tokens n) p) P := by
  rwa [bind_of_value_nil (looksAt_misses hat hm), if_neg Bool.false_ne_true]

/-- Looks back at a token that has been taken. -/
theorem tracks_previous {f : Entry → Reader α} (hat : At tokens p (t :: rest))
    (h : Tracks tokens (f (.token t) (entries tokens n) (p + 1)) P) :
    Tracks tokens ((previous >>= f) (entries tokens n) (p + 1)) P := by
  rwa [bind_of_value_nil (previous_eq hat)]

end

theorem tracks_superclass (h : At tokens p ts) :
    Tracks tokens (superclass (entries tokens n) p) (Grammar.superclass n ts) := by
  unfold superclass Grammar.superclass
  split
  · refine tracks_taking h rfl (tracks_weaken (tracks_behind ?_))
    unfold Parsed.name
    split
    · refine ⟨p + 1 + 1, h.succ.succ, (bind_of_value_nil (name_identifier h.succ _)).trans ?_⟩
      exact bind_of_value_nil (previous_eq h.succ)
    · exact ⟨p + 1, h.succ, bind_of_mistaken (name_misses h.succ (misses_isIdentifier ‹_›) _)⟩
  · exact tracks_otherwise h (misses_of ‹_›) (tracks_done h none)

/-- The complaint that there are too many of something. -/
theorem complainFrom_bind (h : At tokens p ts) (count : Nat) (m : Mistake)
    (next : Unit → Reader α) :
    (complainFrom count m >>= next) (entries tokens n) p =
      (next () (entries tokens n) p).after
        (if count < Mistake.maxArguments then [] else [m.report n ts]) := by
  unfold complainFrom
  split
  · rw [Outcome.after_nil]
    exact bind_of_value_nil rfl
  · exact bind_of_value (complain_eq h m)

theorem tracks_parameterList (h : At tokens p ts) (count : Nat) (hfuel : ts.length < fuel) :
    Tracks tokens (parameterList count fuel (entries tokens n) p)
      (Grammar.parameterList n count ts) := by
  fun_induction Grammar.parameterList n count ts generalizing p fuel with
  | case1 count text line line' rest excess =>
    rename_i ih
    obtain ⟨fuel, rfl⟩ := Nat.exists_eq_add_one.2 (Nat.zero_lt_of_lt hfuel)
    rw [parameterList, complainFrom_bind h]
    refine tracks_after (tracks_behind (tracks_behind ?_)) _
    rw [bind_of_value_nil (name_identifier h _)]
    refine tracks_taking h.succ rfl (tracks_map (ih h.succ.succ ?_) _)
    simp only [List.length_cons] at hfuel
    omega
  | case2 count text line rest hcomma =>
    obtain ⟨fuel, rfl⟩ := Nat.exists_eq_add_one.2 (Nat.zero_lt_of_lt hfuel)
    rw [parameterList, complainFrom_bind h]
    refine tracks_after (tracks_behind ?_) _
    rw [bind_of_value_nil (name_identifier h _)]
    exact tracks_otherwise h.succ (misses_of hcomma) (tracks_done h.succ _)
  | case3 count ts hname =>
    obtain ⟨fuel, rfl⟩ := Nat.exists_eq_add_one.2 (Nat.zero_lt_of_lt hfuel)
    rw [parameterList, complainFrom_bind h]
    have hfail := name_misses (n := n) h (misses_isIdentifier hname) .parameterName
    exact tracks_after (P := Parsed.fail .parameterName n ts) ⟨p, h, bind_of_mistaken hfail⟩ _

theorem tracks_parameters (h : At tokens p ts) (hfuel : ts.length < fuel) :
    Tracks tokens (parameters fuel (entries tokens n) p) (Grammar.parameters n ts) := by
  unfold parameters Grammar.parameters
  split
  · exact tracks_seeing h rfl (tracks_done h [])
  · exact tracks_missing h (misses_of ‹_›) (tracks_weaken (tracks_parameterList h 0 hfuel))

theorem looksAtEnd_nil (h : At tokens p []) :
    looksAtEnd (entries tokens n) p = .value true p [] := by
  unfold looksAtEnd looksAtSymbol
  rw [bind_of_value_nil (looksAt_misses h rfl)]
  exact atEof_eq h

theorem looksAtEnd_cons {t : Token} (h : At tokens p (t :: ts)) :
    looksAtEnd (entries tokens n) p = .value (decide (t.kind = .symbol .rightBrace)) p [] := by
  unfold looksAtEnd looksAtSymbol
  by_cases ht : t.kind = .symbol .rightBrace
  · rw [bind_of_value_nil (looksAt_cons h (decide_eq_true ht)), decide_eq_true ht]
    rfl
  · have hm : Misses (fun kind => kind = .symbol .rightBrace) (t :: ts) := decide_eq_false ht
    rw [bind_of_value_nil (looksAt_misses h hm), decide_eq_false ht]
    exact atEof_eq h

theorem looksAtFunction_identifier {text : String} {line line' : Nat}
    (h : At tokens p (⟨.keyword .fun_, line⟩ :: ⟨.identifier text, line'⟩ :: ts)) :
    looksAtFunction (entries tokens n) p = .value true p [] := by
  unfold looksAtFunction
  rw [bind_of_value_nil (looksAt_cons h rfl), if_pos rfl, bind_of_value_nil (peekAt_one h)]
  rfl

/-- Behind `fun` there is no name, or there is no `fun`. -/
theorem looksAtFunction_misses {t : Token} (h : At tokens p (t :: ts))
    (hn : t.kind = .keyword .fun_ → Misses isIdentifier ts) :
    looksAtFunction (entries tokens n) p = .value false p [] := by
  unfold looksAtFunction
  by_cases ht : t.kind = .keyword .fun_
  · rw [bind_of_value_nil (looksAt_cons h (decide_eq_true ht)), if_pos rfl,
      bind_of_value_nil (peekAt_one h)]
    have hm := hn ht
    cases ts with
    | nil => rfl
    | cons u ts => exact congrArg (Outcome.value · p []) hm
  · have hm : Misses (fun kind => kind = .keyword .fun_) (t :: ts) := decide_eq_false ht
    rw [bind_of_value_nil (looksAt_misses h hm)]
    rfl

/-! ### What needs fuel -/

/-- With more fuel than `cost` and twenty for each token, the reader by position does from anywhere
what the reader of the grammar has done. -/
def Follows (n : Nat) (tokens : List Token) (cost : Nat) (x : Nat → Reader α) (P : Parsed a ts α) :
    Prop :=
  ∀ fuel p, 20 * ts.length + cost < fuel → At tokens p ts →
    Tracks tokens (x fuel (entries tokens n) p) P

section
variable {x : Nat → Reader α} {P : Parsed a ts α} {c : Nat}

theorem Follows.intro (h : ∀ fuel p, 20 * ts.length + c ≤ fuel → At tokens p ts →
    Tracks tokens (x (fuel + 1) (entries tokens n) p) P) : Follows n tokens c x P := by
  intro fuel p hfuel hat
  obtain ⟨fuel, rfl⟩ := Nat.exists_eq_add_one.2 (Nat.zero_lt_of_lt hfuel)
  exact h fuel p (Nat.le_of_lt_succ hfuel) hat

theorem Follows.mono {d : Nat} (h : Follows n tokens c x P) (hle : c ≤ d) :
    Follows n tokens d x P := fun fuel p hfuel =>
  h fuel p (Nat.lt_of_le_of_lt (Nat.add_le_add_left hle _) hfuel)

/-- When a token has been taken, there is fuel for every reader. -/
theorem Follows.later {b : Bool} {us : List Token} {Q : Parsed b us α} (h : Follows n tokens 19 x Q)
    (hs : Shrinks true us ts) (hfuel : 20 * ts.length + c ≤ fuel) (hat : At tokens p us) :
    Tracks tokens (x fuel (entries tokens n) p) Q := by
  have hlt := hs.lt
  exact h fuel p (by omega) hat

end

/-- From these tokens, all readers do what those of the grammar do. -/
structure FollowsAll (n : Nat) (tokens ts : List Token) : Prop where
  expression : Follows n tokens 19 Cursor.expression (Grammar.expression n ts)
  operand (level : Level) : Follows n tokens 19 (Cursor.operand level) (Grammar.operand n level ts)
  infixTail (level : Level) (left : Expr Unit) :
    Follows n tokens 19 (Cursor.infixTail level left) (Grammar.infixTail n level left ts)
  unary : Follows n tokens 19 Cursor.unary (Grammar.unary n ts)
  callTail (callee : Expr Unit) :
    Follows n tokens 19 (Cursor.callTail callee) (Grammar.callTail n callee ts)
  arguments : Follows n tokens 19 Cursor.arguments (Grammar.arguments n ts)
  argumentList (count : Nat) :
    Follows n tokens 19 (Cursor.argumentList count) (Grammar.argumentList n count ts)
  code (kind : CodeKind) : Follows n tokens 19 (Cursor.code kind) (Grammar.code n kind ts)
  block : Follows n tokens 19 Cursor.block (Grammar.block n ts)
  methods : Follows n tokens 19 Cursor.methods (Grammar.methods n ts)
  classDeclaration :
    Follows n tokens 19 Cursor.classDeclaration (Grammar.classDeclaration n ts)
  varDeclaration : Follows n tokens 19 Cursor.varDeclaration (Grammar.varDeclaration n ts)
  expressionUnless (stop : Symbol) :
    Follows n tokens 19 (Cursor.expressionUnless stop) (Grammar.expressionUnless n stop ts)
  initializer : Follows n tokens 19 Cursor.initializer (Grammar.initializer n ts)
  statement : Follows n tokens 19 Cursor.statement (Grammar.statement n ts)

namespace FollowsAll
variable (ih : ∀ rest, Shrinks true rest ts → FollowsAll n tokens rest)
include ih

theorem of_code (kind : CodeKind) :
    Follows n tokens 0 (Cursor.code kind) (Grammar.code n kind ts) := by
  refine .intro fun fuel p hfuel hat => ?_
  rw [Cursor.code, Grammar.code]
  refine tracks_andThen (tracks_symbol hat _ _) fun _ rest₁ h₁ q₁ hat₁ => ?_
  have hlt := h₁.lt
  refine tracks_andThen (tracks_parameters hat₁ (by omega)) fun params rest₂ h₂ q₂ hat₂ => ?_
  refine tracks_andThen (tracks_symbol hat₂ _ _) fun _ rest₃ h₃ q₃ hat₃ => ?_
  refine tracks_andThen (tracks_symbol hat₃ _ _) fun _ rest₄ h₄ q₄ hat₄ => ?_
  have hs := ((h₁.trans h₂).trans h₃).trans h₄
  exact tracks_map ((ih rest₄ hs).block.later hs hfuel hat₄) _

theorem of_primary : Follows n tokens 0 primary (Grammar.primary n ts) := by
  refine .intro fun fuel p hfuel hat => ?_
  rw [primary]
  unfold Grammar.primary
  split
  · exact tracks_taking hat rfl (tracks_behind (tracks_done hat.succ _))
  · refine tracks_otherwise hat rfl ?_
    exact tracks_taking hat rfl (tracks_behind (tracks_done hat.succ _))
  · iterate 2 refine tracks_otherwise hat rfl ?_
    exact tracks_taking hat rfl (tracks_behind (tracks_done hat.succ _))
  · iterate 3 refine tracks_otherwise hat rfl ?_
    refine tracks_taking hat rfl (tracks_behind (tracks_previous hat ?_))
    exact tracks_done hat.succ _
  · iterate 3 refine tracks_otherwise hat rfl ?_
    refine tracks_taking hat rfl (tracks_behind (tracks_previous hat ?_))
    exact tracks_done hat.succ _
  · iterate 4 refine tracks_otherwise hat rfl ?_
    refine tracks_taking hat rfl (tracks_behind (tracks_previous hat ?_))
    refine tracks_andThen (tracks_symbol hat.succ _ _) fun _ rest hs q hq => ?_
    exact tracks_map (tracks_name hq _) _
  · iterate 5 refine tracks_otherwise hat rfl ?_
    refine tracks_taking hat rfl (tracks_behind (tracks_previous hat ?_))
    exact tracks_done hat.succ _
  · iterate 6 refine tracks_otherwise hat rfl ?_
    refine tracks_taking hat rfl (tracks_behind (tracks_previous hat ?_))
    exact tracks_done hat.succ _
  · iterate 7 refine tracks_otherwise hat rfl ?_
    refine tracks_taking hat rfl (tracks_behind (tracks_previous hat ?_))
    exact tracks_map (((ih _ (.tail _ _)).code .function).later (.tail _ _) hfuel hat.succ) _
  · iterate 8 refine tracks_otherwise hat rfl ?_
    refine tracks_taking hat rfl (tracks_behind ?_)
    have he := (ih _ (.tail _ _)).expression.later (.tail _ _) hfuel hat.succ
    refine tracks_andThen he fun inner rest _ q hq => ?_
    exact tracks_map (tracks_symbol hq _ _) _
  · rename_i hfalse htrue hnil hnumber hstring hsuper hthis hidentifier hfun hparen
    have hliteral : Misses isLiteral ts := misses_isLiteral hnumber hstring
    refine tracks_otherwise hat (misses_of hfalse) ?_
    refine tracks_otherwise hat (misses_of htrue) ?_
    refine tracks_otherwise hat (misses_of hnil) ?_
    refine tracks_otherwise hat hliteral ?_
    refine tracks_otherwise hat (misses_of hsuper) ?_
    refine tracks_otherwise hat (misses_of hthis) ?_
    refine tracks_otherwise hat (misses_isIdentifier hidentifier) ?_
    refine tracks_otherwise hat (misses_of hfun) ?_
    refine tracks_otherwise hat (misses_of hparen) ?_
    exact tracks_fail hat _

theorem of_callTail (callee : Expr Unit) :
    Follows n tokens 0 (Cursor.callTail callee) (Grammar.callTail n callee ts) := by
  refine .intro fun fuel p hfuel hat => ?_
  rw [Cursor.callTail]
  unfold Grammar.callTail
  split
  · refine tracks_taking hat rfl (tracks_weaken (tracks_behind ?_))
    have ha := (ih _ (.tail _ _)).arguments.later (.tail _ _) hfuel hat.succ
    refine tracks_andThen ha fun args rest₁ h₁ q₁ hat₁ => ?_
    refine tracks_andThen (tracks_symbol hat₁ _ _) fun line rest₂ h₂ q₂ hat₂ => ?_
    have hs := h₁.trans h₂
    exact ((ih rest₂ (.cons _ hs)).callTail _).later (.cons _ hs) hfuel hat₂
  · refine tracks_otherwise hat rfl (tracks_taking hat rfl (tracks_weaken (tracks_behind ?_)))
    refine tracks_andThen (tracks_name hat.succ _) fun property rest hs q hq => ?_
    exact ((ih rest (.cons _ hs)).callTail _).later (.cons _ hs) hfuel hq
  · rename_i hparen hdot
    refine tracks_otherwise hat (misses_of hparen) ?_
    exact tracks_otherwise hat (misses_of hdot) (tracks_done hat callee)

theorem of_call : Follows n tokens 1 call (Grammar.call n ts) := by
  refine .intro fun fuel p hfuel hat => ?_
  rw [call, Grammar.call]
  refine tracks_andThen (of_primary ih fuel p (by omega) hat) fun callee rest hs q hq => ?_
  exact ((ih rest hs).callTail callee).later hs hfuel hq

theorem of_unary : Follows n tokens 2 Cursor.unary (Grammar.unary n ts) := by
  refine .intro fun fuel p hfuel hat => ?_
  rw [Cursor.unary]
  unfold Grammar.unary
  split
  · refine tracks_taking hat rfl (tracks_behind (tracks_previous hat ?_))
    exact tracks_map ((ih _ (.tail _ _)).unary.later (.tail _ _) hfuel hat.succ) _
  · refine tracks_otherwise hat rfl ?_
    refine tracks_taking hat rfl (tracks_behind (tracks_previous hat ?_))
    exact tracks_map ((ih _ (.tail _ _)).unary.later (.tail _ _) hfuel hat.succ) _
  · rename_i hbang hminus
    refine tracks_otherwise hat (misses_of hbang) ?_
    refine tracks_otherwise hat (misses_of hminus) ?_
    exact of_call ih fuel p (by omega) hat

theorem of_infixTail (level : Level) (left : Expr Unit) :
    Follows n tokens 0 (Cursor.infixTail level left) (Grammar.infixTail n level left ts) := by
  refine .intro fun fuel p hfuel hat => ?_
  rw [Cursor.infixTail]
  unfold Grammar.infixTail
  split
  · exact tracks_otherwise hat rfl (tracks_done hat left)
  · rename_i t rest
    split
    · rename_i hop
      refine tracks_otherwise hat ?_ (tracks_done hat left)
      exact congrArg Option.isSome hop
    · rename_i op hop
      refine tracks_taking hat (by rw [hop]; rfl) ?_
      refine tracks_weaken (tracks_behind (tracks_previous hat ?_))
      have ho := ((ih rest (.tail t rest)).operand level).later (.tail t rest) hfuel hat.succ
      refine tracks_andThen ho fun right rest' hs q hq => ?_
      have hnode : (Entry.token t).node level left right = op.node left t.line right := by
        simp only [Entry.node, Entry.kind?, Option.bind_some, hop, Entry.line]
      rw [hnode]
      exact ((ih rest' (.cons t hs)).infixTail level _).later (.cons t hs) hfuel hq

/-- By induction on the number of levels between this one and the unary operators. -/
theorem of_operand (level : Level) :
    Follows n tokens (2 * level.height + 1) (Cursor.operand level)
      (Grammar.operand n level ts) := by
  refine .intro fun fuel p hfuel hat => ?_
  rw [Cursor.operand]
  unfold Grammar.operand
  have hpos := level.height_pos
  split
  · rename_i tighter ht
    have hlt := Level.height_tighter ht
    obtain ⟨fuel, rfl⟩ := Nat.exists_eq_add_one.2 (show 0 < fuel by omega)
    simp only [ht]
    rw [infixed, Grammar.infixed]
    have ho := of_operand tighter fuel p (by omega) hat
    refine tracks_andThen ho fun left rest hs q hq => ?_
    exact ((ih rest hs).infixTail tighter left).later (c := 0) hs (by omega) hq
  · rename_i ht
    simp only [ht]
    exact of_unary ih fuel p (by omega) hat
termination_by level.height

theorem of_expression : Follows n tokens 15 Cursor.expression (Grammar.expression n ts) := by
  refine .intro fun fuel p hfuel hat => ?_
  obtain ⟨fuel', rfl⟩ := Nat.exists_eq_add_one.2 (show 0 < fuel by omega)
  have hor : Level.or.height = 6 := rfl
  have ho := of_operand ih .or fuel' p (by omega) hat
  have hi : Tracks tokens (infixed .or (fuel' + 1) (entries tokens n) p)
      (Grammar.infixed n .or ts) := by
    rw [infixed, Grammar.infixed]
    refine tracks_andThen ho fun left rest hs q hq => ?_
    exact ((ih rest hs).infixTail .or left).later (c := 0) hs (by omega) hq
  rw [Cursor.expression, Grammar.expression]
  refine tracks_andThen hi fun target rest hs q hq => ?_
  split
  · rename_i s line rest hs
    split
    · rename_i hnone
      exact tracks_otherwise hq (congrArg Option.isSome hnone) (tracks_done hq target)
    · rename_i op hop
      refine tracks_taking hq (congrArg Option.isSome hop) ?_
      refine tracks_weaken (tracks_behind (tracks_previous hq ?_))
      have hs' := hs.trans (.tail _ rest)
      have he := (ih rest hs').expression.later hs' hfuel hq.succ
      refine tracks_andThen he fun value rest' h' q' hq' => ?_
      have hassignment : (Entry.token ⟨.symbol s, line⟩).assignment? = some op := hop
      have hline : (Entry.token ⟨.symbol s, line⟩).line = line := rfl
      rw [hassignment, Option.bind_some, hline]
      cases target.assignment? op line value with
      | some e => exact tracks_done hq' e
      | none => exact ⟨q', hq', rfl⟩
  · rename_i hsymbol
    refine tracks_otherwise hq (misses_isAssignment ?_) (tracks_done hq target)
    rintro s line rest' rfl
    exact hsymbol s line rest' hs rfl .rfl

theorem of_argumentList (count : Nat) :
    Follows n tokens 16 (Cursor.argumentList count) (Grammar.argumentList n count ts) := by
  refine .intro fun fuel p hfuel hat => ?_
  rw [Cursor.argumentList, Grammar.argumentList, complainFrom_bind hat]
  refine tracks_after ?_ _
  refine tracks_andThen (of_expression ih fuel p (by omega) hat) fun arg rest hs q hq => ?_
  split
  · rename_i line rest hs
    refine tracks_taking hq rfl (tracks_weaken (tracks_behind ?_))
    have hs' := hs.trans (.tail _ rest)
    exact tracks_map (((ih rest hs').argumentList (count + 1)).later hs' hfuel hq.succ) _
  · rename_i hcomma
    refine tracks_otherwise hq (misses_of ?_) (tracks_done hq [arg])
    rintro line rest' rfl
    exact hcomma line rest' hs rfl .rfl

theorem of_arguments : Follows n tokens 17 Cursor.arguments (Grammar.arguments n ts) := by
  refine .intro fun fuel p hfuel hat => ?_
  rw [Cursor.arguments]
  unfold Grammar.arguments
  split
  · exact tracks_seeing hat rfl (tracks_done hat [])
  · refine tracks_missing hat (misses_of ‹_›) ?_
    exact tracks_weaken (of_argumentList ih 0 fuel p (by omega) hat)

theorem of_expressionUnless (stop : Symbol) :
    Follows n tokens 16 (Cursor.expressionUnless stop) (Grammar.expressionUnless n stop ts) := by
  refine .intro fun fuel p hfuel hat => ?_
  rw [Cursor.expressionUnless]
  unfold Grammar.expressionUnless
  have he := tracks_weaken (tracks_map (of_expression ih fuel p (by omega) hat) some)
  split
  · rename_i s line hhead
    obtain ⟨rest, rfl⟩ := List.head?_eq_some_iff.1 hhead
    split
    · rename_i hstop
      subst hstop
      exact tracks_seeing hat (decide_eq_true rfl) (tracks_done hat none)
    · rename_i hstop
      refine tracks_missing hat (decide_eq_false fun h => hstop ?_) he
      exact TokenKind.symbol.inj h
  · rename_i hsymbol
    refine tracks_missing hat (misses_of ?_) he
    rintro line rest rfl
    exact hsymbol stop line rfl

theorem of_expressionStatement :
    Follows n tokens 16 expressionStatement (Grammar.expressionStatement n ts) := by
  refine .intro fun fuel p hfuel hat => ?_
  rw [expressionStatement, Grammar.expressionStatement]
  refine tracks_andThen (of_expression ih fuel p (by omega) hat) fun e rest hs q hq => ?_
  exact tracks_map (tracks_symbol hq _ _) _

theorem of_varDeclaration :
    Follows n tokens 0 Cursor.varDeclaration (Grammar.varDeclaration n ts) := by
  refine .intro fun fuel p hfuel hat => ?_
  rw [Cursor.varDeclaration, Grammar.varDeclaration]
  refine tracks_andThen (tracks_name hat _) fun x rest hs q hq => ?_
  split
  · rename_i line rest hs
    refine tracks_taking hq rfl (tracks_behind ?_)
    have hs' := hs.trans (.tail _ rest)
    have he := (ih rest hs').expression.later hs' hfuel hq.succ
    refine tracks_andThen he fun value rest' h' q' hq' => ?_
    exact tracks_map (tracks_symbol hq' _ _) _
  · rename_i hequal
    refine tracks_otherwise hq (misses_of ?_) (tracks_map (tracks_symbol hq _ _) _)
    rintro line rest' rfl
    exact hequal line rest' hs rfl .rfl

theorem of_initializer : Follows n tokens 17 Cursor.initializer (Grammar.initializer n ts) := by
  refine .intro fun fuel p hfuel hat => ?_
  rw [Cursor.initializer]
  unfold Grammar.initializer
  split
  · exact tracks_taking hat rfl (tracks_behind (tracks_done hat.succ none))
  · refine tracks_otherwise hat rfl (tracks_taking hat rfl (tracks_behind ?_))
    exact tracks_map ((ih _ (.tail _ _)).varDeclaration.later (.tail _ _) hfuel hat.succ) _
  · rename_i hsemicolon hvar
    refine tracks_otherwise hat (misses_of hsemicolon) ?_
    refine tracks_otherwise hat (misses_of hvar) ?_
    exact tracks_map (of_expressionStatement ih fuel p (by omega) hat) _

theorem of_classDeclaration :
    Follows n tokens 0 Cursor.classDeclaration (Grammar.classDeclaration n ts) := by
  refine .intro fun fuel p hfuel hat => ?_
  rw [Cursor.classDeclaration, Grammar.classDeclaration]
  refine tracks_andThen (tracks_name hat _) fun className rest₁ h₁ q₁ hat₁ => ?_
  refine tracks_andThen (tracks_superclass hat₁) fun parent rest₂ h₂ q₂ hat₂ => ?_
  refine tracks_andThen (tracks_symbol hat₂ _ _) fun _ rest₃ h₃ q₃ hat₃ => ?_
  have hs := (h₁.trans h₂).trans h₃
  exact tracks_map ((ih rest₃ hs).methods.later hs hfuel hat₃) _

theorem of_methods : Follows n tokens 0 Cursor.methods (Grammar.methods n ts) := by
  refine .intro fun fuel p hfuel hat => ?_
  rw [Cursor.methods]
  unfold Grammar.methods
  split
  · rw [bind_of_value_nil (looksAtEnd_cons hat)]
    exact tracks_map (tracks_symbol hat .rightBrace .classBodyEnd) fun _ => []
  · rw [bind_of_value_nil (looksAtEnd_nil hat)]
    exact tracks_map (tracks_symbol hat .rightBrace .classBodyEnd) fun _ => []
  · rename_i hbrace hnil
    obtain ⟨t, rest, rfl⟩ := List.exists_cons_of_ne_nil hnil
    have hmore : t.kind ≠ .symbol .rightBrace := fun ht => hbrace t.line rest (by rw [← ht])
    rw [bind_of_value_nil (looksAtEnd_cons hat), decide_eq_false hmore, if_neg Bool.false_ne_true]
    refine tracks_andThen (tracks_name hat _) fun methodName rest₁ h₁ q₁ hat₁ => ?_
    have hc := ((ih rest₁ h₁).code .method).later h₁ hfuel hat₁
    refine tracks_andThen hc fun body rest₂ h₂ q₂ hat₂ => ?_
    have hs := h₁.trans h₂
    exact tracks_map ((ih rest₂ hs).methods.later hs hfuel hat₂) _

theorem of_statement : Follows n tokens 17 Cursor.statement (Grammar.statement n ts) := by
  refine .intro fun fuel p hfuel hat => ?_
  rw [Cursor.statement]
  unfold Grammar.statement
  split
  · refine tracks_taking hat rfl (tracks_behind ?_)
    refine tracks_andThen (tracks_symbol hat.succ _ _) fun _ rest₁ h₁ q₁ hat₁ => ?_
    have hi := (ih rest₁ (.cons _ h₁)).initializer.later (.cons _ h₁) hfuel hat₁
    refine tracks_andThen hi fun initial rest₂ h₂ q₂ hat₂ => ?_
    have h₂ := h₁.trans h₂
    have hc := ((ih rest₂ (.cons _ h₂)).expressionUnless .semicolon).later (.cons _ h₂) hfuel hat₂
    refine tracks_andThen hc fun condition rest₃ h₃ q₃ hat₃ => ?_
    refine tracks_andThen (tracks_symbol hat₃ _ _) fun _ rest₄ h₄ q₄ hat₄ => ?_
    have h₄ := (h₂.trans h₃).trans h₄
    have hi := ((ih rest₄ (.cons _ h₄)).expressionUnless .rightParen).later (.cons _ h₄) hfuel hat₄
    refine tracks_andThen hi fun step rest₅ h₅ q₅ hat₅ => ?_
    refine tracks_andThen (tracks_symbol hat₅ _ _) fun _ rest₆ h₆ q₆ hat₆ => ?_
    have h₆ := (h₄.trans h₅).trans h₆
    exact tracks_map ((ih rest₆ (.cons _ h₆)).statement.later (.cons _ h₆) hfuel hat₆) _
  · refine tracks_otherwise hat rfl (tracks_taking hat rfl (tracks_behind ?_))
    refine tracks_andThen (tracks_symbol hat.succ _ _) fun _ rest₁ h₁ q₁ hat₁ => ?_
    have he := (ih rest₁ (.cons _ h₁)).expression.later (.cons _ h₁) hfuel hat₁
    refine tracks_andThen he fun condition rest₂ h₂ q₂ hat₂ => ?_
    refine tracks_andThen (tracks_symbol hat₂ _ _) fun _ rest₃ h₃ q₃ hat₃ => ?_
    have h₃ := (h₁.trans h₂).trans h₃
    have hy := (ih rest₃ (.cons _ h₃)).statement.later (.cons _ h₃) hfuel hat₃
    refine tracks_andThen hy fun yes rest₄ h₄ q₄ hat₄ => ?_
    split
    · rename_i line rest₅ h₄
      refine tracks_taking hat₄ rfl (tracks_weaken (tracks_behind ?_))
      have h₅ := (h₃.trans h₄).trans (.tail _ rest₅)
      exact tracks_map ((ih rest₅ (.cons _ h₅)).statement.later (.cons _ h₅) hfuel hat₄.succ) _
    · rename_i helse
      refine tracks_otherwise hat₄ (misses_of ?_) (tracks_done hat₄ _)
      rintro line rest' rfl
      exact helse line rest' h₄ rfl .rfl
  · iterate 2 refine tracks_otherwise hat rfl ?_
    refine tracks_taking hat rfl (tracks_behind ?_)
    have he := (ih _ (.tail _ _)).expression.later (.tail _ _) hfuel hat.succ
    refine tracks_andThen he fun e rest hs q hq => ?_
    exact tracks_map (tracks_symbol hq _ _) _
  · iterate 3 refine tracks_otherwise hat rfl ?_
    refine tracks_taking hat rfl (tracks_behind (tracks_previous hat ?_))
    have hv := ((ih _ (.tail _ _)).expressionUnless .semicolon).later (.tail _ _) hfuel hat.succ
    refine tracks_andThen hv fun value rest hs q hq => ?_
    exact tracks_map (tracks_symbol hq _ _) _
  · iterate 4 refine tracks_otherwise hat rfl ?_
    refine tracks_taking hat rfl (tracks_behind ?_)
    refine tracks_andThen (tracks_symbol hat.succ _ _) fun _ rest₁ h₁ q₁ hat₁ => ?_
    have he := (ih rest₁ (.cons _ h₁)).expression.later (.cons _ h₁) hfuel hat₁
    refine tracks_andThen he fun condition rest₂ h₂ q₂ hat₂ => ?_
    refine tracks_andThen (tracks_symbol hat₂ _ _) fun _ rest₃ h₃ q₃ hat₃ => ?_
    have hs := (h₁.trans h₂).trans h₃
    exact tracks_map ((ih rest₃ (.cons _ hs)).statement.later (.cons _ hs) hfuel hat₃) _
  · iterate 5 refine tracks_otherwise hat rfl ?_
    refine tracks_taking hat rfl (tracks_behind ?_)
    exact tracks_map ((ih _ (.tail _ _)).block.later (.tail _ _) hfuel hat.succ) _
  · rename_i hfor hif hprint hreturn hwhile hbrace
    refine tracks_otherwise hat (misses_of hfor) ?_
    refine tracks_otherwise hat (misses_of hif) ?_
    refine tracks_otherwise hat (misses_of hprint) ?_
    refine tracks_otherwise hat (misses_of hreturn) ?_
    refine tracks_otherwise hat (misses_of hwhile) ?_
    refine tracks_otherwise hat (misses_of hbrace) ?_
    exact of_expressionStatement ih fuel p (by omega) hat

omit ih in
/-- A declaration, whether or not it is recovered from. -/
theorem of_declaration {t : Token} {rest : List Token}
    (ih : ∀ us, Shrinks true us (t :: rest) → FollowsAll n tokens us)
    (hfuel : 20 * (t :: rest).length + 18 < fuel) (hat : At tokens p (t :: rest)) :
    ∃ q, At tokens q (Grammar.declaration n t rest).rest ∧
      declaration fuel (entries tokens n) p = .value (Grammar.declaration n t rest).statement q
        (Grammar.declaration n t rest).notes := by
  obtain ⟨fuel, rfl⟩ := Nat.exists_eq_add_one.2 (Nat.zero_lt_of_lt hfuel)
  have hfuel := Nat.le_of_lt_succ hfuel
  rw [declaration]
  unfold Grammar.declaration
  refine recovering_eq ?_ (by omega)
  split
  · refine tracks_taking hat rfl (tracks_behind ?_)
    exact (ih _ (.tail _ _)).classDeclaration.later (.tail _ _) hfuel hat.succ
  · refine tracks_otherwise hat rfl ?_
    rw [bind_of_value_nil (looksAtFunction_identifier hat), if_pos rfl,
      bind_of_value_nil (advance_cons hat), bind_of_value_nil (name_identifier hat.succ _)]
    have hs {u v : Token} {us : List Token} : Shrinks true us (u :: v :: us) :=
      .cons u (.of_le (Nat.le_succ _))
    have hc := ((ih _ hs).code .function).later hs hfuel hat.succ.succ
    exact tracks_behind (tracks_behind (tracks_map hc _))
  · refine tracks_otherwise hat rfl ?_
    rw [bind_of_value_nil (looksAtFunction_misses hat (by rintro ⟨⟩)), if_neg Bool.false_ne_true]
    refine tracks_taking hat rfl (tracks_behind ?_)
    exact (ih _ (.tail _ _)).varDeclaration.later (.tail _ _) hfuel hat.succ
  · rename_i hclass hvar hfun
    refine tracks_otherwise hat (misses_of fun line us h => hclass line (List.cons.inj h).1) ?_
    have hname : t.kind = .keyword .fun_ → Misses isIdentifier rest := fun ht =>
      misses_isIdentifier fun text line us => hfun t.line text line us (by rw [← ht])
    rw [bind_of_value_nil (looksAtFunction_misses hat hname), if_neg Bool.false_ne_true]
    refine tracks_otherwise hat (misses_of fun line us h => hvar line (List.cons.inj h).1) ?_
    exact of_statement ih fuel p (by omega) hat

theorem of_block : Follows n tokens 19 Cursor.block (Grammar.block n ts) := by
  refine .intro fun fuel p hfuel hat => ?_
  rw [Cursor.block]
  cases ts with
  | nil =>
    rw [bind_of_value_nil (looksAtEnd_nil hat), Grammar.block]
    exact tracks_map (tracks_symbol hat .rightBrace .blockEnd) fun _ => []
  | cons t rest =>
    rw [bind_of_value_nil (looksAtEnd_cons hat)]
    by_cases ht : t.kind = .symbol .rightBrace
    · obtain ⟨kind, line⟩ := t
      cases ht
      rw [Grammar.block]
      exact tracks_map (tracks_symbol hat .rightBrace .blockEnd) fun _ => []
    · rw [decide_eq_false ht, if_neg Bool.false_ne_true, Grammar.block_cons n ht]
      have hlt : 20 * (t :: rest).length + 18 < fuel := by omega
      obtain ⟨q, hq, hd⟩ := of_declaration ih hlt hat
      rw [bind_of_value hd]
      have hs := (Grammar.declaration n t rest).shrinks
      have hb := (ih _ hs).block.later hs hfuel hq
      exact tracks_after (tracks_within (tracks_map hb _) hs) _

end FollowsAll

theorem followsAll (n : Nat) (tokens ts : List Token) : FollowsAll n tokens ts :=
  have ih : ∀ rest, Shrinks true rest ts → FollowsAll n tokens rest :=
    fun rest _ => followsAll n tokens rest
  { expression := (FollowsAll.of_expression ih).mono (by decide)
    operand := fun level => (FollowsAll.of_operand ih level).mono (by
      have := level.height_le
      omega)
    infixTail := fun level left => (FollowsAll.of_infixTail ih level left).mono (by decide)
    unary := (FollowsAll.of_unary ih).mono (by decide)
    callTail := fun callee => (FollowsAll.of_callTail ih callee).mono (by decide)
    arguments := (FollowsAll.of_arguments ih).mono (by decide)
    argumentList := fun count => (FollowsAll.of_argumentList ih count).mono (by decide)
    code := fun kind => (FollowsAll.of_code ih kind).mono (by decide)
    block := FollowsAll.of_block ih
    methods := (FollowsAll.of_methods ih).mono (by decide)
    classDeclaration := (FollowsAll.of_classDeclaration ih).mono (by decide)
    varDeclaration := (FollowsAll.of_varDeclaration ih).mono (by decide)
    expressionUnless := fun stop => (FollowsAll.of_expressionUnless ih stop).mono (by decide)
    initializer := (FollowsAll.of_initializer ih).mono (by decide)
    statement := (FollowsAll.of_statement ih).mono (by decide) }
termination_by ts.length
decreasing_by exact ‹Shrinks true rest ts›.lt

end Cursor
end LoxScript
