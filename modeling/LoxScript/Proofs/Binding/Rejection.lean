import Mathlib
import LoxScript.Proofs.Binding.Rules
import LoxScript.Proofs.Binding.Sound
import LoxScript.Proofs.Surface.Nested

/-!
Resolution complains exactly if a rule of scoping is broken.

Each part of a program is compared with what resolution knows when it comes to that part.  The kind
of code around it and the class around it are those of the nearest function and class; of the scopes
only the innermost matters, for the names that are declared in it and for the one, if there is one,
whose initial value is being computed.
-/

namespace LoxScript
namespace Rules
open Resolve

/-! ### The surroundings of a part -/

/-- What resolution knows about the code and the class around a part. -/
def surroundings (around : List Node) : Surroundings where
  body := match around.find? Node.isFunction with
    | none => .outermost
    | some (.method m) => if m.name.text = "init" then .initializer else .method
    | some _ => .function
  classBody := match around.find? Node.isClass with
    | none => .outside
    | some (.stmt (.classDef _ none _)) => .base
    | some _ => .derived

section
variable {around : List Node} {n : Node}

theorem surroundings_cons (hf : n.isFunction = false) (hc : n.isClass = false) :
    surroundings (n :: around) = surroundings around := by
  simp only [surroundings, List.find?_cons, hf, hc]

theorem outermost_iff :
    (surroundings around).body = .outermost ↔ ∀ n ∈ around, n.isFunction = false := by
  rw [surroundings]
  cases hf : around.find? Node.isFunction with
  | none =>
    simp only [List.find?_eq_none, Bool.not_eq_true] at hf
    exact iff_of_true rfl hf
  | some n =>
    have hn := List.find?_some hf
    refine iff_of_false ?_ fun h => ?_
    · cases n with
      | method m =>
        show (if m.name.text = "init" then Body.initializer else Body.method) ≠ .outermost
        split <;> simp
      | _ => simp
    · rw [h n (List.mem_of_find?_eq_some hf)] at hn
      cases hn

theorem initializer_iff : (surroundings around).body = .initializer ↔
    ∃ line c, around.find? Node.isFunction = some (.method (.mk ⟨"init", line⟩ c)) := by
  rw [surroundings]
  cases hf : around.find? Node.isFunction with
  | none => simp
  | some n =>
    cases n with
    | method m =>
      obtain ⟨⟨text, line⟩, c⟩ := m
      show (if text = "init" then Body.initializer else Body.method) = .initializer ↔ _
      by_cases ht : text = "init"
      · subst ht
        simp
      · simp [ht]
    | _ => simp

theorem outside_iff :
    (surroundings around).classBody = .outside ↔ ∀ n ∈ around, n.isClass = false := by
  rw [surroundings]
  cases hc : around.find? Node.isClass with
  | none =>
    simp only [List.find?_eq_none, Bool.not_eq_true] at hc
    exact iff_of_true rfl hc
  | some n =>
    have hn := List.find?_some hc
    refine iff_of_false ?_ fun h => ?_
    · show (match some n with
        | none => ClassBody.outside
        | some (.stmt (.classDef _ none _)) => .base
        | some _ => .derived) ≠ .outside
      split <;> simp_all
    · rw [h n (List.mem_of_find?_eq_some hc)] at hn
      cases hn

theorem base_iff : (surroundings around).classBody = .base ↔
    ∃ x ms, around.find? Node.isClass = some (.stmt (.classDef x none ms)) := by
  rw [surroundings]
  cases hc : around.find? Node.isClass with
  | none => simp
  | some n =>
    have hn := List.find?_some hc
    cases n with
    | stmt s =>
      cases s with
      | classDef x parent ms => cases parent <;> simp
      | _ => cases hn
    | _ => cases hn

end

/-! ### Expressions -/

/-- An expression is accepted if no rule is broken in it and it does not have the variable in it
whose initial value it is to be part of. -/
def ExprRule (e : Expr Unit) : Prop :=
  ∀ around scopes, (Resolve.expr (surroundings around) scopes e).notes = [] ↔
    Sound around (.expr e) ∧ ∀ x, scopes.isPending x = true → ¬ Reads x e

/-- Expressions that are there only for their operands. -/
def isCompound : Expr Unit → Bool
  | .var _ _ | .this _ _ | .super _ _ _ | .function _ _ => false
  | _ => true

section
variable {e : Expr Unit}

theorem notes_exprs {a : Surroundings} {scopes : LocalScopes} {es : List (Expr Unit)} :
    (Resolve.exprs a scopes es).notes = [] ↔ ∀ e ∈ es, (Resolve.expr a scopes e).notes = [] := by
  induction es with
  | nil => simp [Resolve.exprs]
  | cons e es ih => simp [Resolve.exprs, ih]

theorem notes_compound (h : isCompound e = true) (a : Surroundings) (scopes : LocalScopes) :
    (Resolve.expr a scopes e).notes = [] ↔
      ∀ e' ∈ Place.operands e, (Resolve.expr a scopes e').notes = [] := by
  cases e with
  | var | this | super | function => cases h
  | call callee line arguments => simp [Resolve.expr, Place.operands, notes_exprs]
  | set object x value => simp [Resolve.expr, Place.operands, and_comm]
  | update object x op line value => simp [Resolve.expr, Place.operands, and_comm]
  | _ => simp [Resolve.expr, Place.operands]

theorem isFunction_compound (h : isCompound e = true) : (Node.expr e).isFunction = false := by
  cases e with
  | function => cases h
  | _ => rfl

theorem parts_compound (h : isCompound e = true) :
    (Node.expr e).parts = (Place.operands e).map .expr := by
  cases e with
  | function => cases h
  | _ => rfl

theorem names_of_code {n : Node} (h : n.code? = none) (hb : ∀ body, n ≠ .stmt (.block body)) :
    n.names = [] := by
  unfold Node.names
  split
  · exact absurd rfl (hb _)
  · rw [h]

theorem not_breaks_compound (h : isCompound e = true) (around : List Node) :
    ¬ Breaks around (.expr e) := by
  intro hb
  have hcode : (Node.expr e).code? = none := Option.isNone_iff_eq_none.1 (by
    have := isFunction_compound h
    unfold Node.isFunction at this
    simpa using this)
  have hnames : (Node.expr e).names = [] := names_of_code hcode (by simp)
  cases hb with
  | redeclared hdup => exact hdup (hnames ▸ List.nodup_nil)
  | thisOutside | superOutside | noSuperclass => cases h

theorem reads_compound (h : isCompound e = true) (x : String) :
    Reads x e ↔ ∃ e' ∈ Place.operands e, Reads x e' := by
  constructor
  · intro hr
    cases hr with
    | var => cases h
    | operand he hr => exact ⟨_, he, hr⟩
  · intro hr
    obtain ⟨e', he', hr⟩ := hr
    exact .operand he' hr

theorem ExprRule.of_operands (h : isCompound e = true)
    (ih : ∀ e' ∈ Place.operands e, ExprRule e') : ExprRule e := by
  intro around scopes
  have hs : surroundings (.expr e :: around) = surroundings around :=
    surroundings_cons (isFunction_compound h) rfl
  have hparts : Sound around (.expr e) ↔
      ∀ e' ∈ Place.operands e, Sound (.expr e :: around) (.expr e') := by
    rw [sound_iff, parts_compound h, List.forall_mem_map]
    exact and_iff_right (not_breaks_compound h around)
  rw [notes_compound h, hparts]
  constructor
  · intro hn
    have hrule e' he' := (ih e' he' (.expr e :: around) scopes).1 (hs ▸ hn e' he')
    refine ⟨fun e' he' => (hrule e' he').1, fun x hx hr => ?_⟩
    obtain ⟨e', he', hr⟩ := (reads_compound h x).1 hr
    exact (hrule e' he').2 x hx hr
  · intro hsound e' he'
    rw [← hs]
    refine (ih e' he' (.expr e :: around) scopes).2 ⟨hsound.1 e' he', fun x hx hr => ?_⟩
    exact hsound.2 x hx ((reads_compound h x).2 ⟨e', he', hr⟩)

end

theorem sound_of_parts_nil {around : List Node} {n : Node} (h : n.parts = []) :
    Sound around n ↔ ¬ Breaks around n := by
  rw [sound_iff, h]
  simp

theorem exprRule_var (x : Name) : ExprRule (.var x ()) := by
  intro around scopes
  have hsound : Sound around (.expr (.var x ())) := by
    rw [sound_of_parts_nil rfl]
    intro hb
    cases hb with
    | redeclared hdup => exact hdup List.nodup_nil
  have hreads (y : String) : Reads y (.var x ()) ↔ y = x.text := by
    constructor
    · intro hr
      cases hr with
      | var => rfl
      | operand he => cases he
    · rintro rfl
      exact .var x.line
  simp only [Resolve.expr, reference, Noted.notes_bind, Noted.notes_pure, List.append_nil,
    noteIf_eq_nil, hsound, true_and, hreads]
  constructor
  · rintro hx _ hp rfl
    rw [hx] at hp
    cases hp
  · intro h
    exact Bool.eq_false_iff.2 fun hp => h x.text hp rfl

theorem exprRule_this (line : Nat) : ExprRule (.this line ()) := by
  intro around scopes
  have hreads (y : String) : ¬ Reads y (.this line ()) := by
    intro hr
    cases hr with
    | operand he => cases he
  have hsound : Sound around (.expr (.this line ())) ↔
      (surroundings around).classBody ≠ .outside := by
    rw [sound_of_parts_nil rfl, Ne, outside_iff]
    refine not_congr ⟨fun hb => ?_, .thisOutside line⟩
    cases hb with
    | redeclared hdup => exact absurd List.nodup_nil hdup
    | thisOutside _ h => exact h
  simp only [Resolve.expr, Noted.notes_bind, Noted.notes_pure, List.append_nil, noteIf_eq_nil,
    beq_eq_false_iff_ne, hsound]
  exact ⟨fun h => ⟨h, fun x _ => hreads x⟩, fun h => h.1⟩

theorem exprRule_super (line : Nat) (x : Name) : ExprRule (.super line () x) := by
  intro around scopes
  have hreads (y : String) : ¬ Reads y (.super line () x) := by
    intro hr
    cases hr with
    | operand he => cases he
  have hsound : Sound around (.expr (.super line () x)) ↔
      (surroundings around).classBody ≠ .outside ∧ (surroundings around).classBody ≠ .base := by
    rw [sound_of_parts_nil rfl, Ne, Ne, outside_iff, base_iff, ← not_or]
    refine not_congr ⟨fun hb => ?_, fun h => ?_⟩
    · cases hb with
      | redeclared hdup => exact absurd List.nodup_nil hdup
      | superOutside _ _ h => exact .inl h
      | noSuperclass _ _ h => exact .inr ⟨_, _, h⟩
    · rcases h with h | ⟨y, ms, h⟩
      · exact .superOutside line x h
      · exact .noSuperclass line x h
  simp only [Resolve.expr, Noted.notes_bind, Noted.notes_pure, List.append_nil, noteIf_eq_nil,
    List.append_eq_nil_iff, beq_eq_false_iff_ne, hsound]
  exact ⟨fun h => ⟨h, fun y _ => hreads y⟩, fun h => h.1⟩

/-! ### Scopes -/

/-- The names can be declared one after the other. -/
def Fresh (scopes : LocalScopes) : List Name → Prop
  | [] => True
  | x :: rest => scopes.isRedeclared x.text = false ∧ Fresh (scopes.declare x.text true) rest

/-- The scopes once the names have been declared. -/
def declareAll (scopes : LocalScopes) (xs : List Name) : LocalScopes :=
  xs.foldl (fun scopes x => scopes.declare x.text true) scopes

theorem fresh_append (xs ys : List Name) (scopes : LocalScopes) :
    Fresh scopes (xs ++ ys) ↔ Fresh scopes xs ∧ Fresh (declareAll scopes xs) ys := by
  induction xs generalizing scopes with
  | nil => simp [Fresh, declareAll]
  | cons x xs ih =>
    simp only [List.cons_append, Fresh, ih, declareAll, List.foldl_cons, and_assoc]

/-- Outside every scope a name may be declared again. -/
theorem fresh_outermost (xs : List Name) : Fresh [] xs := by
  induction xs with
  | nil => trivial
  | cons x xs ih => exact ⟨rfl, ih⟩

theorem fresh_cons (h : LocalScope) (outer : LocalScopes) (xs : List Name) :
    Fresh (h :: outer) xs ↔ (xs.map (·.text)).Nodup ∧ ∀ x ∈ xs, h.declares x.text = false := by
  induction xs generalizing h with
  | nil => simp [Fresh]
  | cons x xs ih =>
    have hdeclares (y : Name) : LocalScope.declares ((x.text, true) :: h) y.text = false ↔
        x.text ≠ y.text ∧ h.declares y.text = false := by
      simp [LocalScope.declares]
    have hredeclared : LocalScopes.isRedeclared (h :: outer) x.text = h.declares x.text := rfl
    simp only [Fresh, LocalScopes.declare, ih, hdeclares, hredeclared, List.map_cons,
      List.nodup_cons, List.mem_map, List.forall_mem_cons]
    constructor
    · rintro ⟨hx, hnodup, hxs⟩
      refine ⟨⟨?_, hnodup⟩, hx, fun y hy => (hxs y hy).2⟩
      rintro ⟨y, hy, hyx⟩
      exact (hxs y hy).1 hyx.symm
    · rintro ⟨⟨hx, hnodup⟩, hxd, hxs⟩
      exact ⟨hxd, hnodup, fun y hy => ⟨fun hxy => hx ⟨y, hy, hxy.symm⟩, hxs y hy⟩⟩

theorem notes_declareParams (params : List Name) (scopes : LocalScopes) :
    (declareParams scopes params).notes = [] ↔ Fresh scopes params := by
  induction params generalizing scopes with
  | nil => simp [declareParams, Fresh]
  | cons p params ih => simp [declareParams, Fresh, ih, noteIf_eq_nil]

theorem value_declareParams_eq (params : List Name) (scopes : LocalScopes) :
    (declareParams scopes params).value = declareAll scopes params := by
  induction params generalizing scopes with
  | nil => rfl
  | cons p params ih => exact ih _

/-- Scopes, and the parts that they belong to, between two statements. -/
structure Context (around : List Node) (scopes : LocalScopes) : Prop where
  ready (x : String) : scopes.isPending x = false
  enclosed : scopes ≠ [] ↔ ∃ n ∈ around, n.isScope = true

theorem Context.outermost : Context [] [] := ⟨fun _ => rfl, by simp⟩

theorem isPending_declare (scopes : LocalScopes) (x : String) (ready : Bool) (y : String) :
    (scopes.declare x ready).isPending y = true ↔
      scopes ≠ [] ∧ if y = x then ready = false else scopes.isPending y = true := by
  cases scopes with
  | nil => simp [LocalScopes.declare, LocalScopes.isPending]
  | cons s outer =>
    by_cases h : y = x
    · subst h
      simp [LocalScopes.declare, LocalScopes.isPending, LocalScope.isPending]
    · rw [LocalScopes.isPending_declare_of_ne (Ne.symm h), if_neg h]
      simp

theorem declare_ne_nil (scopes : LocalScopes) (x : String) (ready : Bool) :
    scopes.declare x ready ≠ [] ↔ scopes ≠ [] := by
  cases scopes <;> simp [LocalScopes.declare]

namespace Context
variable {around : List Node} {scopes : LocalScopes}

theorem declare (h : Context around scopes) (x : String) :
    Context around (scopes.declare x true) := by
  refine ⟨fun y => Bool.eq_false_iff.2 fun hp => ?_, (declare_ne_nil scopes x true).trans h.enclosed⟩
  obtain ⟨-, hy⟩ := (isPending_declare scopes x true y).1 hp
  split at hy
  · cases hy
  · rw [h.ready y] at hy
    cases hy

theorem declareAll (h : Context around scopes) (xs : List Name) :
    Context around (declareAll scopes xs) := by
  induction xs generalizing scopes with
  | nil => exact h
  | cons x xs ih => exact ih (h.declare x.text)

theorem after (h : Context around scopes) (s : Stmt Unit) : Context around (scopes.after s) := by
  unfold LocalScopes.after
  cases s.declares? with
  | none => exact h
  | some x => exact h.declare x.text

/-- A part with a scope of its own. -/
theorem enter {n : Node} (hn : n.isScope = true) (scopes : LocalScopes) :
    Context (n :: around) ([] :: scopes) :=
  ⟨fun _ => rfl, iff_of_true (List.cons_ne_nil _ _) ⟨n, List.mem_cons_self, hn⟩⟩

/-- A part in which the scopes stay as they are. -/
theorem inside {n : Node} (h : Context around scopes) (hn : n.isScope = false) :
    Context (n :: around) scopes := by
  refine ⟨h.ready, h.enclosed.trans ?_⟩
  simp [hn]

end Context

/-! ### Statements -/

/-- A statement is accepted if it declares no name for the second time and no rule is broken in
it. -/
def StmtRule (s : Stmt Unit) : Prop :=
  ∀ around scopes, Context around scopes →
    ((Resolve.stmt (surroundings around) scopes s).notes = [] ↔
      (∀ x ∈ s.declares?, scopes.isRedeclared x.text = false) ∧ Sound around (.stmt s))

theorem notes_stmts {ss : List (Stmt Unit)} (h : ∀ s ∈ ss, StmtRule s) {around : List Node}
    {scopes : LocalScopes} (hc : Context around scopes) :
    (Resolve.stmts (surroundings around) scopes ss).notes = [] ↔
      Fresh scopes (declared ss) ∧ ∀ s ∈ ss, Sound around (.stmt s) := by
  induction ss generalizing scopes with
  | nil => simp [Resolve.stmts, declared, Fresh]
  | cons s ss ih =>
    have hs := h s List.mem_cons_self around scopes hc
    have hss := ih (fun s' hs' => h s' (List.mem_cons_of_mem s hs')) (hc.after s)
    have hfresh : Fresh scopes (declared (s :: ss)) ↔
        (∀ x ∈ s.declares?, scopes.isRedeclared x.text = false) ∧
          Fresh (scopes.after s) (declared ss) := by
      unfold declared LocalScopes.after
      cases hd : s.declares? with
      | none => simp [hd]
      | some x => simp [hd, Fresh]
    simp only [Resolve.stmts, Noted.notes_bind, Noted.notes_pure, List.append_nil,
      List.append_eq_nil_iff, hs, hss, hfresh, List.forall_mem_cons]
    constructor
    · rintro ⟨⟨hx, hsound⟩, hrest, hsounds⟩
      exact ⟨⟨hx, hrest⟩, hsound, hsounds⟩
    · rintro ⟨⟨hx, hrest⟩, hsound, hsounds⟩
      exact ⟨⟨hx, hsound⟩, hrest, hsounds⟩

theorem parts_function {n : Node} {c : Code Unit} (hn : n.code? = some c) :
    n.parts = c.body.map .stmt := by
  obtain ⟨params, body⟩ := c
  unfold Node.code? at hn
  split at hn <;> cases hn <;> rfl

theorem breaks_function {around : List Node} {n : Node} {c : Code Unit} (hn : n.code? = some c) :
    Breaks around n ↔ ¬ (n.names.map (·.text)).Nodup := by
  constructor
  · intro hb
    cases hb with
    | redeclared hdup => exact hdup
    | ownInitializer | returnOutside | returnFromInitializer | ownSuperclass => cases hn
    | thisOutside | superOutside | noSuperclass => cases hn
  · exact .redeclared

theorem sound_function {around : List Node} {n : Node} {c : Code Unit} (hn : n.code? = some c) :
    Sound around n ↔
      (n.names.map (·.text)).Nodup ∧ ∀ s ∈ c.body, Sound (n :: around) (.stmt s) := by
  rw [sound_iff, breaks_function hn, parts_function hn, Classical.not_not, List.forall_mem_map]

/-- The code of a function is accepted if its scope declares no name twice and no rule is broken in
its body. -/
theorem notes_code {c : Code Unit} (h : ∀ s ∈ c.body, StmtRule s) {around : List Node} {n : Node}
    (hn : n.code? = some c) {body : Body}
    (hs : surroundings (n :: around) = { surroundings around with body }) (scopes : LocalScopes) :
    (Resolve.code (surroundings around) body scopes c).notes = [] ↔ Sound around n := by
  rw [sound_function hn]
  obtain ⟨params, ss⟩ := c
  have h : ∀ s ∈ ss, StmtRule s := h
  have hscope : n.isScope = true := by
    unfold Node.isScope
    split
    · rfl
    · simp [Node.isFunction, hn]
  have hnames : n.names = params ++ declared ss := by
    unfold Node.names
    split
    · cases hn
    · rw [hn]
  have hc : Context (n :: around) (declareAll ([] :: scopes) params) :=
    (Context.enter hscope scopes).declareAll params
  have hnodup : ((params ++ declared ss).map (·.text)).Nodup ↔
      Fresh ([] :: scopes) (params ++ declared ss) := by
    rw [fresh_cons]
    exact (and_iff_left fun _ _ => rfl).symm
  have hbody := notes_stmts h hc
  simp only [Resolve.code, Noted.notes_bind, Noted.notes_pure, List.append_nil,
    List.append_eq_nil_iff, notes_declareParams, value_declareParams_eq, ← hs]
  rw [hbody, hnames, hnodup, fresh_append, and_assoc, Code.body]

theorem notes_optionalExpr {o : Option (Expr Unit)} {a : Surroundings} {scopes : LocalScopes} :
    (Resolve.optionalExpr a scopes o).notes = [] ↔
      ∀ e ∈ o, (Resolve.expr a scopes e).notes = [] := by
  cases o <;> simp [Resolve.optionalExpr]

/-- Statements that break no rule but that of their names. -/
def isSimple : Stmt Unit → Bool
  | .var _ _ | .ret _ _ | .classDef _ _ _ => false
  | _ => true

section
variable {around : List Node} {scopes : LocalScopes}

theorem breaks_simple {s : Stmt Unit} (h : isSimple s = true) :
    Breaks around (.stmt s) ↔ ¬ ((Node.stmt s).names.map (·.text)).Nodup := by
  constructor
  · intro hb
    cases hb with
    | redeclared hdup => exact hdup
    | ownInitializer | returnOutside | returnFromInitializer | ownSuperclass => cases h
  · exact .redeclared

theorem sound_simple {s : Stmt Unit} (h : isSimple s = true) (hn : (Node.stmt s).names = []) :
    Sound around (.stmt s) ↔ ∀ m ∈ (Node.stmt s).parts, Sound (.stmt s :: around) m := by
  rw [sound_iff]
  refine and_iff_right ?_
  rw [breaks_simple h, hn]
  exact not_not_intro List.nodup_nil

theorem isFunction_of_isScope {n : Node} (h : n.isScope = false) : n.isFunction = false := by
  unfold Node.isScope at h
  split at h
  · cases h
  · exact h

/-- Expressions in a statement are resolved in the scopes of the statement. -/
theorem ExprRule.notes_in {e : Expr Unit} (h : ExprRule e) (hc : Context around scopes)
    {n : Node} (hs : n.isScope = false) (hn : n.isClass = false) :
    (Resolve.expr (surroundings around) scopes e).notes = [] ↔ Sound (n :: around) (.expr e) := by
  rw [← surroundings_cons (isFunction_of_isScope hs) hn, h (n :: around) scopes]
  refine and_iff_left fun x hx => ?_
  rw [hc.ready x] at hx
  cases hx

theorem StmtRule.notes_in {s : Stmt Unit} (h : StmtRule s) (hd : s.declares? = none)
    (hc : Context around scopes) {n : Node} (hs : n.isScope = false) (hn : n.isClass = false) :
    (Resolve.stmt (surroundings around) scopes s).notes = [] ↔ Sound (n :: around) (.stmt s) := by
  rw [← surroundings_cons (isFunction_of_isScope hs) hn, h (n :: around) scopes (hc.inside hs), hd]
  exact and_iff_right nofun

theorem StmtRule.expression {e : Expr Unit} (h : ExprRule e) : StmtRule (.expression e) := by
  intro around scopes hc
  rw [sound_simple rfl rfl]
  simp [Resolve.stmt, h.notes_in hc (n := .stmt (.expression e)) rfl rfl, Node.parts,
    Stmt.declares?]

theorem StmtRule.print {e : Expr Unit} (h : ExprRule e) : StmtRule (.print e) := by
  intro around scopes hc
  rw [sound_simple rfl rfl]
  simp [Resolve.stmt, h.notes_in hc (n := .stmt (.print e)) rfl rfl, Node.parts, Stmt.declares?]

theorem StmtRule.loop {e : Expr Unit} {body : Stmt Unit} (h : ExprRule e) (hb : StmtRule body)
    (hd : body.declares? = none) : StmtRule (.loop e body) := by
  intro around scopes hc
  rw [sound_simple rfl rfl]
  simp [Resolve.stmt, h.notes_in hc (n := .stmt (.loop e body)) rfl rfl,
    hb.notes_in hd hc (n := .stmt (.loop e body)) rfl rfl, Node.parts, Stmt.declares?]

theorem StmtRule.branch {e : Expr Unit} {yes : Stmt Unit} {no : Option (Stmt Unit)}
    (h : ExprRule e) (hy : StmtRule yes) (hyd : yes.declares? = none)
    (hn : ∀ s ∈ no, StmtRule s ∧ s.declares? = none) : StmtRule (.branch e yes no) := by
  intro around scopes hc
  have hno : (Resolve.optionalStmt (surroundings around) scopes no).notes = [] ↔
      ∀ s ∈ no, Sound (.stmt (.branch e yes no) :: around) (.stmt s) := by
    cases no with
    | none => simp [Resolve.optionalStmt]
    | some s =>
      obtain ⟨hs, hsd⟩ := hn s rfl
      simp [Resolve.optionalStmt, hs.notes_in hsd hc (n := .stmt (.branch e yes (some s))) rfl rfl]
  rw [sound_simple rfl rfl]
  simp [Resolve.stmt, h.notes_in hc (n := .stmt (.branch e yes no)) rfl rfl,
    hy.notes_in hyd hc (n := .stmt (.branch e yes no)) rfl rfl, hno, Node.parts, Stmt.declares?]

theorem StmtRule.block {body : List (Stmt Unit)} (h : ∀ s ∈ body, StmtRule s) :
    StmtRule (.block body) := by
  intro around scopes hc
  have hs : surroundings (.stmt (.block body) :: around) = surroundings around :=
    surroundings_cons rfl rfl
  have hinner : Context (.stmt (.block body) :: around) ([] :: scopes) := .enter rfl scopes
  have hb := notes_stmts h hinner
  rw [hs] at hb
  have hnodup : Fresh ([] :: scopes) (declared body) ↔ ((declared body).map (·.text)).Nodup := by
    rw [fresh_cons]
    exact and_iff_left fun _ _ => rfl
  simp only [Resolve.stmt, Noted.notes_bind, Noted.notes_pure, List.append_nil, hb, hnodup]
  rw [sound_iff, breaks_simple rfl, Classical.not_not]
  simp [Node.names, Node.parts, Stmt.declares?]

theorem StmtRule.function {x : Name} {c : Code Unit} (h : ∀ s ∈ c.body, StmtRule s) :
    StmtRule (.function x c) := by
  intro around scopes hc
  have hs : surroundings (.stmt (.function x c) :: around) =
      { surroundings around with body := .function } := rfl
  have hb := notes_code h (n := .stmt (.function x c)) rfl hs (scopes.declare x.text true)
  simp only [Resolve.stmt, Noted.notes_bind, Noted.notes_pure, List.append_nil,
    List.append_eq_nil_iff, noteIf_eq_nil, hb]
  simp [Stmt.declares?]

/-- The initial value of a local variable may not read that variable; any other name that it reads
has its value already. -/
theorem StmtRule.var {x : Name} {initial : Option (Expr Unit)} (h : ∀ e ∈ initial, ExprRule e) :
    StmtRule (.var x initial) := by
  intro around scopes hc
  cases initial with
  | none =>
    have hb : ¬ Breaks around (.stmt (.var x none)) := by
      intro hb
      cases hb with
      | redeclared hdup => exact hdup List.nodup_nil
    simp [Resolve.stmt, Resolve.optionalExpr, noteIf_eq_nil, Stmt.declares?, sound_of_parts_nil,
      Node.parts, hb]
  | some e =>
    have hb : Breaks around (.stmt (.var x (some e))) ↔ scopes ≠ [] ∧ Reads x.text e := by
      rw [hc.enclosed]
      constructor
      · intro hb
        cases hb with
        | redeclared hdup => exact absurd List.nodup_nil hdup
        | ownInitializer hl hr => exact ⟨hl, hr⟩
      · intro hb
        exact .ownInitializer hb.1 hb.2
    have hpending (y : String) : (scopes.declare x.text false).isPending y = true ↔
        scopes ≠ [] ∧ y = x.text := by
      rw [isPending_declare, hc.ready y]
      refine and_congr_right fun _ => ?_
      by_cases hy : y = x.text <;> simp [hy]
    have hs : surroundings (.stmt (.var x (some e)) :: around) = surroundings around :=
      surroundings_cons rfl rfl
    have he := h e rfl (.stmt (.var x (some e)) :: around) (scopes.declare x.text false)
    have hsound : Sound around (.stmt (.var x (some e))) ↔
        ¬ (scopes ≠ [] ∧ Reads x.text e) ∧ Sound (.stmt (.var x (some e)) :: around) (.expr e) := by
      rw [sound_iff, hb]
      simp only [Node.parts, Option.toList_some, List.map_cons, List.map_nil,
        List.forall_mem_singleton]
    have hreads : (∀ y, scopes ≠ [] ∧ y = x.text → ¬ Reads y e) ↔
        ¬ (scopes ≠ [] ∧ Reads x.text e) := by
      constructor
      · intro hr hlocal
        exact hr x.text ⟨hlocal.1, rfl⟩ hlocal.2
      · rintro hr _ ⟨hlocal, rfl⟩ hx
        exact hr ⟨hlocal, hx⟩
    simp only [Resolve.stmt, Resolve.optionalExpr, Noted.notes_bind, Noted.notes_pure,
      List.append_nil, List.append_eq_nil_iff, noteIf_eq_nil, hs ▸ he, hpending, hreads, hsound]
    simp [Stmt.declares?, and_comm]

theorem StmtRule.ret {line : Nat} {value : Option (Expr Unit)} (h : ∀ e ∈ value, ExprRule e) :
    StmtRule (.ret line value) := by
  intro around scopes hc
  have hb : ¬ Breaks around (.stmt (.ret line value)) ↔
      (surroundings around).body ≠ .outermost ∧
        ¬ ((surroundings around).body = .initializer ∧ value.isSome = true) := by
    rw [Ne, outermost_iff, initializer_iff, ← not_or]
    refine not_congr ⟨fun hb => ?_, fun hb => ?_⟩
    · cases hb with
      | redeclared hdup => exact absurd List.nodup_nil hdup
      | returnOutside _ _ hnone => exact .inl hnone
      | returnFromInitializer hfind => exact .inr ⟨⟨_, _, hfind⟩, rfl⟩
    · rcases hb with hb | ⟨⟨line', c, hb⟩, hv⟩
      · exact .returnOutside line value hb
      · obtain ⟨e, rfl⟩ := Option.isSome_iff_exists.1 hv
        exact .returnFromInitializer hb
  have hv : (∀ e ∈ value, (Resolve.expr (surroundings around) scopes e).notes = []) ↔
      ∀ m ∈ (Node.stmt (.ret line value)).parts, Sound (.stmt (.ret line value) :: around) m := by
    simp only [Node.parts, List.forall_mem_map, Option.mem_toList]
    exact forall_congr' fun e => forall_congr' fun he =>
      (h e he).notes_in hc (n := .stmt (.ret line value)) rfl rfl
  simp only [Resolve.stmt, Noted.notes_bind, Noted.notes_pure, List.append_nil,
    List.append_eq_nil_iff, noteIf_eq_nil, notes_optionalExpr, hv]
  rw [sound_iff, hb]
  simp [Stmt.declares?, and_assoc]

/-! ### Functions and classes -/

theorem ExprRule.function {line : Nat} {c : Code Unit} (h : ∀ s ∈ c.body, StmtRule s) :
    ExprRule (.function line c) := by
  intro around scopes
  have hs : surroundings (.expr (.function line c) :: around) =
      { surroundings around with body := .function } := rfl
  have hreads (x : String) : ¬ Reads x (.function line c) := by
    intro hr
    cases hr with
    | operand he => cases he
  have hcode := notes_code h (n := .expr (.function line c)) rfl hs scopes
  simp only [Resolve.expr, Noted.notes_bind, Noted.notes_pure, List.append_nil, hcode]
  exact (and_iff_left fun x _ => hreads x).symm

/-- The kind of code that a method is. -/
theorem surroundings_method (x : Name) (c : Code Unit) (around : List Node) :
    surroundings (.method (.mk x c) :: around) =
      { surroundings around with
        body := if x.text = "init" then .initializer else .method } := rfl

theorem notes_methods {ms : List (Method Unit)} (h : ∀ m ∈ ms, ∀ s ∈ m.code.body, StmtRule s)
    (around : List Node) (scopes : LocalScopes) :
    (Resolve.methods (surroundings around) scopes ms).notes = [] ↔
      ∀ m ∈ ms, Sound around (.method m) := by
  induction ms with
  | nil => simp [Resolve.methods]
  | cons m ms ih =>
    obtain ⟨x, c⟩ := m
    have hbody : ∀ s ∈ c.body, StmtRule s := h (.mk x c) List.mem_cons_self
    have hcode := notes_code hbody (n := .method (.mk x c)) rfl
      (surroundings_method x c around) scopes
    have hms := ih fun m hm => h m (List.mem_cons_of_mem _ hm)
    simp only [Resolve.methods, Noted.notes_bind, Noted.notes_pure, List.append_nil,
      List.append_eq_nil_iff, hcode, hms, List.forall_mem_cons]

theorem StmtRule.classDef {x : Name} {parent : Option (Name × Unit)} {ms : List (Method Unit)}
    (h : ∀ m ∈ ms, ∀ s ∈ m.code.body, StmtRule s) : StmtRule (.classDef x parent ms) := by
  intro around scopes hc
  have hms := notes_methods h (.stmt (.classDef x parent ms) :: around)
  cases parent with
  | none =>
    have hb : ¬ Breaks around (.stmt (.classDef x none ms)) := by
      intro hb
      cases hb with
      | redeclared hdup => exact hdup List.nodup_nil
    have hs : surroundings (.stmt (.classDef x none ms) :: around) =
        { surroundings around with classBody := .base } := rfl
    rw [hs] at hms
    simp only [Resolve.stmt, Noted.notes_bind, Noted.notes_pure, List.append_nil,
      List.append_eq_nil_iff, noteIf_eq_nil, hms]
    rw [sound_iff]
    simp [Stmt.declares?, Node.parts, hb]
  | some y =>
    obtain ⟨y, ⟨⟩⟩ := y
    have hb : Breaks around (.stmt (.classDef x (some (y, ())) ms)) ↔ y.text = x.text := by
      refine ⟨fun hb => ?_, .ownSuperclass⟩
      cases hb with
      | redeclared hdup => exact absurd List.nodup_nil hdup
      | ownSuperclass h => exact h
    have hs : surroundings (.stmt (.classDef x (some (y, ())) ms) :: around) =
        { surroundings around with classBody := .derived } := rfl
    rw [hs] at hms
    simp only [Resolve.stmt, Noted.notes_bind, Noted.notes_pure, List.append_nil,
      List.append_eq_nil_iff, noteIf_eq_nil, hms, reference, (hc.declare x.text).ready y.text,
      beq_eq_false_iff_ne]
    rw [sound_iff, hb]
    simp [Stmt.declares?, Node.parts]

end

/-! ### Programs -/

mutual

theorem exprRule : (e : Expr Unit) → Nested.expr e → ExprRule e
  | .literal _, _ => .of_operands rfl nofun
  | .grouping inner, h => .of_operands rfl (List.forall_mem_singleton.2 (exprRule inner h))
  | .unary _ _ operand, h => .of_operands rfl (List.forall_mem_singleton.2 (exprRule operand h))
  | .binary left _ _ right, h =>
    .of_operands rfl (List.forall_mem_cons.2 ⟨exprRule left h.1,
      List.forall_mem_singleton.2 (exprRule right h.2)⟩)
  | .logical left _ _ right, h =>
    .of_operands rfl (List.forall_mem_cons.2 ⟨exprRule left h.1,
      List.forall_mem_singleton.2 (exprRule right h.2)⟩)
  | .var x _, _ => exprRule_var x
  | .assign _ _ value, h => .of_operands rfl (List.forall_mem_singleton.2 (exprRule value h))
  | .call callee _ arguments, h =>
    .of_operands rfl (List.forall_mem_cons.2 ⟨exprRule callee h.1, exprRules arguments h.2⟩)
  | .get object _, h => .of_operands rfl (List.forall_mem_singleton.2 (exprRule object h))
  | .set object _ value, h =>
    .of_operands rfl (List.forall_mem_cons.2 ⟨exprRule object h.1,
      List.forall_mem_singleton.2 (exprRule value h.2)⟩)
  | .update object _ _ _ value, h =>
    .of_operands rfl (List.forall_mem_cons.2 ⟨exprRule object h.1,
      List.forall_mem_singleton.2 (exprRule value h.2)⟩)
  | .this line _, _ => exprRule_this line
  | .super line _ x, _ => exprRule_super line x
  | .function _ body, h => .function (codeRule body h)

theorem exprRules : (es : List (Expr Unit)) → Nested.exprs es → ∀ e ∈ es, ExprRule e
  | [], _ => nofun
  | e :: es, h => List.forall_mem_cons.2 ⟨exprRule e h.1, exprRules es h.2⟩

theorem optionalExprRule : (o : Option (Expr Unit)) → Nested.optionalExpr o →
    ∀ e ∈ o, ExprRule e
  | none, _ => nofun
  | some e, h => by
    rintro _ ⟨⟩
    exact exprRule e h

theorem codeRule : (c : Code Unit) → Nested.code c → ∀ s ∈ c.body, StmtRule s
  | .mk _ body, h => stmtRules body h

theorem methodRules : (ms : List (Method Unit)) → Nested.methods ms →
    ∀ m ∈ ms, ∀ s ∈ m.code.body, StmtRule s
  | [], _ => nofun
  | .mk _ body :: ms, h => List.forall_mem_cons.2 ⟨codeRule body h.1, methodRules ms h.2⟩

theorem stmtRule : (s : Stmt Unit) → Nested.stmt s → StmtRule s
  | .expression e, h => .expression (exprRule e h)
  | .print e, h => .print (exprRule e h)
  | .var _ initial, h => .var (optionalExprRule initial h)
  | .block body, h => .block (stmtRules body h)
  | .branch condition yes no, h =>
    .branch (exprRule condition h.1) (stmtRule yes h.2.1.2) h.2.1.1 (optionalStmtRule no h.2.2)
  | .loop condition body, h => .loop (exprRule condition h.1) (stmtRule body h.2.2) h.2.1
  | .function _ body, h => .function (codeRule body h)
  | .ret _ value, h => .ret (optionalExprRule value h)
  | .classDef _ _ ms, h => .classDef (methodRules ms h)

theorem optionalStmtRule : (o : Option (Stmt Unit)) → Nested.optionalStmt o →
    ∀ s ∈ o, StmtRule s ∧ s.declares? = none
  | none, _ => nofun
  | some s, h => by
    rintro _ ⟨⟩
    exact ⟨stmtRule s h.2, h.1⟩

theorem stmtRules : (ss : List (Stmt Unit)) → Nested.stmts ss → ∀ s ∈ ss, StmtRule s
  | [], _ => nofun
  | s :: ss, h => List.forall_mem_cons.2 ⟨stmtRule s h.1, stmtRules ss h.2⟩

end

/-- Of the names of a whole program none is local, so that they may be declared again. -/
theorem accepted_iff {program : List (Stmt Unit)} (h : Nested.stmts program) :
    (Resolve.program program).notes = [] ↔ ∀ s ∈ program, Sound [] (.stmt s) :=
  (notes_stmts (stmtRules program h) Context.outermost).trans
    (and_iff_right (fresh_outermost (declared program)))

end Rules

open Rules in
/-- Of a program that was read without complaints, resolution complains exactly if it breaks a rule
of scoping somewhere. -/
theorem Resolve.rejects_iff {endLine : Nat} {ts : List Token} {P : List (Stmt Unit)}
    (h : Grammar.program endLine ts = (P, [])) : (program P).notes ≠ [] ↔ IllFormed P := by
  rw [Ne, accepted_iff (Grammar.program_nested h), ← not_illFormed, Classical.not_not]

/-- `var g; var g; class A { init(n) { fun k() { return n; } return; } }` and, in a block,
`var x = (x = nil); { var x; }`. -/
def Resolve.unusual : List (Stmt Unit) :=
  let k : Stmt Unit := .function ⟨"k", 1⟩ (.mk [] [.ret 1 (some (.var ⟨"n", 1⟩ ()))])
  let x : Expr Unit := .grouping (.assign ⟨"x", 1⟩ () (.literal .nil))
  [.var ⟨"g", 1⟩ none, .var ⟨"g", 1⟩ none,
    .classDef ⟨"A", 1⟩ none [.mk ⟨"init", 1⟩ (.mk [⟨"n", 1⟩] [k, .ret 1 none])],
    .block [.var ⟨"x", 1⟩ (some x), .block [.var ⟨"x", 1⟩ none]]]

open Rules in
theorem Resolve.rejects_iff_unusual :
    Grammar.program 1 ((⟨fun _ => 1, fun _ _ => ""⟩ : Layout).stmts unusual []) = (unusual, []) ∧
      ¬ IllFormed unusual :=
  have hread : Grammar.program 1 ((⟨fun _ => 1, fun _ _ => ""⟩ : Layout).stmts unusual []) =
      (unusual, []) := by cbv
  have hnotes : (program unusual).notes = [] := by cbv
  ⟨hread, fun hill => (rejects_iff hread).2 hill hnotes⟩

end LoxScript
