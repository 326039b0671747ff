import LoxScript.Proofs.Joined.Reading
import LoxScript.Proofs.Joined.Text
import LoxScript.Session

/-!
Two program texts on lines of their own, read as one.

If neither text is complained about, the joined text is not, and it is read as the statements of
the first and then those of the second, on the lines they have moved to.
-/

namespace LoxScript

namespace Scan

theorem place_append (line : Nat) (ss ss' : List Segment) :
    place line (ss ++ ss') =
      { tokens := (place line ss).tokens ++ (place (place line ss).endLine ss').tokens
        endLine := (place (place line ss).endLine ss').endLine
        diagnostics :=
          (place line ss).diagnostics ++ (place (place line ss).endLine ss').diagnostics } := by
  induction ss generalizing line with
  | nil => simp [place]
  | cons s rest ih => simp [place, ih]

/-- Segments that start on a later line. -/
theorem place_add (k line : Nat) (ss : List Segment) :
    place (line + k) ss =
      { tokens := (place line ss).tokens.map (·.renumber (· + k))
        endLine := (place line ss).endLine + k
        diagnostics := (place line ss).diagnostics.map (·.renumber (· + k)) } := by
  induction ss generalizing line with
  | nil => simp [place]
  | cons s rest ih =>
    have hline : line + k + s.newlines = line + s.newlines + k := Nat.add_right_comm _ _ _
    simp only [place, hline, ih, List.map_append]
    cases s.token? <;> cases s.complaint? <;> rfl

theorem endLine_place (line : Nat) (ss : List Segment) :
    (place line ss).endLine = line + (ss.flatMap Segment.text).count '\n' := by
  induction ss generalizing line with
  | nil => rfl
  | cons s rest ih =>
    simp only [place, ih, List.flatMap_cons, List.count_append, Segment.newlines, Nat.add_assoc]

theorem complaint?_of_place {line : Nat} {ss : List Segment}
    (h : (place line ss).diagnostics = []) : ∀ s ∈ ss, s.complaint? = none := by
  induction ss generalizing line with
  | nil => nofun
  | cons s rest ih =>
    simp only [place, List.append_eq_nil_iff, Option.toList_eq_nil_iff,
      Option.map_eq_none_iff] at h
    exact List.forall_mem_cons.2 ⟨h.1, ih h.2⟩

end Scan

/-- The first text and a newline, in front of the second. -/
def joined (first second : String) : String := first ++ "\n" ++ second

/-- The number of lines that the second of two joined texts moves down. -/
def seam (first : String) : Nat := first.toList.count '\n' + 1

theorem Scan.ofText_joined {first second : String} (h : (ofText first).diagnostics = []) :
    ofText (joined first second) =
      { tokens := (ofText first).tokens ++
          (ofText second).tokens.map (·.renumber (· + seam first))
        endLine := (ofText second).endLine + seam first
        diagnostics := (ofText second).diagnostics.map (·.renumber (· + seam first)) } := by
  have hsegments := segments_join (complaint?_of_place h) second.toList
  have hend : (place 1 (segments first.toList)).endLine + 1 = 1 + seam first := by
    rw [endLine_place, text_segments]
    rfl
  have hnewline (line : Nat) (ss : List Segment) :
      place line (.newline :: ss) = place (line + 1) ss := rfl
  have htext : (joined first second).toList = first.toList ++ '\n' :: second.toList := by
    simp [joined]
  unfold ofText at h ⊢
  rw [htext, hsegments, place_append, hnewline, hend, place_add, h]
  rfl

/-- Both texts are read as before. -/
theorem Reading.ofText_joined {first second : String} (h₁ : (ofText first).diagnostics = [])
    (h₂ : (ofText second).diagnostics = []) :
    ofText (joined first second) =
      { statements := (ofText first).statements ++
          Renumber.stmts (· + seam first) (ofText second).statements
        diagnostics := [] } := by
  simp only [ofText, List.append_eq_nil_iff] at h₁ h₂ ⊢
  obtain ⟨hscan₁, hparse₁⟩ := h₁
  obtain ⟨hscan₂, hparse₂⟩ := h₂
  rw [Scan.ofText_joined hscan₁, hscan₂]
  generalize Scan.ofText first = a at hparse₁
  generalize hb : Scan.ofText second = b at hparse₂
  generalize seam first = k
  have hafter : Grammar.program (b.endLine + k) (b.tokens.map (·.renumber (· + k))) =
      (Renumber.stmts (· + k) (Grammar.program b.endLine b.tokens).1, []) := by
    have hnil : ∀ l r, ([] : List Token) = ⟨.keyword .else_, l⟩ :: r → False := nofun
    have h := Grammar.program_moved (f := (· + k)) b.endLine (b.endLine + k) hnil b.tokens hparse₂
    rwa [moved, List.append_nil, Grammar.program, List.append_nil] at h
  have helse : ∀ l r, b.tokens.map (·.renumber (· + k)) = ⟨.keyword .else_, l⟩ :: r → False := by
    intro l r he
    obtain ⟨t, ts, hts, ht, -⟩ := List.map_eq_cons_iff.1 he
    obtain ⟨kind, line⟩ := t
    cases ht
    exact Grammar.program_else _ _ _ (hts ▸ hparse₂)
  have hbefore := Grammar.program_moved (f := id) a.endLine (b.endLine + k) helse a.tokens hparse₁
  rw [moved, Token.renumber_id, List.map_id, hafter, Renumber.stmts_id] at hbefore
  simp only [hbefore, List.map_nil, List.append_nil]

/-- A value and the complaints about it, on other lines. -/
def Noted.moved {α β : Type} (f : Nat → Nat) (F : α → β) (x : Noted α) : Noted β :=
  ⟨F x.value, x.notes.map (·.renumber f)⟩

namespace Resolve
open Noted

section
variable {α α' β β' : Type} {f : Nat → Nat}

theorem moved_bind {F : α → β} {G : α' → β'} {x : Noted α} {y : Noted β} {g : α → Noted α'}
    {g' : β → Noted β'} (hx : y = x.moved f F) (hg : ∀ v, g' (F v) = (g v).moved f G) :
    (y >>= g') = (x >>= g).moved f G := by
  subst hx
  show Noted.mk (g' (F x.value)).value (x.notes.map (·.renumber f) ++ (g' (F x.value)).notes) =
    Noted.mk _ ((x.notes ++ (g x.value).notes).map (·.renumber f))
  rw [hg, List.map_append]
  rfl

theorem moved_noteIf (condition : Bool) (t : Token) (m : ScopeMistake) :
    noteIf condition (t.renumber f) m = (noteIf condition t m).moved f id := by
  cases condition <;> rfl

theorem moved_reference (scopes : LocalScopes) (x : Name) :
    reference scopes (x.renumber f) = (reference scopes x).moved f id :=
  moved_bind (moved_noteIf _ x.token _) fun _ => rfl

theorem moved_declareParams (scopes : LocalScopes) (ps : List Name) :
    declareParams scopes (ps.map (·.renumber f)) = (declareParams scopes ps).moved f id := by
  induction ps generalizing scopes with
  | nil => rfl
  | cons p rest ih => exact moved_bind (moved_noteIf _ p.token _) fun _ => ih _

end

mutual

theorem moved_expr (f : Nat → Nat) (around : Surroundings) (scopes : LocalScopes) :
    (e : Expr Unit) → expr around scopes (Renumber.expr f e) =
      (expr around scopes e).moved f (Renumber.expr f)
  | .literal _ => rfl
  | .grouping inner => moved_bind (moved_expr f around scopes inner) fun _ => rfl
  | .unary _ _ operand => moved_bind (moved_expr f around scopes operand) fun _ => rfl
  | .binary left _ _ right =>
    moved_bind (moved_expr f around scopes left) fun _ =>
    moved_bind (moved_expr f around scopes right) fun _ => rfl
  | .logical left _ _ right =>
    moved_bind (moved_expr f around scopes left) fun _ =>
    moved_bind (moved_expr f around scopes right) fun _ => rfl
  | .var x _ => moved_bind (moved_reference scopes x) fun _ => rfl
  | .assign _ _ value => moved_bind (moved_expr f around scopes value) fun _ => rfl
  | .call callee _ arguments =>
    moved_bind (moved_expr f around scopes callee) fun _ =>
    moved_bind (moved_exprs f around scopes arguments) fun _ => rfl
  | .get object _ => moved_bind (moved_expr f around scopes object) fun _ => rfl
  | .set object _ value =>
    moved_bind (moved_expr f around scopes value) fun _ =>
    moved_bind (moved_expr f around scopes object) fun _ => rfl
  | .update object _ _ _ value =>
    moved_bind (moved_expr f around scopes value) fun _ =>
    moved_bind (moved_expr f around scopes object) fun _ => rfl
  | .this line _ => moved_bind (moved_noteIf _ ⟨.keyword .this_, line⟩ _) fun _ => rfl
  | .super line _ _ =>
    moved_bind (moved_noteIf _ ⟨.keyword .super_, line⟩ _) fun _ =>
    moved_bind (moved_noteIf _ ⟨.keyword .super_, line⟩ _) fun _ => rfl
  | .function _ body => moved_bind (moved_code f around .function scopes body) fun _ => rfl

theorem moved_exprs (f : Nat → Nat) (around : Surroundings) (scopes : LocalScopes) :
    (es : List (Expr Unit)) → exprs around scopes (Renumber.exprs f es) =
      (exprs around scopes es).moved f (Renumber.exprs f)
  | [] => rfl
  | e :: rest =>
    moved_bind (moved_expr f around scopes e) fun _ =>
    moved_bind (moved_exprs f around scopes rest) fun _ => rfl

theorem moved_optionalExpr (f : Nat → Nat) (around : Surroundings) (scopes : LocalScopes) :
    (e : Option (Expr Unit)) → optionalExpr around scopes (Renumber.optionalExpr f e) =
      (optionalExpr around scopes e).moved f (Renumber.optionalExpr f)
  | none => rfl
  | some e => moved_bind (moved_expr f around scopes e) fun _ => rfl

theorem moved_code (f : Nat → Nat) (around : Surroundings) (body : Body) (scopes : LocalScopes) :
    (c : Code Unit) → code around body scopes (Renumber.code f c) =
      (code around body scopes c).moved f (Renumber.code f)
  | .mk params statements =>
    moved_bind (moved_declareParams ([] :: scopes) params) fun inner =>
    moved_bind (moved_stmts f { around with body } inner statements) fun _ => rfl

theorem moved_methods (f : Nat → Nat) (around : Surroundings) (scopes : LocalScopes) :
    (ms : List (Method Unit)) → methods around scopes (Renumber.methods f ms) =
      (methods around scopes ms).moved f (Renumber.methods f)
  | [] => rfl
  | .mk x body :: rest =>
    moved_bind (moved_code f around (if x.text = "init" then .initializer else .method) scopes body)
      fun _ => moved_bind (moved_methods f around scopes rest) fun _ => rfl

theorem moved_stmt (f : Nat → Nat) (around : Surroundings) (scopes : LocalScopes) :
    (s : Stmt Unit) → stmt around scopes (Renumber.stmt f s) =
      (stmt around scopes s).moved f (Renumber.stmt f)
  | .expression e => moved_bind (moved_expr f around scopes e) fun _ => rfl
  | .print e => moved_bind (moved_expr f around scopes e) fun _ => rfl
  | .var x initial =>
    moved_bind (moved_noteIf _ x.token _) fun _ =>
    moved_bind (moved_optionalExpr f around (scopes.declare x.text false) initial) fun _ => rfl
  | .block body => moved_bind (moved_stmts f around ([] :: scopes) body) fun _ => rfl
  | .branch condition yes no =>
    moved_bind (moved_expr f around scopes condition) fun _ =>
    moved_bind (moved_stmt f around scopes yes) fun _ =>
    moved_bind (moved_optionalStmt f around scopes no) fun _ => rfl
  | .loop condition body =>
    moved_bind (moved_expr f around scopes condition) fun _ =>
    moved_bind (moved_stmt f around scopes body) fun _ => rfl
  | .function x body =>
    moved_bind (moved_noteIf _ x.token _) fun _ =>
    moved_bind (moved_code f around .function (scopes.declare x.text true) body) fun _ => rfl
  | .ret line value => by
    have hvalue : (Renumber.optionalExpr f value).isSome = value.isSome := by cases value <;> rfl
    rw [Renumber.stmt, stmt, hvalue]
    exact moved_bind (moved_noteIf _ ⟨.keyword .return_, line⟩ _) fun _ =>
      moved_bind (moved_noteIf _ ⟨.keyword .return_, line⟩ _) fun _ =>
      moved_bind (moved_optionalExpr f around scopes value) fun _ => rfl
  | .classDef x none declared =>
    moved_bind (moved_noteIf _ x.token _) fun _ =>
    moved_bind (moved_methods f { around with classBody := .base }
      ([("this", true)] :: scopes.declare x.text true) declared) fun _ => rfl
  | .classDef x (some (parent, _)) declared =>
    moved_bind (moved_noteIf _ x.token _) fun _ =>
    moved_bind (moved_noteIf _ parent.token _) fun _ =>
    moved_bind (moved_reference (scopes.declare x.text true) parent) fun _ =>
    moved_bind (moved_methods f { around with classBody := .derived }
      ([("this", true)] :: [("super", true)] :: scopes.declare x.text true) declared) fun _ => rfl

theorem moved_optionalStmt (f : Nat → Nat) (around : Surroundings) (scopes : LocalScopes) :
    (s : Option (Stmt Unit)) → optionalStmt around scopes (Renumber.optionalStmt f s) =
      (optionalStmt around scopes s).moved f (Renumber.optionalStmt f)
  | none => rfl
  | some s => moved_bind (moved_stmt f around scopes s) fun _ => rfl

theorem moved_stmts (f : Nat → Nat) (around : Surroundings) (scopes : LocalScopes) :
    (ss : List (Stmt Unit)) → stmts around scopes (Renumber.stmts f ss) =
      (stmts around scopes ss).moved f (Renumber.stmts f)
  | [] => rfl
  | s :: rest => by
    have hafter : scopes.after (Renumber.stmt f s) = scopes.after s := by cases s <;> rfl
    rw [Renumber.stmts, stmts, hafter]
    exact moved_bind (moved_stmt f around scopes s) fun _ =>
      moved_bind (moved_stmts f around (scopes.after s) rest) fun _ => rfl

end

/-- No statement of a program declares anything that the next ones have to know. -/
theorem program_append (ss ss' : List (Stmt Unit)) :
    program (ss ++ ss') =
      ⟨(program ss).value ++ (program ss').value, (program ss).notes ++ (program ss').notes⟩ := by
  unfold program
  induction ss with
  | nil => rfl
  | cons s rest ih =>
    have hafter : LocalScopes.after [] s = [] := by cases s <;> rfl
    rw [List.cons_append, stmts, stmts, hafter]
    show Noted.mk (_ :: (stmts _ [] (rest ++ ss')).value)
        (_ ++ ((stmts _ [] (rest ++ ss')).notes ++ []))
      = Noted.mk _ ((_ ++ (_ ++ [])) ++ _)
    rw [ih, List.append_nil, List.append_nil, List.append_assoc]
    rfl

end Resolve

/-- The joined text is well formed, and means the first text and then the second. -/
theorem compile_joined {first second : String} {p p' : List RStmt} (h₁ : compile first = .ok p)
    (h₂ : compile second = .ok p') :
    compile (joined first second) = .ok (p ++ Renumber.stmts (· + seam first) p') := by
  rw [compile_eq_ok] at h₁ h₂ ⊢
  obtain ⟨hread₁, hresolve₁⟩ := h₁
  obtain ⟨hread₂, hresolve₂⟩ := h₂
  have hmoved : Resolve.program (Renumber.stmts (· + seam first) (Reading.ofText second).statements)
      = ⟨Renumber.stmts (· + seam first) p', []⟩ := by
    have h := Resolve.moved_stmts (· + seam first) ⟨.outermost, .outside⟩ []
      (Reading.ofText second).statements
    rw [show Resolve.stmts _ [] (Reading.ofText second).statements = _ from hresolve₂] at h
    exact h
  rw [Reading.ofText_joined hread₁ hread₂, Resolve.program_append, hresolve₁, hmoved]
  exact ⟨rfl, rfl⟩

end LoxScript
