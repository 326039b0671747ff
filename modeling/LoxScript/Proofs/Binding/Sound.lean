import LoxScript.Proofs.Binding.Place

/-!
The places of programs that are accepted, that is, read and resolved without a complaint.

Nothing is wrong at any of their places.  Every scope around a place is the receiver's, the
superclass's, or one in which a program declares names; `this` and `super` are not among the names
declared, so that inside a class the scopes that bind them are found, and found next to each other.
-/

namespace LoxScript

theorem Resolve.value_declareParams (s : LocalScope) (outer : LocalScopes) (params : List Name) :
    (declareParams (s :: outer) params).value = (Frames.parameterNames params ++ s) :: outer := by
  induction params generalizing s with
  | nil => rfl
  | cons p rest ih =>
    simp only [declareParams, Noted.value_bind, LocalScopes.declare, ih, Frames.parameterNames,
      List.reverse_cons, List.map_append, List.map_cons, List.map_nil, List.append_assoc,
      List.singleton_append]

theorem Resolve.value_declareParams_nil (outer : LocalScopes) (params : List Name) :
    (declareParams ([] :: outer) params).value = Frames.parameterNames params :: outer := by
  rw [value_declareParams, List.append_nil]

namespace LocalScopes

theorem isPending_declare_of_ne {x y : String} (h : x ≠ y) (ready : Bool) (scopes : LocalScopes) :
    (scopes.declare x ready).isPending y = scopes.isPending y := by
  cases scopes with
  | nil => rfl
  | cons s outer =>
    simp only [declare, isPending, LocalScope.isPending, List.head?_cons, Option.any_some]
    rw [List.lookup_cons, beq_false_of_ne (Ne.symm h)]

theorem distance?_declare_of_ne {x y : String} (h : x ≠ y) (ready : Bool) (scopes : LocalScopes) :
    (scopes.declare x ready).distance? y = scopes.distance? y := by
  cases scopes with
  | nil => rfl
  | cons s outer =>
    have hs : LocalScope.declares ((x, ready) :: s) y = LocalScope.declares s y := by
      simp [LocalScope.declares, h]
    simp only [declare, distance?, List.findIdx?_cons, hs]

end LocalScopes

namespace Resolve

/-- Declaring a name changes nothing for a use of another one. -/
theorem reference_declare_of_ne {x : String} {y : Name} (h : x ≠ y.text) (ready : Bool)
    (scopes : LocalScopes) : reference (scopes.declare x ready) y = reference scopes y := by
  unfold reference
  rw [LocalScopes.isPending_declare_of_ne h, LocalScopes.distance?_declare_of_ne h]

theorem noteIf_eq_nil {condition : Bool} {t : Token} {m : ScopeMistake} :
    (noteIf condition t m).notes = [] ↔ condition = false := by
  cases condition <;> simp [noteIf]

end Resolve

namespace Place

theorem notes_of_mem_exprs {a : Surroundings} {scopes : LocalScopes} {es : List (Expr Unit)}
    (h : (Resolve.exprs a scopes es).notes = []) :
    ∀ e ∈ es, (Resolve.expr a scopes e).notes = [] := by
  induction es with
  | nil => exact fun e he => absurd he List.not_mem_nil
  | cons e rest ih =>
    simp only [Resolve.exprs, Noted.notes_bind, Noted.notes_pure, List.append_nil,
      List.append_eq_nil_iff] at h
    exact List.forall_mem_cons.2 ⟨h.1, ih h.2⟩

theorem notes_operands {a : Surroundings} {scopes : LocalScopes} {e : Expr Unit}
    (h : (Resolve.expr a scopes e).notes = []) :
    ∀ e' ∈ operands e, (Resolve.expr a scopes e').notes = [] := by
  cases e <;>
    simp only [Resolve.expr, Noted.notes_bind, Noted.notes_pure, List.append_nil, operands,
      List.append_eq_nil_iff, List.forall_mem_cons] at h ⊢
  case call callee line arguments => exact ⟨h.1, notes_of_mem_exprs h.2⟩
  all_goals simp [h]

theorem notes_of_mem_methods {a : Surroundings} {scopes : LocalScopes} {ms : List (Method Unit)}
    (h : (Resolve.methods a scopes ms).notes = []) :
    ∀ f ∈ ms, (Resolve.code a (if f.name.text = "init" then .initializer else .method) scopes
      f.code).notes = [] := by
  induction ms with
  | nil => exact fun f hf => absurd hf List.not_mem_nil
  | cons f rest ih =>
    obtain ⟨x, c⟩ := f
    simp only [Resolve.methods, Noted.notes_bind, Noted.notes_pure, List.append_nil,
      List.append_eq_nil_iff] at h
    exact List.forall_mem_cons.2 ⟨h.1, ih h.2⟩

theorem notes_children_stmt {a : Surroundings} {Γ : Frames} {s : Stmt Unit}
    (h : (Resolve.stmt a Γ.scopes s).notes = []) :
    ∀ q ∈ children ⟨a, Γ, .stmt s⟩, q.notes = [] := by
  cases s with
  | expression e | print e =>
    simpa [Resolve.stmt, children, notes] using h
  | var x initial =>
    cases initial with
    | none => simp [children]
    | some e => simp_all [Resolve.stmt, Resolve.optionalExpr, children, notes]
  | block body => simpa [Resolve.stmt, children, notes] using h
  | branch condition yes no =>
    cases no <;> simp_all [Resolve.stmt, Resolve.optionalStmt, children, notes]
  | loop condition body => simpa [Resolve.stmt, children, notes] using h
  | function x body => simp_all [Resolve.stmt, children, notes]
  | ret line value =>
    cases value <;> simp_all [Resolve.stmt, Resolve.optionalExpr, children, notes]
  | classDef x parent ms =>
    cases parent with
    | none =>
      simp_all [Resolve.stmt, children, notes, ofMethods, Frame.receiver]
    | some y =>
      obtain ⟨y, ⟨⟩⟩ := y
      simp only [Resolve.stmt, Noted.notes_bind, Noted.notes_pure, List.append_nil,
        List.append_eq_nil_iff, Resolve.noteIf_eq_nil, beq_eq_false_iff_ne] at h
      obtain ⟨-, hne, href, hms⟩ := h
      rw [Resolve.reference_declare_of_ne (Ne.symm hne)] at href
      simp [children, notes, ofMethods, Frame.receiver, Frame.superclass, Resolve.expr, href, hms]

theorem notes_child {p q : Place} (hp : p.notes = []) (hq : q ∈ p.children) : q.notes = [] := by
  obtain ⟨a, Γ, part⟩ := p
  cases part with
  | expr e =>
    cases e with
    | function line body =>
      rw [children, List.mem_singleton] at hq
      subst hq
      simpa [notes, Resolve.expr] using hp
    | _ =>
      obtain ⟨e', he', rfl⟩ := List.mem_map.1 hq
      exact notes_operands hp e' he'
  | code body c =>
    obtain ⟨params, ss⟩ := c
    rw [children, List.mem_singleton] at hq
    subst hq
    simp only [notes, Resolve.code, Noted.notes_bind, Noted.notes_pure, List.append_nil,
      List.append_eq_nil_iff, Resolve.value_declareParams_nil] at hp
    exact hp.2
  | methods ms =>
    obtain ⟨f, hf, rfl⟩ := List.mem_map.1 hq
    exact notes_of_mem_methods hp f hf
  | stmt s => exact notes_children_stmt hp q hq
  | stmts ss =>
    cases ss with
    | nil => exact absurd hq List.not_mem_nil
    | cons s rest =>
      simp only [notes, Resolve.stmts, Noted.notes_bind, Noted.notes_pure, List.append_nil,
        List.append_eq_nil_iff] at hp
      simp only [children, List.mem_cons, List.not_mem_nil, or_false] at hq
      rcases hq with rfl | rfl
      · exact hp.1
      · simpa [notes] using hp.2

theorem wellFormed_of_mem_exprs {es : List (Expr Unit)} (h : WellFormed.exprs es) :
    ∀ e ∈ es, WellFormed.expr e := by
  induction es with
  | nil => exact fun e he => absurd he List.not_mem_nil
  | cons e rest ih => exact List.forall_mem_cons.2 ⟨h.1, ih h.2⟩

theorem wellFormed_operands {e : Expr Unit} (h : WellFormed.expr e) :
    ∀ e' ∈ operands e, WellFormed.expr e' := by
  cases e with
  | call callee line arguments =>
    exact List.forall_mem_cons.2 ⟨h.1, wellFormed_of_mem_exprs h.2⟩
  | _ => simp_all [operands, WellFormed.expr]

theorem wellFormed_of_mem_methods {ms : List (Method Unit)} (h : WellFormed.methods ms) :
    ∀ f ∈ ms, WellFormed.code f.code := by
  induction ms with
  | nil => exact fun f hf => absurd hf List.not_mem_nil
  | cons f rest ih =>
    obtain ⟨x, c⟩ := f
    exact List.forall_mem_cons.2 ⟨h.2.1, ih h.2.2⟩

theorem wellFormed_child {p q : Place} (hp : p.part.WellFormed) (hq : q ∈ p.children) :
    q.part.WellFormed := by
  obtain ⟨a, Γ, part⟩ := p
  cases part with
  | expr e =>
    cases e with
    | function line body =>
      rw [children, List.mem_singleton] at hq
      subst hq
      exact hp
    | _ =>
      obtain ⟨e', he', rfl⟩ := List.mem_map.1 hq
      exact wellFormed_operands hp e' he'
  | code body c =>
    obtain ⟨params, ss⟩ := c
    rw [children, List.mem_singleton] at hq
    subst hq
    exact hp.2
  | methods ms =>
    obtain ⟨f, hf, rfl⟩ := List.mem_map.1 hq
    exact wellFormed_of_mem_methods hp f hf
  | stmt s =>
    cases s with
    | classDef x parent ms =>
      obtain ⟨-, hparent, hms⟩ := hp
      cases parent with
      | none =>
        simp only [children, Option.toList_none, List.map_nil, List.mem_singleton] at hq
        subst hq
        exact hms
      | some y =>
        simp only [children, Option.toList_some, List.map_cons, List.map_nil, List.mem_cons,
          List.not_mem_nil, or_false] at hq
        rcases hq with rfl | rfl
        · exact hms
        · exact hparent y rfl
    | var x initial => cases initial <;> simp_all [children, Part.WellFormed, WellFormed.stmt,
        WellFormed.optionalExpr]
    | branch condition yes no =>
      obtain ⟨hc, hyes, hno⟩ := hp
      rw [children] at hq
      rcases List.mem_cons.1 hq with rfl | hq
      · exact hc
      rcases List.mem_cons.1 hq with rfl | hq
      · exact hyes.2
      · obtain ⟨s, hs, rfl⟩ := List.mem_map.1 hq
        rw [Option.mem_toList.1 hs] at hno
        exact hno.2
    | loop condition body =>
      simp only [children, List.mem_cons, List.not_mem_nil, or_false] at hq
      rcases hq with rfl | rfl
      · exact hp.1
      · exact hp.2.2
    | ret line value => cases value <;> simp_all [children, Part.WellFormed,
        WellFormed.stmt, WellFormed.optionalExpr]
    | _ => simp_all [children, Part.WellFormed, WellFormed.stmt]
  | stmts ss =>
    cases ss with
    | nil => exact absurd hq List.not_mem_nil
    | cons s rest =>
      simp only [children, List.mem_cons, List.not_mem_nil, or_false] at hq
      rcases hq with rfl | rfl
      · exact hp.1
      · exact hp.2

end Place

/-- A scope that a program may declare names in: of a block, or of a function. -/
structure Frame.IsOrdinary (f : Frame) : Prop where
  opener : (∃ body, f.opener = .block body) ∨ ∃ code, f.opener = .function code
  free : ∀ p ∈ f.names, Keyword.ofText? p.1 = none

namespace Frames

/-- The scopes that can be around a place of a class body of the given kind. -/
inductive Enclosed : ClassBody → Frames → Prop
  | outermost : Enclosed .outside []
  | ordinary {c : ClassBody} {Γ : Frames} {f : Frame} :
      Enclosed c Γ → f.IsOrdinary → Enclosed c (f :: Γ)
  | base {c : ClassBody} {Γ : Frames} (ms : List (Method (Option Nat))) :
      Enclosed c Γ → Enclosed .base (.receiver ms :: Γ)
  | derived {c : ClassBody} {Γ : Frames} (ms : List (Method (Option Nat))) :
      Enclosed c Γ → Enclosed .derived (.receiver ms :: .superclass ms :: Γ)

/-- Names may be declared in the innermost scope. -/
def HeadIsOrdinary (Γ : Frames) : Prop := ∀ f ∈ Γ.head?, f.IsOrdinary

theorem Enclosed.declare {c : ClassBody} {Γ : Frames} (h : Enclosed c Γ) (ho : Γ.HeadIsOrdinary)
    {x : Name} (hx : x.IsFree) (ready : Bool) : Enclosed c (Γ.declare x.text ready) := by
  cases h with
  | outermost => exact .outermost
  | ordinary h hf =>
    refine .ordinary h ⟨hf.opener, fun p hp => ?_⟩
    rcases List.mem_cons.1 hp with rfl | hp
    · exact hx
    · exact hf.free p hp
  | base ms h =>
    obtain ⟨⟨_, h⟩ | ⟨_, h⟩, -⟩ := ho _ rfl
    all_goals cases h
  | derived ms h =>
    obtain ⟨⟨_, h⟩ | ⟨_, h⟩, -⟩ := ho _ rfl
    all_goals cases h

theorem HeadIsOrdinary.declare {Γ : Frames} (ho : Γ.HeadIsOrdinary) {x : Name} (hx : x.IsFree)
    (ready : Bool) : (Γ.declare x.text ready).HeadIsOrdinary := by
  cases Γ with
  | nil => exact ho
  | cons f Γ =>
    rintro g ⟨⟩
    have hf := ho f rfl
    exact ⟨hf.opener, List.forall_mem_cons.2 ⟨hx, hf.free⟩⟩

end Frames

/-- What the places of an accepted program are like. -/
structure Place.IsSound (p : Place) : Prop where
  notes : p.notes = []
  wellFormed : p.part.WellFormed
  enclosed : Frames.Enclosed p.around.classBody p.frames
  ordinary : p.part.MayDeclare → p.frames.HeadIsOrdinary

namespace Place

theorem WellFormed.stmt_declares {s : Stmt Unit} (h : WellFormed.stmt s) {x : Name}
    (hx : s.declares? = some x) : x.IsFree := by
  cases s <;> simp only [Stmt.declares?, Option.some.injEq, reduceCtorEq] at hx
  all_goals
    subst hx
    exact h.1

theorem ordinary_block (body : List RStmt) : Frame.IsOrdinary ⟨.block body, []⟩ :=
  ⟨.inl ⟨body, rfl⟩, fun _ hp => absurd hp List.not_mem_nil⟩

theorem ordinary_function (code : Code (Option Nat)) {params : List Name}
    (h : ∀ p ∈ params, p.IsFree) :
    Frame.IsOrdinary ⟨.function code, Frames.parameterNames params⟩ := by
  refine ⟨.inr ⟨code, rfl⟩, fun p hp => ?_⟩
  obtain ⟨x, hx, rfl⟩ := List.mem_map.1 hp
  exact h x (List.mem_reverse.1 hx)

/-- The scopes of a place determine those of the parts in it. -/
theorem IsSound.child {p q : Place} (hp : p.IsSound) (hq : q ∈ p.children) : q.IsSound := by
  have hnotes : q.notes = [] := notes_child hp.notes hq
  have hwf : q.part.WellFormed := wellFormed_child hp.wellFormed hq
  suffices h : Frames.Enclosed q.around.classBody q.frames ∧
      (q.part.MayDeclare → q.frames.HeadIsOrdinary) from ⟨hnotes, hwf, h.1, h.2⟩
  obtain ⟨a, Γ, part⟩ := p
  obtain ⟨-, hp, he, ho⟩ := hp
  cases part with
  | expr e =>
    cases e with
    | function line body =>
      rw [children, List.mem_singleton] at hq
      subst hq
      exact ⟨he, False.elim⟩
    | _ =>
      obtain ⟨e', -, rfl⟩ := List.mem_map.1 hq
      exact ⟨he, False.elim⟩
  | code body c =>
    obtain ⟨params, ss⟩ := c
    rw [children, List.mem_singleton] at hq
    subst hq
    have hf := ordinary_function (Resolve.code a body Γ.scopes (.mk params ss)).value hp.1
    refine ⟨.ordinary he hf, ?_⟩
    rintro - g ⟨⟩
    exact hf
  | methods ms =>
    obtain ⟨f, -, rfl⟩ := List.mem_map.1 hq
    exact ⟨he, False.elim⟩
  | stmt s =>
    have hd : Γ.HeadIsOrdinary := ho trivial
    cases s with
    | expression e | print e =>
      rw [children, List.mem_singleton] at hq
      subst hq
      exact ⟨he, False.elim⟩
    | var x initial =>
      obtain ⟨e, -, rfl⟩ := List.mem_map.1 hq
      exact ⟨he.declare hd hp.1 false, False.elim⟩
    | block body =>
      rw [children, List.mem_singleton] at hq
      subst hq
      refine ⟨.ordinary he (ordinary_block _), ?_⟩
      rintro - g ⟨⟩
      exact ordinary_block _
    | branch condition yes no =>
      rw [children] at hq
      rcases List.mem_cons.1 hq with rfl | hq
      · exact ⟨he, False.elim⟩
      rcases List.mem_cons.1 hq with rfl | hq
      · exact ⟨he, fun _ => hd⟩
      · obtain ⟨s, -, rfl⟩ := List.mem_map.1 hq
        exact ⟨he, fun _ => hd⟩
    | loop condition body =>
      simp only [children, List.mem_cons, List.not_mem_nil, or_false] at hq
      rcases hq with rfl | rfl
      · exact ⟨he, False.elim⟩
      · exact ⟨he, fun _ => hd⟩
    | function x body =>
      rw [children, List.mem_singleton] at hq
      subst hq
      exact ⟨he.declare hd hp.1 true, False.elim⟩
    | ret line value =>
      obtain ⟨e, -, rfl⟩ := List.mem_map.1 hq
      exact ⟨he, False.elim⟩
    | classDef x parent ms =>
      rw [children] at hq
      rcases List.mem_cons.1 hq with rfl | hq
      · have he := he.declare hd hp.1 true
        cases parent with
        | none => exact ⟨.base _ he, False.elim⟩
        | some y => exact ⟨.derived _ he, False.elim⟩
      · obtain ⟨y, -, rfl⟩ := List.mem_map.1 hq
        exact ⟨he, False.elim⟩
  | stmts ss =>
    cases ss with
    | nil => exact absurd hq List.not_mem_nil
    | cons s rest =>
      have ho : Γ.HeadIsOrdinary := ho trivial
      simp only [children, List.mem_cons, List.not_mem_nil, or_false] at hq
      rcases hq with rfl | rfl
      · exact ⟨he, fun _ => ho⟩
      · unfold Frames.after
        cases hx : s.declares? with
        | none => exact ⟨he, fun _ => ho⟩
        | some x =>
          have hfree := WellFormed.stmt_declares hp.1 hx
          exact ⟨he.declare ho hfree true, fun _ => ho.declare hfree true⟩

end Place

theorem LocalScopes.distance?_cons (s : LocalScope) (outer : LocalScopes) (x : String) :
    distance? (s :: outer) x =
      if s.declares x then some 0 else (outer.distance? x).map (· + 1) := by
  simp only [distance?, List.findIdx?_cons]

/-- A name is found in a scope that declares it. -/
theorem Frames.declares_of_distance? {Γ : Frames} {x : String} {d : Nat}
    (h : Γ.scopes.distance? x = some d) : ∃ f, Γ[d]? = some f ∧ f.names.declares x = true := by
  induction Γ generalizing d with
  | nil => cases h
  | cons f Γ ih =>
    rw [Frames.scopes_cons, LocalScopes.distance?_cons] at h
    split at h
    · rename_i hf
      cases h
      exact ⟨f, rfl, hf⟩
    · obtain ⟨n, hn, rfl⟩ := Option.map_eq_some_iff.1 h
      exact ih hn

namespace Frames

theorem not_declares_of_free {s : LocalScope} (h : ∀ p ∈ s, Keyword.ofText? p.1 = none)
    (k : Keyword) : s.declares k.text = false := by
  rw [LocalScope.declares, List.any_eq_false]
  intro p hp he
  exact Name.IsFree.ne (x := ⟨p.1, 0⟩) (h p hp) k (eq_of_beq he)

/-- Inside a class, `this` is found in the scope of the receiver. -/
theorem Enclosed.this {c : ClassBody} {Γ : Frames} (h : Enclosed c Γ) (hc : c ≠ .outside) :
    ∃ d ms, Γ.scopes.distance? "this" = some d ∧ Γ[d]? = some (.receiver ms) := by
  induction h with
  | outermost => exact absurd rfl hc
  | ordinary _ hf ih =>
    obtain ⟨d, ms, hd, hm⟩ := ih hc
    refine ⟨d + 1, ms, ?_, hm⟩
    have hn := not_declares_of_free hf.free .this_
    rw [show Keyword.text .this_ = "this" from rfl] at hn
    rw [scopes_cons, LocalScopes.distance?_cons, hn, hd]
    rfl
  | base ms _ _ => exact ⟨0, ms, rfl, rfl⟩
  | derived ms _ _ => exact ⟨0, ms, rfl, rfl⟩

/-- Inside a class that extends another, `super` is found in the scope just around that of the
receiver. -/
theorem Enclosed.super {c : ClassBody} {Γ : Frames} (h : Enclosed c Γ) (hc : c = .derived) :
    ∃ d ms, Γ.scopes.distance? "super" = some (d + 1) ∧ Γ.scopes.distance? "this" = some d ∧
      Γ[d]? = some (.receiver ms) ∧ Γ[d + 1]? = some (.superclass ms) := by
  induction h with
  | outermost => cases hc
  | ordinary _ hf ih =>
    obtain ⟨d, ms, hd, hd', hm⟩ := ih hc
    have hn := not_declares_of_free hf.free .super_
    have hn' := not_declares_of_free hf.free .this_
    rw [show Keyword.text .super_ = "super" from rfl] at hn
    rw [show Keyword.text .this_ = "this" from rfl] at hn'
    refine ⟨d + 1, ms, ?_, ?_, hm⟩
    · rw [scopes_cons, LocalScopes.distance?_cons, hn, hd]
      rfl
    · rw [scopes_cons, LocalScopes.distance?_cons, hn', hd']
      rfl
  | base ms _ _ => cases hc
  | derived ms _ _ => exact ⟨0, ms, rfl, rfl, rfl, rfl⟩

end Frames

/-- A program that nothing is wrong with. -/
structure Accepted (program : List (Stmt Unit)) : Prop where
  notes : (Resolve.program program).notes = []
  wellFormed : WellFormed.stmts program

/-- What is ready to run comes from an accepted program. -/
theorem accepted_of_compile {source : String} {resolved : List RStmt}
    (h : compile source = .ok resolved) :
    Accepted (Reading.ofText source).statements ∧
      (Resolve.program (Reading.ofText source).statements).value = resolved := by
  obtain ⟨-, hresolve⟩ := compile_eq_ok.1 h
  exact ⟨⟨congrArg Noted.notes hresolve, Reading.wellFormed source⟩, congrArg Noted.value hresolve⟩

namespace Place

theorem Within.isSound {program : List (Stmt Unit)} (hp : Accepted program) {p : Place}
    (h : Within program p) : p.IsSound := by
  induction h with
  | outermost =>
    refine ⟨hp.notes, hp.wellFormed, .outermost, ?_⟩
    rintro - f ⟨⟩
  | child _ hq ih => exact ih.child hq

/-- A place in one of several accepted programs. -/
def Occurs (P : List (List (Stmt Unit))) (p : Place) : Prop :=
  ∃ program ∈ P, Accepted program ∧ Within program p

theorem Occurs.child {P : List (List (Stmt Unit))} {p q : Place} (h : p.Occurs P)
    (hq : q ∈ p.children) : q.Occurs P := by
  obtain ⟨program, hP, ha, hw⟩ := h
  exact ⟨program, hP, ha, hw.child hq⟩

theorem Occurs.isSound {P : List (List (Stmt Unit))} {p : Place} (h : p.Occurs P) : p.IsSound := by
  obtain ⟨program, -, ha, hw⟩ := h
  exact hw.isSound ha

theorem Occurs.mono {P P' : List (List (Stmt Unit))} (hP : P ⊆ P') {p : Place} (h : p.Occurs P) :
    p.Occurs P' := by
  obtain ⟨program, hp, ha, hw⟩ := h
  exact ⟨program, hP hp, ha, hw⟩

end Place

end LoxScript
