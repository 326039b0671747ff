import LoxScript.Proofs.Control.Statements
import LoxScript.Proofs.Machine.Runs
import LoxScript.Proofs.Objects.Chronicle

/-!
Global names.

All declarations bind their names in the environment that they are executed in, whichever it is.
The outermost environment is that of the outermost statements only: statements inside of another one
either declare nothing or have a scope of their own.  So the names bound there are those of the
outermost declarations whose definition has been reached, and the functions of the language.
-/

namespace LoxScript

namespace Machine

/-- The step binds the name that the outermost statement declares: a variable when its initial value
is there, a class when its superclass is there and is a class. -/
inductive Defines (m : Machine) : RStmt → Prop
  | empty {x} : m.focus = .execute (.var x none) Store.globals .finish → Defines m (.var x none)
  | initial {v x e} : m.focus = .deliver v (.define x.text Store.globals .finish) →
      Defines m (.var x (some e))
  | function {x code} : m.focus = .execute (.function x code) Store.globals .finish →
      Defines m (.function x code)
  | base {x ms} : m.focus = .execute (.classDef x none ms) Store.globals .finish →
      Defines m (.classDef x none ms)
  | derived {c x y ref ms} :
      m.focus = .deliver (.class c) (.inherit x y ms Store.globals .finish) →
      Defines m (.classDef x (some (y, ref)) ms)

/-- The step binds the name that an outermost statement of one of the texts declares, the one in
front of those that are still to come. -/
def DefinesGlobal (sources : List String) (m : Machine) (x : String) : Prop :=
  ∃ source ∈ sources, ∃ before s name, compile source = .ok (before ++ s :: m.pending) ∧
    m.Defines s ∧ s.declares? = some name ∧ name.text = x

/-- What a use of a name evaluates to, if it has a value. -/
def valueOf? (m : Machine) (x : String) (ref : Option Nat) (env : Environment) : Option Value :=
  match ref with
  | some d => (m.store.scopes.getAt env d x).toOption
  | none => m.store.scopes.get? Store.globals x

/-- Where a declaration may stand: in a sequence of statements, or as the outermost statement in
front of those that are still to come. -/
def MayStand (program pending : List RStmt) (k : StmtCont) (s : RStmt) : Prop :=
  s.declares? = none ∨ (∃ rest env k', k = .sequence rest env k') ∨
    k = .finish ∧ ∃ before, program = before ++ s :: pending

end Machine

section
variable (settings : Settings) (sources : List String) (past : List Machine) (m : Machine)

/-- The names that are bound globally, and what can become of them in one step. -/
structure GlobalsAreDeclared : Prop where
  names : ∀ x, m.store.binds Store.globals x ↔
    x = "clock" ∨ ∃ q ∈ past, q.DefinesGlobal sources x
  step : ∀ m', m.step settings = .next m' → ∀ x, m'.store.binds Store.globals x ↔
    m.store.binds Store.globals x ∨ m.DefinesGlobal sources x
  /-- A step that ends the run changes nothing. -/
  stop : ∀ m' e, m.step settings = .stop m' e → m' = m
  /-- The value of an assignment is evaluated first. -/
  assignment : ∀ x ref e env k, m.focus = .evaluate (.assign x ref e) env k →
    m.step settings = .next { m with focus := .evaluate e env (.assign x ref env k) }
  unassigned : ∀ v x env k, m.focus = .deliver v (.assign x none env k) →
    ¬ m.store.binds Store.globals x.text →
    m.step settings = .stop m (.failed ⟨.undefinedVariable x.text, x.token⟩)
  superclass : ∀ x y ref ms env k c, m.focus = .execute (.classDef x (some (y, ref)) ms) env k →
    m.valueOf? y.text ref env = some (.class c) →
    m.run settings 2 = ({ m with focus := .deliver (.class c) (.inherit x y ms env k) }, none)
  notClass : ∀ x y ref ms env k v, m.focus = .execute (.classDef x (some (y, ref)) ms) env k →
    m.valueOf? y.text ref env = some v → (∀ c, v ≠ .class c) →
    m.run settings 3 = ({ m with focus := .deliver v (.inherit x y ms env k) },
      some (.failed ⟨.superclassNotClass, y.token⟩))
  undefined : ∀ x y ref ms env k, m.focus = .execute (.classDef x (some (y, ref)) ms) env k →
    m.valueOf? y.text ref env = none →
    ∃ e, m.run settings 2 =
        ({ m with focus := .evaluate (.var y ref) env (.inherit x y ms env k) }, some e) ∧
      (ref = none → e = .failed ⟨.undefinedVariable y.text, y.token⟩)

/-- The names that are bound globally in a store. -/
structure BindsDeclared (store : Store) : Prop where
  clock : store.binds Store.globals "clock"
  declared : ∀ x, store.binds Store.globals x →
    x = "clock" ∨ ∃ q ∈ past, q.DefinesGlobal sources x
  defined : ∀ q ∈ past, ∀ s x, q.Defines s → s.declares? = some x →
    store.binds Store.globals x.text

end

namespace Store

theorem binds_define_globals {s : Store} (h : 0 < s.size) (x : String) (v : Value) (y : String) :
    (s.define globals x v).binds globals y ↔ y = x ∨ s.binds globals y := by
  have hfind := find?_define (e := globals) h x v globals.scope y
  show ((s.define globals x v).find? globals.scope y).isSome ↔ _
  rw [hfind]
  by_cases hy : y = x
  · simp [hy]
  · simp only [hy, and_false, if_false, false_or]
    rfl

theorem binds_enter_globals {s : Store} (h : 0 < s.size) (outer : Environment)
    (own : Bindings Value) (y : String) :
    (s.enter outer own).2.binds globals y = s.binds globals y := by
  have hne : globals.scope ≠ ⟨s.size⟩ := fun he => Nat.ne_of_lt h (congrArg ScopeId.index he)
  unfold binds
  rw [bindings_enter_of_ne s outer own hne]

end Store

namespace Machine
variable {m m' : Machine} {settings : Settings}

/-- A definition adds its name and no other. -/
theorem Defines.binds {s : RStmt} (h : m.Defines s) (hpos : 0 < m.store.size) {x : Name}
    (hx : s.declares? = some x) (hstep : m.step settings = .next m') (y : String) :
    m'.store.binds Store.globals y ↔ y = x.text ∨ m.store.binds Store.globals y := by
  cases h with
  | empty hfocus | initial hfocus | function hfocus | base hfocus =>
    cases hx
    rw [step, hfocus] at hstep
    cases hstep
    exact Store.binds_define_globals hpos _ _ y
  | @derived c x y' ref ms hfocus =>
    cases hx
    rw [step, hfocus] at hstep
    cases hstep
    have henter := Store.binds_enter_globals hpos Store.globals [("super", .class c)] y
    have hsize : 0 < (m.store.enter Store.globals [("super", .class c)]).2.size :=
      Nat.lt_trans hpos (Store.size_lt_enter m.store _ _)
    rw [← henter]
    exact Store.binds_define_globals hsize x.text _ y

theorem discipline_mayStand (program pending : List RStmt) :
    Discipline (MayStand program pending) where
  block _ _ _ rest env := .inr (.inl ⟨rest, env, _, rfl⟩)
  branch _ _ _ hs := .inl hs
  loop _ _ hs := .inl hs
  call _ rest env _ _ := .inr (.inl ⟨rest, env, _, rfl⟩)
  leaveSequence _ := .inl rfl
  leaveLoop _ := .inl rfl

end Machine

namespace World
variable {W : World} {m m' : Machine}

namespace Traced

/-- Only the outermost environment has the first scope. -/
theorem globals_of_opened (h : W.Traced m) {o : Opener} {e : Environment} (ho : W.Opened o e) :
    e.scope ≠ Store.globals.scope := by
  obtain ⟨q, hq, ⟨hprepares, -⟩⟩ := ho
  have hlt := Nat.lt_of_lt_of_le (h.chronicle.positive q hq) hprepares.size_le
  intro he
  exact Nat.ne_of_gt hlt (congrArg ScopeId.index he)

/-- A statement that declares a global name is the outermost one. -/
theorem mayStand_globals (h : W.Traced m) {V : World} (hpast : V.past = W.past) {k : StmtCont}
    (hk : V.StmtContOk k) (henv : Store.globals = k.environment) {program pending : List RStmt}
    {s : RStmt} (hs : Machine.MayStand program pending k s) {x : Name} (hx : s.declares? = some x) :
    k = .finish ∧ ∃ before, program = before ++ s :: pending := by
  rcases hs with hs | ⟨rest, env, k', rfl⟩ | hs
  · cases hx.symm.trans hs
  · obtain ⟨q, hq, -, -, -, -, hle⟩ := enters_of_stmtContOk _ hk env k' rfl
    have henv : Store.globals = env := henv
    have hpos := h.chronicle.positive q (hpast ▸ hq)
    rw [← henv] at hle
    exact absurd hle (Nat.not_le_of_lt hpos)
  · exact hs

theorem size_pos (h : W.Traced m) : 0 < m.store.size := by
  have hpos := h.inv.base.settled.positive
  rwa [h.inv.base.store] at hpos

/-- A step that may write to the outermost scope adds no name, or it is the definition of the
outermost statement. -/
theorem writes_globals (h : W.Traced m) {program : List RStmt}
    (hl : m.focus.Lawful (Machine.MayStand program m.pending)) (hw : m.Writes Store.globals)
    (hstep : m.step W.settings = .next m') :
    (∀ x, m'.store.binds Store.globals x ↔ m.store.binds Store.globals x) ∨
    ∃ before s, program = before ++ s :: m.pending ∧ m.Defines s := by
  have hf := h.inv.focus
  cases hw with
  | @declared s _ k x hfocus hx =>
    rw [hfocus] at hf hl
    have hpast : (W.during s Store.globals).past = W.past := by
      unfold World.during
      split <;> rfl
    obtain ⟨rfl, before, hbefore⟩ := h.mayStand_globals hpast hf.2.2 hf.2.1 hl.1 hx
    have hsame (he : ∃ e k,
        m.step W.settings = .next { m with focus := .evaluate e Store.globals k }) :
        ∀ y, m'.store.binds Store.globals y ↔ m.store.binds Store.globals y := by
      obtain ⟨e, k, he⟩ := he
      cases he.symm.trans hstep
      exact fun _ => Iff.rfl
    rw [Machine.step, hfocus] at hsame
    cases s with
    | var y initial =>
      cases initial with
      | none => exact .inr ⟨before, _, hbefore, .empty hfocus⟩
      | some e => exact .inl (hsame ⟨_, _, rfl⟩)
    | function y code => exact .inr ⟨before, _, hbefore, .function hfocus⟩
    | classDef y parent ms =>
      cases parent with
      | none => exact .inr ⟨before, _, hbefore, .base hfocus⟩
      | some p => exact .inl (hsame ⟨_, _, rfl⟩)
    | _ => cases hx
  | @initial v x _ k hfocus =>
    rw [hfocus] at hf hl
    obtain ⟨⟨name, e, rfl, hs⟩, -⟩ := hl
    obtain ⟨rfl, before, hbefore⟩ :=
      h.mayStand_globals (V := W.awaiting _ name.text) rfl hf.2.2.2 hf.2.2.1 hs rfl
    exact .inr ⟨before, _, hbefore, .initial hfocus⟩
  | @inherit v x y ms _ k hfocus =>
    rw [hfocus] at hf hl
    obtain ⟨⟨ref, hs⟩, -⟩ := hl
    obtain ⟨rfl, before, hbefore⟩ :=
      h.mayStand_globals (V := W.awaiting _ x.text) rfl hf.2.2.2 hf.2.2.1 hs rfl
    rw [Machine.step, hfocus] at hstep
    cases v with
    | «class» c => exact .inr ⟨before, _, hbefore, .derived hfocus⟩
    | _ => cases hstep
  | «local» hfocus he =>
    obtain ⟨o, -, ho⟩ := h.inv.writes_local hfocus he
    exact absurd rfl (h.globals_of_opened ho)
  | @global v x env k hfocus =>
    rw [Machine.step, hfocus] at hstep
    simp only [Machine.deliver, Machine.assigning] at hstep
    split at hstep
    · rename_i hbound
      cases hstep
      refine .inl fun y => (Store.binds_define_globals h.size_pos x.text v y).trans ?_
      exact ⟨fun hy => hy.elim (fun he => he ▸ hbound) id, .inr⟩
    · cases hstep

/-- The global names after a step. -/
theorem binds_step (h : W.Traced m) {program : List RStmt}
    (hl : m.focus.Lawful (Machine.MayStand program m.pending))
    (hstep : m.step W.settings = .next m') :
    (∀ x, m'.store.binds Store.globals x ↔ m.store.binds Store.globals x) ∨
    ∃ before s, program = before ++ s :: m.pending ∧ m.Defines s := by
  rcases (Machine.follows_step hstep).leaves.scopes Store.globals.scope h.size_pos with
    hsame | ⟨e, he, hscope⟩
  · left
    intro x
    unfold Store.binds
    rw [hsame]
  · rcases h.inv.writes he with rfl | ⟨o, -, ho⟩
    · exact h.writes_globals hl he hstep
    · exact absurd hscope (h.globals_of_opened ho)

/-- The global names after a step are those before it and the one that the step defines. -/
theorem globals_step (h : W.Traced m) {source : String} {program : List RStmt}
    {sources : List String} (hsource : source ∈ sources) (hcompile : compile source = .ok program)
    (hl : m.focus.Lawful (Machine.MayStand program m.pending))
    (hstep : m.step W.settings = .next m') (x : String) :
    m'.store.binds Store.globals x ↔
      m.store.binds Store.globals x ∨ m.DefinesGlobal sources x := by
  constructor
  · intro hx
    rcases h.binds_step hl hstep with hsame | ⟨before, s, hbefore, hs⟩
    · exact .inl ((hsame x).1 hx)
    · obtain ⟨name, hname⟩ : ∃ name, s.declares? = some name := by cases hs <;> exact ⟨_, rfl⟩
      rcases (hs.binds h.size_pos hname hstep x).1 hx with rfl | hx
      · exact .inr ⟨source, hsource, before, s, name, hbefore ▸ hcompile, hs, hname, rfl⟩
      · exact .inl hx
  · rintro (hx | ⟨-, -, -, s, name, -, hs, hname, rfl⟩)
    · rcases h.binds_step hl hstep with hsame | ⟨before, s, -, hs⟩
      · exact (hsame x).2 hx
      · obtain ⟨name, hname⟩ : ∃ name, s.declares? = some name := by cases hs <;> exact ⟨_, rfl⟩
        exact (hs.binds h.size_pos hname hstep x).2 (.inr hx)
    · exact (hs.binds h.size_pos hname hstep name.text).2 (.inl rfl)

/-- After a step, statements stand where they may, in front of those that are still to come. -/
theorem mayStand_step (h : W.Traced m) {program : List RStmt}
    (hl : m.focus.Lawful (Machine.MayStand program m.pending))
    (hp : ∃ before, program = before ++ m.pending) (hstep : m.step W.settings = .next m') :
    m'.focus.Lawful (Machine.MayStand program m'.pending) ∧
      ∃ before, program = before ++ m'.pending := by
  rcases (Machine.moves_step hstep).laws with ⟨hsame, hkeeps⟩ | ⟨c, s, -, hpending, hfocus⟩
  · rw [hsame]
    exact ⟨hkeeps _ (Machine.discipline_mayStand program m.pending) (fun _ => h.inv.chooses) hl, hp⟩
  · obtain ⟨before, hbefore⟩ := hp
    rw [hpending] at hbefore
    rw [hfocus]
    refine ⟨⟨.inr (.inr ⟨rfl, before, hbefore⟩), trivial⟩, before ++ [s], ?_⟩
    rw [hbefore, List.append_assoc, List.singleton_append]

end Traced
end World

namespace BindsDeclared
variable {settings : Settings} {sources : List String} {past : List Machine} {store : Store}

theorem names_iff (h : BindsDeclared sources past store) (x : String) :
    store.binds Store.globals x ↔ x = "clock" ∨ ∃ q ∈ past, q.DefinesGlobal sources x := by
  refine ⟨h.declared x, ?_⟩
  rintro (rfl | ⟨q, hq, -, -, -, s, name, -, hs, hname, rfl⟩)
  · exact h.clock
  · exact h.defined q hq s name hs hname

theorem initial : BindsDeclared [] [] .initial := by
  refine ⟨rfl, fun x hx => .inl ?_, nofun⟩
  obtain ⟨v, hv⟩ := Option.isSome_iff_exists.1 hx
  exact (Store.find?_initial hv).2.1

/-- A further text declares nothing until it runs. -/
theorem append (h : BindsDeclared sources past store) (source : String) :
    BindsDeclared (sources ++ [source]) past store := by
  refine ⟨h.clock, fun x hx => ?_, h.defined⟩
  rcases h.declared x hx with hx | ⟨q, hq, source', hsource, hx⟩
  · exact .inl hx
  · exact .inr ⟨q, hq, source', List.mem_append_left _ hsource, hx⟩

theorem step {m m' : Machine} (h : BindsDeclared sources past m.store)
    (ht : (World.of settings sources past m.store).Traced m) {source : String}
    (hsource : source ∈ sources) {program : List RStmt} (hcompile : compile source = .ok program)
    (hl : m.focus.Lawful (Machine.MayStand program m.pending))
    (hstep : m.step settings = .next m') : BindsDeclared sources (past ++ [m]) m'.store := by
  have hglobals := ht.globals_step hsource hcompile hl hstep
  refine ⟨(hglobals _).2 (.inl h.clock), fun x hx => ?_, ?_⟩
  · rcases (hglobals x).1 hx with hx | hx
    · rcases h.declared x hx with hx | ⟨q, hq, hx⟩
      · exact .inl hx
      · exact .inr ⟨q, List.mem_append_left _ hq, hx⟩
    · exact .inr ⟨m, List.mem_append_right _ List.mem_cons_self, hx⟩
  · intro q hq s x hs hx
    rcases List.mem_append.1 hq with hq | hq
    · exact (hglobals _).2 (.inl (h.defined q hq s x hs hx))
    · cases List.mem_singleton.1 hq
      exact (hs.binds ht.size_pos hx hstep x.text).2 (.inl rfl)

end BindsDeclared

namespace Session
variable {settings : Settings} {sources : List String} {past : List Machine} {s : Session}

/-- Every state of the run of a text, if the globals are as they should be before. -/
theorem Reached.bindsDeclared_run (hs : s.Reached settings sources past)
    (h : BindsDeclared sources past s.store) {source : String} {program : List RStmt}
    (hc : compile source = .ok program) {n : Nat} {m : Machine}
    (hm : (Machine.start program s.store).run settings n = (m, none)) :
    BindsDeclared (sources ++ [source])
        (past ++ (Machine.start program s.store).passed settings n) m.store ∧
      m.focus.Lawful (Machine.MayStand program m.pending) ∧
      ∃ before, program = before ++ m.pending := by
  refine Machine.run_induction (m := .start program s.store) (P := fun passed m =>
    BindsDeclared (sources ++ [source]) (past ++ passed) m.store ∧
      m.focus.Lawful (Machine.MayStand program m.pending) ∧
      ∃ before, program = before ++ m.pending) ?_ ?_ hm
  · rw [List.append_nil]
    exact ⟨h.append source, trivial, [], rfl⟩
  · intro i q q' hq hinv hstep
    obtain ⟨hbinds, hl, hp⟩ := hinv
    have ht := hs.traced hc hq
    rw [← List.append_assoc]
    exact ⟨hbinds.step ht (List.mem_append_right _ List.mem_cons_self) hc hl hstep,
      ht.mayStand_step hl hp hstep⟩

theorem Reached.bindsDeclared (hs : s.Reached settings sources past) :
    BindsDeclared sources past s.store := by
  induction hs with
  | fresh journal => exact .initial
  | @run sources past s fuel source hs ih =>
    unfold Session.run Session.runWith Session.passed
    cases hc : compile source with
    | error notes =>
      rw [Session.read_of_error hc, List.append_nil]
      exact ih.append source
    | ok program =>
      rw [Session.read_of_ok hc, Session.begin_eq hs.depth_eq]
      show BindsDeclared _ (past ++ (Machine.start program s.store).passed settings fuel)
        ((Machine.start program s.store).run settings fuel).1.store
      cases hrun : (Machine.start program s.store).run settings fuel with
      | mk m o =>
        cases o with
        | none => exact (hs.bindsDeclared_run ih hc hrun).1
        | some e =>
          obtain ⟨i, hi, -, hpassed⟩ := Machine.run_eq_some hrun
          rw [hpassed]
          exact (hs.bindsDeclared_run ih hc hi).1

end Session

namespace Machine
variable {settings : Settings} {m : Machine}

section
variable {x y : Name} {ref : Option Nat} {ms : List (Method (Option Nat))} {env : Environment}
  {k : StmtCont} (hfocus : m.focus = .execute (.classDef x (some (y, ref)) ms) env k)
include hfocus

/-- The superclass is looked up first. -/
theorem run_classDef (n : Nat) : m.run settings (n + 1) =
    Machine.run settings n
      { m with focus := .evaluate (.var y ref) env (.inherit x y ms env k) } := by
  refine run_of_next ?_ n
  rw [step, hfocus]
  rfl

theorem run_superclass {v : Value} (hv : m.valueOf? y.text ref env = some v) (n : Nat) :
    m.run settings (n + 2) =
      Machine.run settings n { m with focus := .deliver v (.inherit x y ms env k) } := by
  rw [run_classDef hfocus]
  refine run_of_next ?_ n
  show lookingUp _ y.text ref y.token env _ = _
  unfold valueOf? at hv
  unfold lookingUp
  cases ref with
  | some d =>
    dsimp only at hv ⊢
    cases hget : m.store.scopes.getAt env d y.text with
    | ok w =>
      rw [hget] at hv
      cases hv
      rfl
    | error f =>
      rw [hget] at hv
      cases hv
  | none =>
    dsimp only at hv ⊢
    rw [hv]
    rfl

theorem run_noSuperclass (hv : m.valueOf? y.text ref env = none) :
    ∃ e, m.run settings 2 =
        ({ m with focus := .evaluate (.var y ref) env (.inherit x y ms env k) }, some e) ∧
      (ref = none → e = .failed ⟨.undefinedVariable y.text, y.token⟩) := by
  have hstop {q : Machine} {e : Ending} (h : q.step settings = .stop q e) :
      q.run settings 1 = (q, some e) := run_of_stop h 0
  simp only [run_classDef hfocus]
  unfold valueOf? at hv
  cases ref with
  | some d =>
    dsimp only at hv
    cases hget : m.store.scopes.getAt env d y.text with
    | ok w =>
      rw [hget] at hv
      cases hv
    | error f =>
      refine ⟨.unreachable f, hstop ?_, nofun⟩
      simp only [step, evaluate, lookingUp, hget]
  | none =>
    refine ⟨_, hstop ?_, fun _ => rfl⟩
    dsimp only at hv
    simp only [step, evaluate, lookingUp, hv]
    rfl

end
end Machine

/-- In every state of every run of a session, the names bound globally are those of the outermost
declarations that have come to their definition.  They are so after every text as well. -/
theorem Session.Reached.globals_areDeclared {settings : Settings} {sources : List String}
    {past : List Machine} {s : Session} (hs : s.Reached settings sources past) :
    (∀ x, s.store.binds Store.globals x ↔
      x = "clock" ∨ ∃ q ∈ past, q.DefinesGlobal sources x) ∧
    ∀ source program n m, compile source = .ok program →
      (Machine.start program s.store).run settings n = (m, none) →
      GlobalsAreDeclared settings (sources ++ [source])
        (past ++ (Machine.start program s.store).passed settings n) m := by
  refine ⟨hs.bindsDeclared.names_iff, fun source program n m hc hm => ?_⟩
  obtain ⟨hbinds, hl, -⟩ := hs.bindsDeclared_run hs.bindsDeclared hc hm
  have ht := hs.traced hc hm
  have hsource : source ∈ sources ++ [source] := List.mem_append_right _ List.mem_cons_self
  exact {
    names := hbinds.names_iff
    step := fun m' hstep => ht.globals_step hsource hc hl hstep
    stop := fun m' e => Machine.eq_of_stop
    assignment := by
      intro x ref e env k hfocus
      rw [Machine.step, hfocus]
      rfl
    unassigned := by
      intro v x env k hfocus hx
      simp only [Machine.step, hfocus, Machine.deliver, Machine.assigning, if_neg hx]
      rfl
    superclass := fun x y ref ms env k c hfocus hv => Machine.run_superclass hfocus hv 0
    notClass := by
      intro x y ref ms env k v hfocus hv hclass
      refine (Machine.run_superclass hfocus hv 1).trans (Machine.run_of_stop ?_ 0)
      cases v with
      | «class» c => exact absurd rfl (hclass c)
      | _ => rfl
    undefined := fun x y ref ms env k hfocus hv => Machine.run_noSuperclass hfocus hv }

/-- The second statement has its own scope, and the third one fails, as the value of its superclass
is no class: only the first statement declares a global name. -/
theorem Session.globals_areDeclared_after_failure :
    ∃ (s : Session) (past : List Machine),
      s.Reached {} ["var a; \x7b var b; \x7d class C < a \x7b\x7d"] past ∧
      s.journal.hasFailures = true ∧ s.store.binds Store.globals "a" = true ∧
      s.store.binds Store.globals "b" = false ∧ s.store.binds Store.globals "C" = false ∧
      ∀ x, s.store.binds Store.globals x ↔
        x = "clock" ∨ ∃ q ∈ past,
          q.DefinesGlobal ["var a; \x7b var b; \x7d class C < a \x7b\x7d"] x := by
  have hc : compile "var a; \x7b var b; \x7d class C < a \x7b\x7d" = .ok
      [.var ⟨"a", 1⟩ none, .block [.var ⟨"b", 1⟩ none],
        .classDef ⟨"C", 1⟩ (some (⟨"a", 1⟩, none)) []] := by cbv
  have hs : Session.Reached {} _ _ _ :=
    .run 20 "var a; \x7b var b; \x7d class C < a \x7b\x7d" (.fresh {})
  rw [Session.run, Session.runWith, Session.passed, Session.read_of_ok hc] at hs
  exact ⟨_, _, hs, rfl, rfl, rfl, rfl, (Session.Reached.globals_areDeclared hs).1⟩

end LoxScript
