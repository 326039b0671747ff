import Mathlib
import LoxScript.Proofs.Binding.Steps
import LoxScript.Proofs.Machine.Depth
import LoxScript.Proofs.Machine.Stops

/-!
Resolution and the environments of running programs agree, through all the texts of a session.

Whenever a use of a name is looked at, it stands at a place of one of the programs read so far, and
the environment it is looked at in was made, scope by scope, for the scopes around that place.  So
the recorded distance leads to an environment that was made for the scope in which resolution found
the name.  That environment binds the name, unless it is a variable whose initial value has not been
completed since its declaration began there.
-/

namespace LoxScript

namespace Machine

/-- The states stepped from in a run. -/
def passed (settings : Settings) : Nat → Machine → List Machine
  | 0, _ => []
  | fuel + 1, m =>
    match m.step settings with
    | .next m' => m :: passed settings fuel m'
    | .stop _ _ => []

/-- The declaration of a variable has begun in an environment, and its initial value has not been
completed. -/
def IsHalfway (past : List Machine) (e : Environment) (x : String) : Prop :=
  (∃ q ∈ past, q.Begins e x) ∧ ¬∃ q ∈ past, q.Completes e x

/-- A variable is read that its scope does not bind, because its initial value is missing. -/
def Misses (past : List Machine) (m : Machine) (f : ReachFault) : Prop :=
  ∃ x line d env e', m.Uses ⟨.variable, x, line, some d⟩ env ∧ env.ancestor? d = some e' ∧
    f = .unbound x ∧ m.store.find? e'.scope x = none ∧ IsHalfway past e' x

end Machine

/-- The programs read from texts. -/
def programsOf (sources : List String) : List (List (Stmt Unit)) :=
  sources.map fun source => (Reading.ofText source).statements

section
variable (settings : Settings) (sources : List String) (past : List Machine) (m : Machine)
  (u : Use (Option Nat)) (env : Environment)

/-- The use stands inside the scopes `Γ` in one of the programs, and it is looked at in an
environment made for them. -/
structure StandsIn (Γ : Frames) : Prop where
  occurs : ∃ a e, Place.Occurs (programsOf sources) ⟨a, Γ, .expr e⟩ ∧
    e.use? = some ⟨u.kind, u.name, u.line, ()⟩
  ref : u.ref = Γ.scopes.distance? u.name
  activates : Activates settings past Γ env
  current : m.IsCurrent settings past env

/-- The environment at a distance was made for the scope at that distance, which declares the name,
and it has a value for it or will have one. -/
def FindsAt (Γ : Frames) (d : Nat) : Prop :=
  ∃ e' f, env.ancestor? d = some e' ∧ Γ[d]? = some f ∧ f.names.declares u.name = true ∧
    (∃ q ∈ past, q.Opens settings f.opener e') ∧
    ((∃ v, m.store.find? e'.scope u.name = some v) ∨ Machine.IsHalfway past e' u.name)

/-- The environment at a distance binds the receiver of a method of the class. -/
def ReceiverAt (d : Nat) (ms : List (Method (Option Nat))) : Prop :=
  ∃ e' i c, env.ancestor? d = some e' ∧ (∃ q ∈ past, q.Opens settings (.receiver ms) e') ∧
    m.store.find? e'.scope "this" = some (.instance i c)

/-- The environment at a distance binds the superclass of the class. -/
def SuperclassAt (d : Nat) (ms : List (Method (Option Nat))) : Prop :=
  ∃ e' c, env.ancestor? d = some e' ∧ (∃ q ∈ past, q.Opens settings (.superclass ms) e') ∧
    m.store.find? e'.scope "super" = some (.class c)

/-- What resolution promises of a use of a name, and the environment keeps. -/
structure Agrees : Prop where
  place : ∃ Γ, StandsIn settings sources past m u env Γ ∧
    ∀ d, u.ref = some d → FindsAt settings past m u env Γ d
  this : u.kind = .this → ∃ d ms, u.ref = some d ∧ ReceiverAt settings past m env d ms
  super : u.kind = .super → ∃ d ms, u.ref = some (d + 1) ∧ ReceiverAt settings past m env d ms ∧
    SuperclassAt settings past m env (d + 1) ms

end

namespace World

/-- The world of a store, after some states and with the programs of some texts. -/
def of (settings : Settings) (sources : List String) (past : List Machine) (s : Store) : World :=
  { settings, programs := programsOf sources, past, store := s, awaited := [] }

theorem Fits.activates {W : World} {Γ : Frames} {e : Environment} (h : W.Fits Γ e) :
    Activates W.settings W.past Γ e := by
  induction h with
  | globals => exact .globals
  | nested _ ho _ _ ih => exact .nested ih ho

/-- Statements that are being run were begun in their environment. -/
theorem enters_of_stmtContOk {W : World} :
    (k : StmtCont) → W.StmtContOk k → ∀ env k', k.running? = some (env, k') →
      ∃ q ∈ W.past, q.Enters W.settings env k'
  | .sequence _ _ _, hk, _, _, rfl => hk.2.1
  | .loopBody _ _ _ k, hk, env, k', h => enters_of_stmtContOk k hk.2.2 env k' h

theorem enters_of_valueContOk {W : World} :
    (k : ValueCont) → W.ValueContOk k → ∀ env k', k.statement.running? = some (env, k') →
      ∃ q ∈ W.past, q.Enters W.settings env k'
  | .unary _ _ k, hk | .binaryRight _ _ _ k, hk | .get _ k, hk | .setValue _ _ k, hk
  | .updateValue _ _ _ _ _ k, hk => enters_of_valueContOk k hk
  | .binaryLeft _ _ _ _ k, hk | .logical _ _ _ k, hk | .setObject _ _ _ k, hk
  | .updateObject _ _ _ _ _ k, hk | .assign _ _ _ k, hk | .callee _ _ _ k, hk =>
    enters_of_valueContOk k hk.2.2
  | .argument _ _ _ _ _ k, hk => enters_of_valueContOk k hk.2.2.2
  | .discard k, hk | .print k, hk | .ret k, hk => enters_of_stmtContOk k hk
  | .branch _ _ _ k, hk | .loopTest _ _ _ k, hk => enters_of_stmtContOk k hk.2.2
  | .define x env k, hk => enters_of_stmtContOk (W := W.awaiting env x) k hk.2.2
  | .inherit x _ _ env k, hk => enters_of_stmtContOk (W := W.awaiting env x.text) k hk.2.2

/-- A use that is looked at: its place, the scopes around it, and the statements being run. -/
theorem Inv.use {W : World} {m : Machine} (h : W.Inv m) {u : Use (Option Nat)} {env : Environment}
    (hu : m.Uses u env) :
    ∃ Γ e₀ e, ExprAt W.programs Γ e₀ e ∧ e.use? = some u ∧ W.Fits Γ env ∧
      m.IsCurrent W.settings W.past env := by
  have hcurrent : ∀ k : ValueCont, m.focus.statement = k.statement →
      env = k.statement.environment → W.ValueContOk k → m.IsCurrent W.settings W.past env := by
    intro k hk henv hok
    unfold Machine.IsCurrent
    rw [hk]
    cases hr : k.statement.running? with
    | none => rw [henv, StmtCont.environment, hr]; rfl
    | some r =>
      obtain ⟨env', k'⟩ := r
      have he : env = env' := by rw [henv, StmtCont.environment, hr]; rfl
      exact ⟨he, he ▸ enters_of_valueContOk k hok env' k' hr⟩
  have hf := h.focus
  cases hu with
  | @evaluate e env k u hfocus he =>
    rw [hfocus] at hf
    obtain ⟨⟨Γ, e₀, hat, hfits⟩, henv, hk⟩ := hf
    exact ⟨Γ, e₀, e, hat, he, hfits, hcurrent k (by rw [hfocus]; rfl) henv hk⟩
  | @assign v x ref env k hfocus =>
    rw [hfocus] at hf
    obtain ⟨-, ⟨e, Γ, e₀, hat, hfits⟩, henv, hk⟩ := hf
    exact ⟨Γ, e₀, _, hat, rfl, hfits, hcurrent k (by rw [hfocus]; rfl) henv hk⟩

/-- The expression of a use, as it was before resolution. -/
theorem use_of_exprAt {P : List (List (Stmt Unit))} {Γ : Frames} {e₀ : Expr Unit} {e : RExpr}
    (h : ExprAt P Γ e₀ e) {u : Use (Option Nat)} (hu : e.use? = some u) :
    e₀.use? = some ⟨u.kind, u.name, u.line, ()⟩ ∧ u.ref = Γ.scopes.distance? u.name := by
  cases h.view with
  | var | assign | this hd _ | super hd _ _ _ =>
    cases hu
    first
    | exact ⟨rfl, rfl⟩
    | exact ⟨rfl, hd.symm⟩
  | _ => cases hu

/-- The scope that declares a name, and its environment. -/
theorem Inv.findsAt {W : World} {m : Machine} (h : W.Inv m) {Γ : Frames} {env : Environment}
    (hfits : W.Fits Γ env) {u : Use (Option Nat)} {d : Nat}
    (hd : Γ.scopes.distance? u.name = some d) : FindsAt W.settings W.past m u env Γ d := by
  obtain ⟨f, hf, hdeclares⟩ := Frames.declares_of_distance? hd
  obtain ⟨e', he', hopened, hholds⟩ := hfits.ancestor_of_get hf
  refine ⟨e', f, he', hf, hdeclares, hopened, ?_⟩
  rw [← h.base.store]
  by_cases hbound : ∃ v, W.store.find? e'.scope u.name = some v
  · exact .inl hbound
  · rcases hholds.names u.name hdeclares with hx | hx | hx
    · exact absurd hx hbound
    · exact .inr ⟨hx, fun hc => hbound (h.completed e' u.name hc)⟩
    · rw [h.base.settled.awaited] at hx
      cases hx

theorem Fits.receiverAt {W : World} {m : Machine} (hb : W.Base m) {Γ : Frames} {env : Environment}
    (hfits : W.Fits Γ env) {d : Nat} {ms : List (Method (Option Nat))}
    (hd : Γ[d]? = some (.receiver ms)) : ReceiverAt W.settings W.past m env d ms := by
  obtain ⟨e', he', hopened, hholds⟩ := hfits.ancestor_of_get hd
  obtain ⟨i, c, hv⟩ := hholds.this ms rfl
  exact ⟨e', i, c, he', hopened, hb.store ▸ hv⟩

theorem Fits.superclassAt {W : World} {m : Machine} (hb : W.Base m) {Γ : Frames}
    {env : Environment} (hfits : W.Fits Γ env) {d : Nat} {ms : List (Method (Option Nat))}
    (hd : Γ[d]? = some (.superclass ms)) : SuperclassAt W.settings W.past m env d ms := by
  obtain ⟨e', he', hopened, hholds⟩ := hfits.ancestor_of_get hd
  obtain ⟨c, hv⟩ := hholds.super ms rfl
  exact ⟨e', c, he', hopened, hb.store ▸ hv⟩

theorem Inv.agrees {settings : Settings} {sources : List String} {past : List Machine}
    {m : Machine} (h : (World.of settings sources past m.store).Inv m) {u : Use (Option Nat)}
    {env : Environment} (hu : m.Uses u env) : Agrees settings sources past m u env := by
  obtain ⟨Γ, e₀, e, hat, hue, hfits, hcurrent⟩ := h.use hu
  obtain ⟨hu₀, href⟩ := use_of_exprAt hat hue
  obtain ⟨a, hoccurs, -⟩ := id hat
  refine ⟨⟨Γ, ⟨⟨a, e₀, hoccurs, hu₀⟩, href, hfits.activates, hcurrent⟩, fun d hd => ?_⟩, ?_, ?_⟩
  · exact h.findsAt hfits (href ▸ hd)
  · intro hkind
    cases hat.view with
    | this hd hreceiver =>
      cases hue
      exact ⟨_, _, rfl, hfits.receiverAt h.base hreceiver⟩
    | var | assign | super =>
      cases hue
      cases hkind
    | _ => cases hue
  · intro hkind
    cases hat.view with
    | super hd _ hreceiver hsuperclass =>
      cases hue
      exact ⟨_, _, rfl, hfits.receiverAt h.base hreceiver, hfits.superclassAt h.base hsuperclass⟩
    | var | assign | this =>
      cases hue
      cases hkind
    | _ => cases hue

theorem Inv.stops_evaluate {W : World} {m : Machine} (h : W.Inv m) {Γ : Frames} {e₀ : Expr Unit}
    {e : RExpr} {env : Environment} {k : ValueCont} (hfocus : m.focus = .evaluate e env k)
    (hat : ExprAt W.programs Γ e₀ e) (hfits : W.Fits Γ env) :
    m.Stops (m.Misses W.past) (m.evaluate e env k) := by
  cases hat.view with
  | @var x hx =>
    refine Machine.stops_lookingUp m _ x.text _ x.token env k fun d f hd hfault => ?_
    obtain ⟨e', -, he', -, -, -, hvalue⟩ := h.findsAt (u := ⟨.variable, x.text, x.line, some d⟩)
      hfits hd
    obtain ⟨rfl, hnone⟩ := Scopes.getAt_eq_error he' hfault
    have huse : m.Uses ⟨.variable, x.text, x.line, some d⟩ env :=
      .evaluate hfocus (by rw [Expr.use?, hd])
    refine ⟨x.text, x.line, d, env, e', huse, he', rfl, hnone, ?_⟩
    rcases hvalue with ⟨v, hv⟩ | hhalf
    · cases hnone.symm.trans hv
    · exact hhalf
  | this hd hreceiver =>
    rw [Machine.evaluate]
    refine Machine.stops_lookingUp m _ "this" _ _ env k fun d f hd hfault => ?_
    cases hd
    obtain ⟨e', i, c, he', -, hv⟩ := hfits.receiverAt h.base hreceiver
    cases hfault.symm.trans (Scopes.getAt_eq_ok.2 ⟨e', he', hv⟩)
  | super hd _ hreceiver hsuperclass =>
    obtain ⟨e', i, c, he', -, hv⟩ := hfits.receiverAt h.base hreceiver
    obtain ⟨e'', c', he'', -, hv'⟩ := hfits.superclassAt h.base hsuperclass
    exact Machine.stops_lookingUpSuper m _ _ k (Scopes.getAt_eq_ok.2 ⟨e'', he'', hv'⟩)
      (Scopes.getAt_eq_ok.2 ⟨e', he', hv⟩)
  | function hc => exact Machine.stops_next m _ _
  | _ => exact Machine.stops_next m _ _

/-- A call whose body has ended has an answer. -/
theorem Inv.answers {W : World} {m : Machine} (h : W.Inv m) {c : Completion} {r : CallResult}
    {k : ValueCont} (hfocus : m.focus = .complete c (.call r k)) : ∃ v, m.answer c r = .ok v := by
  have hf := h.focus
  rw [hfocus] at hf
  cases r with
  | returned => cases c <;> exact ⟨_, rfl⟩
  | made v => exact ⟨v, rfl⟩
  | receiver e =>
    obtain ⟨v, hv⟩ := hf.2.1
    rw [h.base.store] at hv
    have hthis : m.store.scopes.getAt e 0 "this" = .ok v := Scopes.getAt_eq_ok.2 ⟨e, rfl, hv⟩
    exact ⟨v, hthis⟩

/-- A scope cannot answer only if it is read for a variable that has no initial value yet. -/
theorem Inv.stops {W : World} {m : Machine} (h : W.Inv m) :
    m.Stops (m.Misses W.past) (m.step W.settings) := by
  have hf := h.focus
  unfold Machine.step
  split
  · rename_i e env k hfocus
    rw [hfocus] at hf
    obtain ⟨⟨Γ, e₀, hat, hfits⟩, -, -⟩ := hf
    exact h.stops_evaluate hfocus hat hfits
  · rename_i v k hfocus
    rw [hfocus] at hf
    refine Machine.stops_deliver m _ W.settings v k ?_
    rintro x ref env next rfl d rfl
    obtain ⟨-, ⟨e, Γ, e₀, hat, hfits⟩, -⟩ := hf
    obtain ⟨-, hd⟩ := use_of_exprAt hat rfl
    obtain ⟨e', -, he', -⟩ := h.findsAt (u := ⟨.assign, x.text, x.line, some d⟩) hfits hd.symm
    exact ⟨e', he'⟩
  · exact Machine.stops_execute m _ _ _ _
  · refine Machine.stops_complete m _ _ _ ?_
    rintro result next rfl
    exact h.answers ‹_›

theorem Inv.run {W : World} {m : Machine} (h : W.Inv m) (fuel : Nat) :
    ({ W with past := W.past ++ m.passed W.settings fuel,
              store := (m.run W.settings fuel).1.store } : World).Inv
      (m.run W.settings fuel).1 := by
  induction fuel generalizing W m with
  | zero =>
    rw [Machine.passed, List.append_nil, Machine.run, ← h.base.store]
    exact h
  | succ fuel ih =>
    rw [Machine.passed, Machine.run]
    cases hstep : m.step W.settings with
    | next m' =>
      have := ih (h.step hstep)
      rwa [World.after, List.append_assoc] at this
    | stop m' e =>
      obtain ⟨rfl, -⟩ := h.stops m' e hstep
      rw [List.append_nil, ← h.base.store]
      exact h

end World

namespace Session

/-- The states stepped from while a text is run. -/
def passed (settings : Settings) (fuel : Nat) (s : Session) (source : String) : List Machine :=
  match s.read source with
  | .error _ => []
  | .ok r => r.machine.passed settings fuel

/-- The sessions that can come about, each with the texts given so far and the states stepped from
while they were run. -/
inductive Reached (settings : Settings) : List String → List Machine → Session → Prop
  | fresh (journal : Journal) : Reached settings [] [] { journal }
  | run {sources : List String} {past : List Machine} {s : Session} (fuel : Nat)
      (source : String) : Reached settings sources past s →
      Reached settings (sources ++ [source]) (past ++ s.passed settings fuel source)
        (s.run settings fuel source).2

/-- No call is in progress between two texts. -/
theorem Reached.depth_eq {settings : Settings} {sources : List String} {past : List Machine}
    {s : Session} (h : s.Reached settings sources past) : s.depth = 0 := by
  induction h with
  | fresh journal => rfl
  | run fuel source _ ih => exact depth_run ih rfl

end Session

namespace World

/-- What holds of a store between two programs. -/
structure Rests (W : World) : Prop where
  settled : W.Settled
  completed : ∀ e x, (∃ q ∈ W.past, q.Completes e x) → ∃ v, W.store.find? e.scope x = some v

/-- A further text changes nothing of what is there. -/
theorem le_of_append (settings : Settings) (sources : List String) (past : List Machine)
    (store : Store) (source : String) :
    (World.of settings sources past store).Le
      (World.of settings (sources ++ [source]) past store) :=
  ⟨rfl, List.map_subset _ (List.subset_append_left _ _), fun _ h => h, Nat.le_refl _,
    fun _ _ h => h, fun _ _ h => h, fun _ _ _ h => h⟩

theorem Rests.append {settings : Settings} {sources : List String} {past : List Machine}
    {store : Store} (h : (World.of settings sources past store).Rests) (source : String) :
    (World.of settings (sources ++ [source]) past store).Rests := by
  have hle := le_of_append settings sources past store source
  have hs := h.settled
  exact ⟨⟨hs.positive, fun i x v hv => (hs.bound i x v hv).mono hle,
    fun i x v hv => (hs.fields i x v hv).mono hle, rfl⟩, h.completed⟩

/-- What holds of every state of the run of a text. -/
theorem Rests.run {settings : Settings} {sources : List String} {past : List Machine}
    {store : Store} (h : (World.of settings sources past store).Rests) {source : String}
    {program : List RStmt} (hc : compile source = .ok program) (n : Nat) :
    (World.of settings (sources ++ [source])
      (past ++ (Machine.start program store).passed settings n)
      ((Machine.start program store).run settings n).1.store).Inv
      ((Machine.start program store).run settings n).1 := by
  obtain ⟨haccepted, hvalue⟩ := accepted_of_compile hc
  have hr := h.append source
  have hstart : (World.of settings (sources ++ [source]) past store).Inv
      (.start program store) := by
    refine ⟨⟨rfl, hr.settled, ?_⟩, ⟨nofun, trivial⟩, hr.completed⟩
    refine ⟨_, ⟨.outermost, .outside⟩, ⟨_, ?_, haccepted, .outermost⟩, hvalue⟩
    exact List.mem_map_of_mem (List.mem_append_right _ List.mem_cons_self)
  exact hstart.run n

theorem rests_initial (settings : Settings) : (World.of settings [] [] .initial).Rests := by
  refine ⟨⟨Nat.one_pos, fun i x v hv => ?_, fun i x v hv => ?_, rfl⟩, ?_⟩
  · obtain ⟨-, -, rfl⟩ := Store.find?_initial hv
    trivial
  · cases hv
  · rintro e x ⟨q, hq, -⟩
    cases hq

theorem rests_of_reached {settings : Settings} {sources : List String} {past : List Machine}
    {s : Session} (h : s.Reached settings sources past) :
    (World.of settings sources past s.store).Rests := by
  induction h with
  | fresh journal => exact rests_initial settings
  | @run sources past s fuel source hs ih =>
    unfold Session.run Session.runWith Session.passed
    cases hc : compile source with
    | error notes =>
      rw [Session.read_of_error hc, List.append_nil]
      exact ih.append source
    | ok program =>
      have hinv := ih.run hc fuel
      rw [Session.read_of_ok hc, Session.begin_eq hs.depth_eq]
      exact ⟨hinv.base.settled, hinv.completed⟩

end World

/-- The uses of names at every point of every run of a session agree with resolution.  A scope that
cannot answer is one that is read for a variable without an initial value; that a chain of
environments is too short does not happen. -/
theorem Session.Reached.uses_agree {settings : Settings} {sources : List String}
    {past : List Machine} {s : Session} (hs : s.Reached settings sources past) {source : String}
    {program : List RStmt} (hc : compile source = .ok program) {n : Nat} {m : Machine}
    (hm : (Machine.start program s.store).run settings n = (m, none)) :
    (∀ u env, m.Uses u env → Agrees settings (sources ++ [source])
      (past ++ (Machine.start program s.store).passed settings n) m u env) ∧
    ∀ m' f, m.step settings = .stop m' (.unreachable f) →
      m.Misses (past ++ (Machine.start program s.store).passed settings n) f := by
  have h := (World.rests_of_reached hs).run hc n
  rw [hm] at h
  exact ⟨fun u env hu => h.agrees hu, fun m' f hf => (h.stops m' _ hf).2 f rfl⟩

/-- A function escapes from the initial value of the variable that it reads, and that value is never
completed.  When a later text calls the function, the variable is found where it was declared, and
has no value. -/
theorem Session.uses_agree_after_failure :
    ∃ (s : Session) (past : List Machine) (program : List RStmt) (m : Machine) (env : Environment),
      s.Reached {} ["var f; { var a = (f = fun () { return a; })(); }"] past ∧
      compile "f();" = .ok program ∧ (Machine.start program s.store).run {} 7 = (m, none) ∧
      m.Uses ⟨.variable, "a", 1, some 1⟩ env ∧
      Agrees {} ["var f; { var a = (f = fun () { return a; })(); }", "f();"]
        (past ++ (Machine.start program s.store).passed {} 7) m ⟨.variable, "a", 1, some 1⟩ env ∧
      m.Misses (past ++ (Machine.start program s.store).passed {} 7) (.unbound "a") := by
  have h₁ : compile "var f; { var a = (f = fun () { return a; })(); }" = .ok
      [.var ⟨"f", 1⟩ none, .block [.var ⟨"a", 1⟩ (some (.call (.grouping (.assign ⟨"f", 1⟩ none
        (.function 1 (.mk [] [.ret 1 (some (.var ⟨"a", 1⟩ (some 1)))])))) 1 []))]] := by cbv
  have h₂ : compile "f();" = .ok [.expression (.call (.var ⟨"f", 1⟩ none) 1 [])] := by cbv
  have hs : Session.Reached {} _ _ _ :=
    .run 15 "var f; { var a = (f = fun () { return a; })(); }" (.fresh {})
  rw [Session.run, Session.runWith, Session.passed, Session.read_of_ok h₁] at hs
  obtain ⟨huses, hmisses⟩ := Session.Reached.uses_agree hs h₂ (n := 7) rfl
  exact ⟨_, _, _, _, _, hs, h₂, rfl, .evaluate rfl rfl, huses _ _ (.evaluate rfl rfl),
    hmisses _ _ rfl⟩

end LoxScript
