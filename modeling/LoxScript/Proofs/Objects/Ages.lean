import LoxScript.Proofs.Machine.Developing
import LoxScript.Proofs.Machine.Runs
import LoxScript.Proofs.Objects.Classes

/-!
The ages of environments and of classes.

What an environment lies in and what a class extends were there before it, and no two of them have
the same number.  So the numbers fall along every chain, and what a number stands for never changes.
-/

namespace LoxScript

/-- The outermost environment, or one that a step has made. -/
def IsMade (settings : Settings) (past : List Machine) (e : Environment) : Prop :=
  e = Store.globals ∨ ∃ q ∈ past, ∃ o, q.Opens settings o e

theorem IsMade.mono {settings : Settings} {past past' : List Machine} {e : Environment}
    (h : IsMade settings past e) (hp : past ⊆ past') : IsMade settings past' e := by
  rcases h with h | ⟨q, hq, ho⟩
  · exact .inl h
  · exact .inr ⟨q, hp hq, ho⟩

/-- The environment of a function, or of a method of a class. -/
inductive Captures : Value → Environment → Prop
  | function {i f} : Captures (.function i f) f.environment
  | method {c x f} : c.methods.find? x = some f → Captures (.class c) f.environment

/-- Where the body of what is called will lie. -/
def ValueOf.body? : Value → Option Environment
  | .function _ f => some f.environment
  | .class c => c.initializer?.map (·.environment)
  | _ => none

namespace Machine
variable {m m' : Machine} {settings : Settings}

/-- The environment in which the step makes a scope, if it makes any. -/
def around? (m : Machine) : Option Environment :=
  match m.focus with
  | .execute (.block _) env _ => some env
  | .deliver v (.callee _ [] _ _) => v.body?
  | .deliver _ (.argument _ callee _ [] _ _) => callee.body?
  | .deliver (.instance i c) (.get x _) | .deliver (.instance i c) (.updateObject x _ _ _ _ _) =>
    match m.store.property? i c x.text with
    | some (.method f) => some f.environment
    | _ => none
  | .evaluate (.super _ (some d) x) env _ =>
    match m.store.scopes.getAt env d "super" with
    | .ok (.class c) => (c.method? x.text).map (·.environment)
    | _ => none
  | .deliver (.class _) (.inherit _ _ _ env _) => some env
  | _ => none

theorem Calls.around? {v : Value} (h : m.Calls v) : m.around? = v.body? := by
  cases h with
  | bare h | applied h => rw [Machine.around?, h]

theorem Binds.around? {f : Closure} (h : m.Binds f) : m.around? = some f.environment := by
  cases h with
  | get h hp | update h hp => simp only [Machine.around?, h, hp]
  | super h hc hf => simp only [Machine.around?, h, hc, hf, Option.map_some]
  | initializer h hf => rw [h.around?, ValueOf.body?, hf, Option.map_some]

/-- A step makes an environment inside a certain one, or inside a new one there. -/
theorem Prepares.around? {o : Opener} {e : Environment} (h : m.Prepares o e) :
    ∃ b, m.around? = some b ∧ (e = m.inside b ∨ e = .nested ⟨m.store.size + 1⟩ (m.inside b)) := by
  cases h with
  | block h => exact ⟨_, by rw [Machine.around?, h], .inl rfl⟩
  | function h => exact ⟨_, h.around?, .inl rfl⟩
  | initializer h hf => exact ⟨_, (Binds.initializer h hf).around?, .inr rfl⟩
  | receiver h _ => exact ⟨_, h.around?, .inl rfl⟩
  | superclass h => exact ⟨_, by rw [Machine.around?, h], .inl rfl⟩

/-- A step makes one environment of a scope. -/
theorem Prepares.eq {o o' : Opener} {e e' : Environment} (h : m.Prepares o e)
    (h' : m.Prepares o' e') (hscope : e.scope = e'.scope) : e = e' := by
  obtain ⟨b, hb, he⟩ := h.around?
  obtain ⟨b', hb', he'⟩ := h'.around?
  obtain rfl := Option.some.inj (hb.symm.trans hb')
  have hne : (⟨m.store.size⟩ : ScopeId) ≠ ⟨m.store.size + 1⟩ := fun hc =>
    Nat.succ_ne_self _ (congrArg ScopeId.index hc).symm
  rcases he with rfl | rfl <;> rcases he' with rfl | rfl
  · rfl
  · exact absurd hscope hne
  · exact absurd hscope.symm hne
  · rfl

/-- A class is made with the number that is next. -/
theorem Creates.identity_eq {c : ClassObject} (h : m.Creates (.class c)) :
    c.identity = m.store.identities := by
  cases h <;> rfl

theorem Creates.identity_lt {c : ClassObject} (h : m.Creates (.class c))
    (hstep : m.step settings = .next m') : c.identity < m'.store.identities := by
  rw [h.identity_eq]
  cases h with
  | base hfocus | derived hfocus =>
    simp only [step, hfocus, execute, deliver] at hstep
    cases hstep
    exact Nat.lt_succ_self _

/-- A step makes one class. -/
theorem Creates.class_eq {c c' : ClassObject} (h : m.Creates (.class c))
    (h' : m.Creates (.class c')) : c = c' := by
  cases h with
  | base h | derived h =>
    cases h' with
    | base h' | derived h' =>
      cases h.symm.trans h'
      try rfl

end Machine

/-- An environment that has been made, in a store that has its scope. -/
structure World.Reaches (W : World) (e : Environment) : Prop where
  made : IsMade W.settings W.past e
  lt_size : e.scope.index < W.store.size

namespace World
variable {W : World} {m m' : Machine}

theorem Fits.isMade {Γ : Frames} {e : Environment} (h : W.Fits Γ e) :
    IsMade W.settings W.past e := by
  cases h with
  | globals => exact .inl rfl
  | nested _ ho _ _ =>
    obtain ⟨q, hq, ho⟩ := ho
    exact .inr ⟨q, hq, _, ho⟩

theorem Fits.reaches (hpos : 0 < W.store.size) {Γ : Frames} {e : Environment} (h : W.Fits Γ e) :
    W.Reaches e := ⟨h.isMade, h.lt_size hpos⟩

namespace Inv

theorem valueOk_of_calls (h : W.Inv m) {v : Value} (hv : m.Calls v) : W.ValueOk v := by
  have hf := h.focus
  cases hv with
  | bare hfocus =>
    rw [hfocus] at hf
    exact hf.1
  | applied hfocus =>
    rw [hfocus] at hf
    exact hf.2.1.1

theorem methodOk_of_binds (h : W.Inv m) {f : Closure} (hb : m.Binds f) : W.MethodOk f := by
  have hf := h.focus
  cases hb with
  | get hfocus hp | update hfocus hp =>
    rw [hfocus] at hf
    exact hf.1 _ f (Store.property?_method hp)
  | super hfocus hc hm =>
    obtain ⟨e', -, hc⟩ := Scopes.getAt_eq_ok.1 hc
    rw [← h.base.store] at hc
    exact h.base.settled.bound _ _ _ hc _ f hm
  | initializer hv hm => exact h.valueOk_of_calls hv _ f hm

/-- What a new environment lies in is an environment that was there, or one made by the same
step. -/
theorem reaches_outer (h : W.Inv m) {o : Opener} {i : ScopeId} {e : Environment}
    (hp : m.Prepares o (.nested i e)) :
    W.Reaches e ∨ (∃ o', m.Prepares o' e) ∧ e.scope.index < i.index := by
  have hpos := h.base.settled.positive
  have hf := h.focus
  cases hp with
  | block hfocus =>
    rw [hfocus] at hf
    obtain ⟨⟨Γ, s₀, -, hfits⟩, -⟩ := hf
    exact .inl (hfits.reaches hpos)
  | function hv =>
    obtain ⟨⟨Γ, c₀, -, hfits⟩, -⟩ := h.valueOk_of_calls hv
    exact .inl (hfits.reaches hpos)
  | @initializer c f hv hm =>
    refine .inr ⟨⟨.receiver [.mk default f.code], ?_⟩, Nat.lt_succ_self _⟩
    exact .receiver (.initializer hv hm) List.mem_cons_self
  | receiver hb _ =>
    obtain ⟨Γ, ms, c₀, -, -, hfits⟩ := h.methodOk_of_binds hb
    exact .inl (hfits.reaches hpos)
  | @superclass c x y ms env k hfocus =>
    rw [hfocus] at hf
    obtain ⟨-, ⟨Γ, ms₀, -, hfits, -⟩, -⟩ := hf
    have hreaches := Fits.reaches (W := W.awaiting _ x.text) hpos hfits
    exact .inl ⟨hreaches.made, hreaches.lt_size⟩

/-- What an object that a step makes captures is an environment that was there, or one made by the
same step. -/
theorem reaches_captured (h : W.Inv m) {v : Value} (hv : m.Creates v) {e : Environment}
    (he : Captures v e) :
    W.Reaches e ∨ (∃ o, m.Prepares o e) ∧ e.scope = ⟨m.store.size⟩ ∧ ∃ b, m.Seals b := by
  have hpos := h.base.settled.positive
  have hf := h.focus
  cases hv with
  | function hcloses =>
    cases he
    cases hcloses with
    | expression hfocus =>
      rw [hfocus] at hf
      obtain ⟨⟨Γ, e₀, -, hfits⟩, -⟩ := hf
      exact .inl (hfits.reaches hpos)
    | declaration hfocus =>
      rw [hfocus] at hf
      obtain ⟨⟨Γ, s₀, -, hfits⟩, -⟩ := hf
      exact .inl (hfits.reaches hpos)
  | @method f r ht =>
    cases he
    have hbinds : m.Binds f := by
      cases ht with
      | get hfocus hp => exact .get hfocus hp
      | update hfocus hp => exact .update hfocus hp
      | super hfocus hc _ hf => exact .super hfocus hc hf
    exact .inr ⟨⟨.receiver [.mk default f.code], .receiver hbinds List.mem_cons_self⟩, rfl, _,
      .receiver (.taken ht)⟩
  | base hfocus =>
    cases he with
    | method hfind =>
      obtain ⟨g, -, rfl⟩ := Machine.mem_of_find?_methodTable hfind
      rw [hfocus] at hf
      obtain ⟨⟨Γ, s₀, -, hfits⟩, -⟩ := hf
      exact .inl (hfits.reaches hpos)
  | derived hfocus =>
    cases he with
    | method hfind =>
      obtain ⟨g, -, rfl⟩ := Machine.mem_of_find?_methodTable hfind
      exact .inr ⟨⟨_, .superclass hfocus⟩, rfl, _, .superclass hfocus⟩
  | «instance» => cases he

end Inv
end World

/-- One of the steps makes its scopes and its class, if it does make any, before the other one. -/
structure Machine.Precedes (settings : Settings) (q q' : Machine) : Prop where
  scopes : ∀ i i', q.Adds settings i → q'.Adds settings i' → i.index < i'.index
  classes : ∀ c c', q.Creates (.class c) → q'.Creates (.class c') → c.identity < c'.identity

/-- What is known of the ages of all that the steps have made. -/
structure Ages (settings : Settings) (past : List Machine) (s : Store) : Prop where
  outer : ∀ q ∈ past, ∀ o i e, q.Opens settings o (.nested i e) →
    IsMade settings past e ∧ e.scope.index < i.index
  captured : ∀ q ∈ past, ∀ v e, q.Creates v → Captures v e → IsMade settings past e
  lt_identities : ∀ q ∈ past, ∀ c, q.Creates (.class c) → c.identity < s.identities
  ordered : past.Pairwise (Machine.Precedes settings)
  parents : ∀ q ∈ past, ∀ c p, q.Creates (.class c) → c.parent = some p → p.identity < c.identity

namespace World
variable {W : World} {m m' : Machine}

theorem Traced.precedes (h : W.Traced m) (hages : Ages W.settings W.past m.store) {q : Machine}
    (hq : q ∈ W.past) : q.Precedes W.settings m where
  scopes i i' hi hi' := by
    obtain ⟨-, -, hle, -⟩ := hi'
    exact Nat.lt_of_lt_of_le (h.chronicle.adds q hq i hi) hle
  classes c c' hc hc' := by
    rw [hc'.identity_eq]
    exact hages.lt_identities q hq c hc

theorem Traced.isMade_outer (h : W.Traced m) {o : Opener} {i : ScopeId} {e : Environment}
    (ho : m.Opens W.settings o (.nested i e)) :
    IsMade W.settings (W.past ++ [m]) e ∧ e.scope.index < i.index := by
  rcases h.inv.reaches_outer ho.1 with hr | ⟨⟨o', ho'⟩, hlt⟩
  · refine ⟨hr.made.mono (List.subset_append_left _ _), Nat.lt_of_lt_of_le hr.lt_size ?_⟩
    rw [h.inv.base.store]
    exact ho.1.size_le
  · obtain ⟨-, m'', hstep', hi⟩ := ho
    have hmem : m ∈ W.past ++ [m] := List.mem_append_right _ List.mem_cons_self
    exact ⟨.inr ⟨m, hmem, o', ho', m'', hstep', Nat.lt_trans hlt hi⟩, hlt⟩

theorem Traced.isMade_captured (h : W.Traced m) (hstep : m.step W.settings = .next m') {v : Value}
    (hv : m.Creates v) {e : Environment} (he : Captures v e) :
    IsMade W.settings (W.past ++ [m]) e := by
  rcases h.inv.reaches_captured hv he with hr | ⟨⟨o, ho⟩, hscope, b, hb⟩
  · exact hr.made.mono (List.subset_append_left _ _)
  · have hmem : m ∈ W.past ++ [m] := List.mem_append_right _ List.mem_cons_self
    obtain ⟨m'', hstep', -, hlt⟩ := ((h.chronicle_step hstep).seals m hmem b hb).1
    exact .inr ⟨m, hmem, o, ho, m'', hstep', hscope ▸ hlt⟩

theorem Traced.parent_lt (h : W.Traced m) (hages : Ages W.settings W.past m.store)
    {c p : ClassObject} (hc : m.Creates (.class c)) (hp : c.parent = some p) :
    p.identity < c.identity := by
  rw [hc.identity_eq]
  cases hc with
  | base => cases hp
  | derived hfocus =>
    cases hp
    obtain ⟨q, hq, hp⟩ := (h.origin (Machine.has_of_deliver hfocus)).made
    exact hages.lt_identities q hq p hp

theorem Traced.ages_step (h : W.Traced m) (hages : Ages W.settings W.past m.store)
    (hstep : m.step W.settings = .next m') : Ages W.settings (W.past ++ [m]) m'.store := by
  have hsub : W.past ⊆ W.past ++ [m] := List.subset_append_left _ _
  have hle := (Machine.develops_step hstep).identities_le
  have each {P : Machine → Prop} (hp : ∀ q ∈ W.past, P q) (hm : P m) :
      ∀ q ∈ W.past ++ [m], P q :=
    List.forall_mem_append.2 ⟨hp, List.forall_mem_singleton.2 hm⟩
  constructor
  case outer =>
    refine each (fun q hq o i e ho => ?_) fun o i e ho => h.isMade_outer ho
    obtain ⟨hmade, hlt⟩ := hages.outer q hq o i e ho
    exact ⟨hmade.mono hsub, hlt⟩
  case captured =>
    exact each (fun q hq v e hv he => (hages.captured q hq v e hv he).mono hsub)
      fun v e hv he => h.isMade_captured hstep hv he
  case lt_identities =>
    exact each (fun q hq c hc => Nat.lt_of_lt_of_le (hages.lt_identities q hq c hc) hle)
      fun c hc => hc.identity_lt hstep
  case ordered =>
    refine List.pairwise_append.2 ⟨hages.ordered, List.pairwise_singleton _ _, ?_⟩
    intro q hq q' hq'
    rw [List.mem_singleton.1 hq']
    exact h.precedes hages hq
  case parents =>
    exact each hages.parents fun c p hc hp => h.parent_lt hages hc hp

end World

namespace Session.Reached
variable {settings : Settings} {sources : List String} {past : List Machine} {s : Session}

/-- The ages in every state of the run of a text. -/
theorem ages_run (hs : s.Reached settings sources past) (hages : Ages settings past s.store)
    {source : String} {program : List RStmt} (hc : compile source = .ok program) {n : Nat}
    {m : Machine} (hm : (Machine.start program s.store).run settings n = (m, none)) :
    Ages settings (past ++ (Machine.start program s.store).passed settings n) m.store := by
  refine Machine.run_induction (P := fun p q => Ages settings (past ++ p) q.store) ?_ ?_ hm
  · rw [List.append_nil]
    exact hages
  · intro n q q' hq hages hstep
    rw [← List.append_assoc]
    exact (hs.traced hc hq).ages_step hages hstep

theorem ages (hs : s.Reached settings sources past) : Ages settings past s.store := by
  induction hs with
  | fresh journal => exact ⟨nofun, nofun, nofun, .nil, nofun⟩
  | @run sources past s fuel source hs ih =>
    unfold Session.run Session.runWith Session.passed
    cases hc : compile source with
    | error notes =>
      rw [Session.read_of_error hc, List.append_nil]
      exact ih
    | ok program =>
      rw [Session.read_of_ok hc, Session.begin_eq hs.depth_eq]
      cases hend : ((Machine.start program s.store).run settings fuel).2 with
      | none => exact hs.ages_run ih hc (Prod.ext rfl hend)
      | some e =>
        obtain ⟨n, hn, -, hpassed⟩ := Machine.run_eq_some (Prod.ext rfl hend)
        have h := hs.ages_run ih hc hn
        rw [← hpassed] at h
        exact h

end Session.Reached

/-! ### The environments that a state mentions -/

mutual

def ValueCont.environments : ValueCont → List Environment
  | .unary _ _ k | .binaryRight _ _ _ k | .get _ k | .setValue _ _ k
  | .updateValue _ _ _ _ _ k => k.environments
  | .binaryLeft _ _ _ env k | .logical _ _ env k | .assign _ _ env k | .callee _ _ env k
  | .argument _ _ _ _ env k | .setObject _ _ env k | .updateObject _ _ _ _ env k =>
    env :: k.environments
  | .discard k | .print k | .ret k => k.environments
  | .define _ env k | .branch _ _ env k | .loopTest _ _ env k | .inherit _ _ _ env k =>
    env :: k.environments

def StmtCont.environments : StmtCont → List Environment
  | .sequence _ env k | .loopBody _ _ env k => env :: k.environments
  | .call _ k => k.environments
  | .finish => []

end

def Focus.environments : Focus → List Environment
  | .evaluate _ env k => env :: k.environments
  | .deliver _ k => k.environments
  | .execute _ env k => env :: k.environments
  | .complete _ k => k.environments

/-- An environment that a state holds, also as a part of what it holds. -/
inductive Machine.Mentions (m : Machine) : Environment → Prop
  | focus {e} : e ∈ m.focus.environments → Mentions m e
  | function {i f} : m.Has (.value (.function i f)) → Mentions m f.environment
  | method {c x f} : m.Knows c → c.methods.find? x = some f → Mentions m f.environment
  | receiver {e k} : m.Has (.call (.receiver e) k) → Mentions m e
  | outer {i e} : Mentions m (.nested i e) → Mentions m e

/-- The environment of the statements being run is among those of the continuation. -/
theorem StmtCont.environment_mem (k : StmtCont) :
    k.environment = Store.globals ∨ k.environment ∈ k.environments := by
  cases k with
  | sequence => exact .inr List.mem_cons_self
  | loopBody _ _ _ k => exact k.environment_mem.imp_right (List.mem_cons_of_mem _)
  | call | finish => exact .inl rfl

theorem ValueCont.environment_mem : (k : ValueCont) →
    k.statement.environment = Store.globals ∨ k.statement.environment ∈ k.environments
  | .unary _ _ k | .binaryRight _ _ _ k | .get _ k | .setValue _ _ k
  | .updateValue _ _ _ _ _ k => k.environment_mem
  | .binaryLeft _ _ _ _ k | .logical _ _ _ k | .assign _ _ _ k | .callee _ _ _ k
  | .argument _ _ _ _ _ k | .setObject _ _ _ k | .updateObject _ _ _ _ _ k =>
    k.environment_mem.imp_right (List.mem_cons_of_mem _)
  | .discard k | .print k | .ret k => k.environment_mem
  | .define _ _ k | .branch _ _ _ k | .loopTest _ _ _ k | .inherit _ _ _ _ k =>
    k.environment_mem.imp_right (List.mem_cons_of_mem _)

namespace World

section
variable {W : World} {env : Environment}

theorem isMade_environments_stmt {k : StmtCont} (henv : env = k.environment)
    (hk : ∀ e ∈ k.environments, IsMade W.settings W.past e) :
    ∀ e ∈ env :: k.environments, IsMade W.settings W.past e := by
  refine List.forall_mem_cons.2 ⟨?_, hk⟩
  rw [henv]
  exact k.environment_mem.elim .inl (hk _)

theorem isMade_environments_value {k : ValueCont} (henv : env = k.statement.environment)
    (hk : ∀ e ∈ k.environments, IsMade W.settings W.past e) :
    ∀ e ∈ env :: k.environments, IsMade W.settings W.past e := by
  refine List.forall_mem_cons.2 ⟨?_, hk⟩
  rw [henv]
  exact k.environment_mem.elim .inl (hk _)

end

mutual

theorem isMade_of_valueContOk {W : World} : (k : ValueCont) → W.ValueContOk k →
    ∀ e ∈ k.environments, IsMade W.settings W.past e
  | .unary _ _ k, hk | .binaryRight _ _ _ k, hk | .get _ k, hk | .setValue _ _ k, hk
  | .updateValue _ _ _ _ _ k, hk => isMade_of_valueContOk k hk
  | .binaryLeft _ _ _ _ k, hk | .logical _ _ _ k, hk | .setObject _ _ _ k, hk
  | .updateObject _ _ _ _ _ k, hk | .assign _ _ _ k, hk | .callee _ _ _ k, hk =>
    isMade_environments_value hk.2.1 (isMade_of_valueContOk k hk.2.2)
  | .argument _ _ _ _ _ k, hk =>
    isMade_environments_value hk.2.2.1 (isMade_of_valueContOk k hk.2.2.2)
  | .discard k, hk | .print k, hk | .ret k, hk => isMade_of_stmtContOk k hk
  | .branch _ _ _ k, hk | .loopTest _ _ _ k, hk =>
    isMade_environments_stmt hk.2.1 (isMade_of_stmtContOk k hk.2.2)
  | .define x env k, hk =>
    isMade_environments_stmt hk.2.1 (isMade_of_stmtContOk (W := W.awaiting env x) k hk.2.2)
  | .inherit x _ _ env k, hk =>
    isMade_environments_stmt hk.2.1 (isMade_of_stmtContOk (W := W.awaiting env x.text) k hk.2.2)

theorem isMade_of_stmtContOk {W : World} : (k : StmtCont) → W.StmtContOk k →
    ∀ e ∈ k.environments, IsMade W.settings W.past e
  | .sequence _ _ k, hk => by
    obtain ⟨⟨Γ, ss₀, -, hfits⟩, -, hk⟩ := hk
    exact List.forall_mem_cons.2 ⟨hfits.isMade, isMade_of_stmtContOk k hk⟩
  | .loopBody _ _ _ k, hk =>
    isMade_environments_stmt hk.2.1 (isMade_of_stmtContOk k hk.2.2)
  | .call _ k, hk => isMade_of_valueContOk k hk.2
  | .finish, _ => List.forall_mem_nil _

end

theorem Inv.isMade_focus {W : World} {m : Machine} (h : W.Inv m) :
    ∀ e ∈ m.focus.environments, IsMade W.settings W.past e := by
  have hf := h.focus
  cases hfocus : m.focus with
  | evaluate e env k =>
    rw [hfocus] at hf
    exact isMade_environments_value hf.2.1 (isMade_of_valueContOk k hf.2.2)
  | deliver v k =>
    rw [hfocus] at hf
    exact isMade_of_valueContOk k hf.2
  | execute s env k =>
    rw [hfocus] at hf
    have hk := isMade_of_stmtContOk k hf.2.2
    have hsame : (W.during s env).settings = W.settings ∧ (W.during s env).past = W.past := by
      unfold during
      split <;> exact ⟨rfl, rfl⟩
    rw [hsame.1, hsame.2] at hk
    exact isMade_environments_stmt hf.2.1 hk
  | complete c k =>
    rw [hfocus] at hf
    exact isMade_of_stmtContOk k hf.2

end World

namespace Ages
variable {settings : Settings} {past : List Machine} {s : Store}

theorem isMade_outer (h : Ages settings past s) {i : ScopeId} {e : Environment}
    (he : IsMade settings past (.nested i e)) :
    IsMade settings past e ∧ e.scope.index < i.index := by
  rcases he with he | ⟨q, hq, o, ho⟩
  · cases he
  · exact h.outer q hq o i e ho

/-- A class is known by its number. -/
theorem made_unique (h : Ages settings past s) {c c' : ClassObject} (hc : Made past c)
    (hc' : Made past c') (he : c.identity = c'.identity) : c = c' := by
  obtain ⟨q, hq, hc⟩ := hc
  obtain ⟨q', hq', hc'⟩ := hc'
  obtain ⟨n, hn, rfl⟩ := List.getElem_of_mem hq
  obtain ⟨n', hn', rfl⟩ := List.getElem_of_mem hq'
  have hordered := List.pairwise_iff_getElem.1 h.ordered
  rcases Nat.lt_trichotomy n n' with hlt | rfl | hlt
  · exact absurd he (Nat.ne_of_lt ((hordered n n' hn hn' hlt).classes c c' hc hc'))
  · exact hc.class_eq hc'
  · exact absurd he.symm (Nat.ne_of_lt ((hordered n' n hn' hn hlt).classes c' c hc' hc))

theorem isMade_function (h : Ages settings past s) {i : Nat} {f : Closure}
    (hf : HasOrigin past (.value (.function i f))) : IsMade settings past f.environment := by
  cases hf with
  | plain hf => exact hf.elim
  | created hq hf => exact h.captured _ hq _ _ hf .function

end Ages

namespace World.Traced
variable {W : World} {m : Machine}

theorem isMade_of_mentions (h : W.Traced m) (hages : Ages W.settings W.past m.store)
    {e : Environment} (he : m.Mentions e) : IsMade W.settings W.past e := by
  induction he with
  | focus he => exact h.inv.isMade_focus _ he
  | function hf => exact hages.isMade_function (h.origin hf)
  | method hc hf =>
    obtain ⟨q, hq, hc⟩ := h.chronicle.made_of_knows (fun _ => h.origin) hc
    exact hages.captured q hq _ _ hc (.method hf)
  | @receiver e k hr =>
    have ho := h.origin hr
    generalize hresult : CallResult.receiver e = r at ho
    cases ho with
    | started hq hstarts =>
      cases hstarts with
      | @function i f args _ hi =>
        split at hresult
        · cases hresult
          exact hages.isMade_function (h.chronicle.origins _ hq _ hi.has)
        · cases hresult
      | initializer => cases hresult
  | outer _ ih => exact (hages.isMade_outer ih).1

end World.Traced

namespace Chronicle
variable {settings : Settings} {past : List Machine} {s : Store}

/-- An environment is known by its number. -/
theorem isMade_unique (h : Chronicle settings past s) {e e' : Environment}
    (he : IsMade settings past e) (he' : IsMade settings past e') (hscope : e.scope = e'.scope) :
    e = e' := by
  have hglobals {q : Machine} (hq : q ∈ past) {o : Opener} {e : Environment}
      (ho : q.Opens settings o e) : e.scope ≠ Store.globals.scope := fun hscope =>
    Nat.ne_of_gt (Nat.lt_of_lt_of_le (h.positive q hq) ho.1.size_le) (congrArg ScopeId.index hscope)
  rcases he with rfl | ⟨q, hq, o, ho⟩ <;> rcases he' with rfl | ⟨q', hq', o', ho'⟩
  · rfl
  · exact absurd hscope.symm (hglobals hq' ho')
  · exact absurd hscope (hglobals hq ho)
  · obtain rfl := h.unique q hq q' hq' _ ho.adds (hscope ▸ ho'.adds)
    exact ho.1.eq ho'.1 hscope

end Chronicle
end LoxScript
