import LoxScript.Proofs.Binding.Agreement
import LoxScript.Proofs.Objects.Origins

/-!
Scopes that nothing writes to.

Programs write to the outermost scope and to the scopes of blocks and functions.  The scope of a
receiver and that of a superclass are made by a step of their own, and since every scope is made by
one step only, what they bind at first is all that they ever bind.
-/

namespace LoxScript

/-- Programs may declare names in such a scope. -/
def Opener.IsBody : Opener → Prop
  | .block _ | .function _ => True
  | .receiver _ | .superclass _ => False

/-- An item that is plain, or that one of the steps has made. -/
inductive HasOrigin (past : List Machine) : Item → Prop
  | plain {v : Value} : v.IsPlain → HasOrigin past (.value v)
  | created {q v} : q ∈ past → q.Creates v → HasOrigin past (.value v)
  | started {q f args r k} : q ∈ past → q.Starts f args r k → HasOrigin past (.call r k)

namespace Machine

/-- A method is bound to a receiver. -/
inductive BindsTo (m : Machine) : Closure → Value → Prop
  | taken {f r} : m.Takes f r → BindsTo m f r
  | initializer {c f args k} : m.Invokes (.class c) args k → c.initializer? = some f →
      BindsTo m f (.instance m.store.fields.size c)

/-- The first scope that the step makes is one of a receiver or of a superclass. -/
inductive Seals (m : Machine) : Bindings Value → Prop
  | receiver {f r} : m.BindsTo f r → Seals m [("this", r)]
  | superclass {c x y ms env k} : m.focus = .deliver (.class c) (.inherit x y ms env k) →
      Seals m [("super", .class c)]

variable (settings : Settings)

/-- The step makes the scope. -/
def Adds (m : Machine) (i : ScopeId) : Prop :=
  ∃ m', m.step settings = .next m' ∧ m.store.size ≤ i.index ∧ i.index < m'.store.size

/-- A scope that programs write to. -/
def IsWritable (past : List Machine) (e : Environment) : Prop :=
  e = Store.globals ∨ ∃ o, o.IsBody ∧ ∃ q ∈ past, q.Opens settings o e

variable {settings} {m m' : Machine}

theorem Prepares.size_le {o : Opener} {e : Environment} (h : m.Prepares o e) :
    m.store.size ≤ e.scope.index := by
  cases h with
  | initializer => exact Nat.le_succ _
  | _ => exact Nat.le_refl _

theorem Opens.adds {o : Opener} {e : Environment} (h : m.Opens settings o e) :
    m.Adds settings e.scope := by
  obtain ⟨hp, m', hstep, hlt⟩ := h
  exact ⟨m', hstep, hp.size_le, hlt⟩

theorem Invokes.calls {v : Value} {args : List Value} {k : ValueCont} (h : m.Invokes v args k) :
    m.Calls v := by
  cases h with
  | bare h => exact .bare h
  | applied h => exact .applied h

theorem Calls.eq {v w : Value} (h : m.Calls v) (h' : m.Calls w) : v = w := by
  cases h with
  | bare h =>
    cases h' with
    | bare h' | applied h' =>
      cases h.symm.trans h'
      try rfl
  | applied h =>
    cases h' with
    | bare h' | applied h' =>
      cases h.symm.trans h'
      try rfl

theorem Calls.not_takes {v : Value} (h : m.Calls v) {f : Closure} {r : Value} :
    ¬ m.Takes f r := by
  rintro (⟨h', -⟩ | ⟨h', -⟩ | ⟨h', -⟩) <;> obtain h | h := h <;> cases h.symm.trans h'

/-- A step makes the scope of a body, or first one that is sealed. -/
theorem Prepares.not_seals {o : Opener} {e : Environment} (h : m.Prepares o e) (ho : o.IsBody)
    {b : Bindings Value} (hs : m.Seals b) : e.scope ≠ ⟨m.store.size⟩ := by
  cases h with
  | block hfocus =>
    obtain (ht | hi) | hi := hs
    · rcases ht with ⟨h, -⟩ | ⟨h, -⟩ | ⟨h, -⟩ <;> cases hfocus.symm.trans h
    · obtain h | h := hi <;> cases hfocus.symm.trans h
    · cases hfocus.symm.trans hi
  | function hcalls =>
    obtain (ht | hi) | hi := hs
    · exact absurd ht hcalls.not_takes
    · cases hcalls.eq hi.calls
    · obtain h | h := hcalls <;> cases h.symm.trans hi
  | initializer => exact fun hc => Nat.succ_ne_self _ (congrArg ScopeId.index hc)
  | receiver | superclass => exact ho.elim

/-- A call that a step begins breaks none of the rules for calls. -/
theorem Invokes.step_eq {callee : Value} {args : List Value} {k : ValueCont}
    (h : m.Invokes callee args k) (hstep : m.step settings = .next m') :
    ∃ callable, callee.callable? = some callable ∧ args.length = callable.arity ∧
      m.invoking settings callable args k = .next m' := by
  have hcalling : ∃ line, m.calling settings callee args line k = .next m' := by
    cases h with
    | bare h | applied h =>
      rw [step, h] at hstep
      exact ⟨_, hstep⟩
  obtain ⟨line, hcalling⟩ := hcalling
  unfold calling at hcalling
  dsimp only at hcalling
  split at hcalling
  · cases hcalling
  · rename_i callable hcallable
    split at hcalling
    · cases hcalling
    · rename_i hlen
      split at hcalling
      · cases hcalling
      · exact ⟨callable, hcallable, Decidable.not_not.1 hlen, hcalling⟩

/-- A call of a class makes an instance. -/
theorem Invokes.instance_lt {c : ClassObject} {args : List Value} {k : ValueCont}
    (h : m.Invokes (.class c) args k) (hstep : m.step settings = .next m') :
    m.store.fields.size < m'.store.fields.size := by
  obtain ⟨_, hcallable, -, hinvoking⟩ := h.step_eq hstep
  cases hcallable
  have hlt : m.store.fields.size < (m.store.makeInstance c).2.fields.size :=
    Nat.lt_of_lt_of_eq (Nat.lt_succ_self _) (Array.size_push _).symm
  simp only [invoking, make_eq] at hinvoking
  split at hinvoking
  · cases hinvoking
    exact hlt
  · rw [entering_eq] at hinvoking
    cases hinvoking
    exact hlt

theorem Takes.store_eq {f : Closure} {r : Value} (h : m.Takes f r)
    (hstep : m.step settings = .next m') : m'.store = (m.store.bindValue f r).2 := by
  cases h with
  | get hfocus hp | update hfocus hp =>
    simp only [step, hfocus, deliver, takingProperty, hp] at hstep
    cases hstep
    rfl
  | super hfocus hc hr hf =>
    simp only [step, hfocus, evaluate, lookingUpSuper, hc, hr, hf] at hstep
    cases hstep
    rfl

/-- A call of a class with an initializer makes the scope of the new instance before that of the
body. -/
theorem Invokes.bindings_receiver {c : ClassObject} {f : Closure} {args : List Value}
    {k : ValueCont} (h : m.Invokes (.class c) args k) (hf : c.initializer? = some f)
    (hstep : m.step settings = .next m') :
    m.store.size < m'.store.size ∧ m'.store.scopes.bindings ⟨m.store.size⟩ =
      [("this", .instance m.store.fields.size c)] := by
  obtain ⟨_, hcallable, -, hinvoking⟩ := h.step_eq hstep
  cases hcallable
  simp only [invoking, make_eq, hf, entering_eq] at hinvoking
  cases hinvoking
  let s := ((m.store.makeInstance c).2.bind f (.instance m.store.fields.size c)).2
  let own := parameterBindings (m.bound f) args
  have hs : s.size = m.store.size + 1 := Store.size_bind (m.store.makeInstance c).2 f _
  have hne : (⟨m.store.size⟩ : ScopeId) ≠ ⟨s.size⟩ := fun hc =>
    Nat.succ_ne_self m.store.size (hs.symm.trans (congrArg ScopeId.index hc).symm)
  have hreceiver : s.scopes.bindings ⟨m.store.size⟩ =
      [("this", .instance m.store.fields.size c)] :=
    Store.bindings_enter_self (m.store.makeInstance c).2 f.environment _
  constructor
  · show m.store.size < (s.enter (m.inside f.environment) own).2.size
    rw [Store.size_enter, hs]
    omega
  · show (s.enter (m.inside f.environment) own).2.scopes.bindings ⟨m.store.size⟩ = _
    rw [Store.bindings_enter_of_ne s _ own hne, hreceiver]

/-- The name of a class is bound in the scope around that of its superclass. -/
theorem bindings_superclass {c : ClassObject} {x y : Name} {ms : List (Method (Option Nat))}
    {env : Environment} {k : StmtCont}
    (hfocus : m.focus = .deliver (.class c) (.inherit x y ms env k))
    (hlt : env.scope.index < m.store.size) (hstep : m.step settings = .next m') :
    m.store.size < m'.store.size ∧
      m'.store.scopes.bindings ⟨m.store.size⟩ = [("super", .class c)] := by
  simp only [step, hfocus, deliver, declaringClass, make_eq, change_eq] at hstep
  cases hstep
  have hne : (⟨m.store.size⟩ : ScopeId) ≠ env.scope := by
    intro hc
    rw [← hc] at hlt
    exact Nat.lt_irrefl _ hlt
  constructor
  · rw [Store.size_define]
    exact Store.size_lt_enter m.store env _
  · rw [Store.bindings_define_of_ne _ hne]
    exact Store.bindings_enter_self m.store env _

/-- The scope that is made first binds what it is made with. -/
theorem Seals.bindings {b : Bindings Value} (h : m.Seals b) (hstep : m.step settings = .next m')
    (hlt : ∀ v x y ms env k, m.focus = .deliver v (.inherit x y ms env k) →
      env.scope.index < m.store.size) :
    m.store.size < m'.store.size ∧ m'.store.scopes.bindings ⟨m.store.size⟩ = b := by
  cases h with
  | @receiver f r hb =>
    cases hb with
    | taken ht =>
      rw [ht.store_eq hstep, Store.size_bindValue]
      exact ⟨Nat.lt_succ_self _, Store.bindings_enter_self m.store f.environment [("this", r)]⟩
    | initializer hi hf => exact hi.bindings_receiver hf hstep
  | superclass hfocus => exact bindings_superclass hfocus (hlt _ _ _ _ _ _ hfocus) hstep

end Machine

section
variable {settings : Settings} {past past' : List Machine} {e : Environment}

theorem Machine.IsWritable.mono (h : Machine.IsWritable settings past e) (hp : past ⊆ past') :
    Machine.IsWritable settings past' e := by
  rcases h with h | ⟨o, ho, q, hq, hopens⟩
  · exact .inl h
  · exact .inr ⟨o, ho, q, hp hq, hopens⟩

theorem HasOrigin.mono {it : Item} (h : HasOrigin past it) (hp : past ⊆ past') :
    HasOrigin past' it := by
  cases h with
  | plain h => exact .plain h
  | created hq h => exact .created (hp hq) h
  | started hq h => exact .started (hp hq) h

/-- What a state may hold after a step has an origin if what it held before has one. -/
theorem Machine.Yields.origin {m : Machine} {it : Item} (h : m.Yields it)
    (hm : ∀ it, m.Has it → HasOrigin past it) (hp : past ⊆ past') (hmem : m ∈ past') :
    HasOrigin past' it := by
  cases h with
  | kept h => exact (hm it h).mono hp
  | plain h => exact .plain h
  | created h => exact .created hmem h
  | started h => exact .started hmem h

end

namespace Frames

/-- A scope that declares a name that is no keyword is one of a block or of a function. -/
theorem Enclosed.isOrdinary {c : ClassBody} {Γ : Frames} (h : Enclosed c Γ) {f : Frame}
    (hf : f ∈ Γ) {x : Name} (hx : x.IsFree) (hd : f.names.declares x.text = true) :
    f.IsOrdinary := by
  have hreserved (k : Keyword) (o : Opener) (he : f = ⟨o, [(k.text, true)]⟩) : False := by
    subst he
    have hd : (k.text == x.text || false) = true := hd
    rw [Bool.or_false, beq_iff_eq] at hd
    exact hx.ne k hd.symm
  induction h with
  | outermost => cases hf
  | ordinary _ hg ih =>
    rcases List.mem_cons.1 hf with rfl | hf
    · exact hg
    · exact ih hf
  | base ms _ ih =>
    rcases List.mem_cons.1 hf with he | hf
    · exact (hreserved .this_ _ he).elim
    · exact ih hf
  | derived ms _ ih =>
    rcases List.mem_cons.1 hf with he | hf
    · exact (hreserved .this_ _ he).elim
    · rcases List.mem_cons.1 hf with he | hf
      · exact (hreserved .super_ _ he).elim
      · exact ih hf

end Frames

theorem Frame.IsOrdinary.isBody {f : Frame} (h : f.IsOrdinary) : f.opener.IsBody := by
  obtain ⟨⟨body, h⟩ | ⟨code, h⟩, -⟩ := h <;> rw [h] <;> trivial

namespace World
variable {W : World} {m : Machine}

theorem Fits.isWritable {Γ : Frames} {e : Environment} (h : W.Fits Γ e)
    (ho : Γ.HeadIsOrdinary) : Machine.IsWritable W.settings W.past e := by
  cases h with
  | globals => exact .inl rfl
  | nested h hopened _ _ => exact .inr ⟨_, (ho _ rfl).isBody, hopened⟩

theorem StmtOk.isWritable {s : RStmt} {env : Environment} (h : W.StmtOk s env) :
    Machine.IsWritable W.settings W.past env := by
  obtain ⟨Γ, s₀, ⟨a, hoccurs, -⟩, hfits⟩ := h
  exact hfits.isWritable (hoccurs.isSound.ordinary trivial)

theorem StmtsOk.isWritable {ss : List RStmt} {env : Environment} (h : W.StmtsOk ss env) :
    Machine.IsWritable W.settings W.past env := by
  obtain ⟨Γ, ss₀, ⟨a, hoccurs, -⟩, hfits⟩ := h
  exact hfits.isWritable (hoccurs.isSound.ordinary trivial)

theorem isWritable_of_stmtContOk (k : StmtCont) (hk : W.StmtContOk k) :
    Machine.IsWritable W.settings W.past k.environment := by
  cases k with
  | sequence => exact hk.1.isWritable
  | loopBody _ _ _ k => exact isWritable_of_stmtContOk k hk.2.2
  | call | finish => exact .inl rfl

/-- A resolved name is written to a scope of a block or of a function. -/
theorem Inv.writes_local (h : W.Inv m) {v : Value} {x : Name} {d : Nat} {env e : Environment}
    {k : ValueCont} (hfocus : m.focus = .deliver v (.assign x (some d) env k))
    (he : env.ancestor? d = some e) : ∃ o, o.IsBody ∧ W.Opened o e := by
  have hf := h.focus
  rw [hfocus] at hf
  obtain ⟨-, ⟨value, Γ, e₀, hat, hfits⟩, -⟩ := hf
  obtain ⟨-, hd⟩ := use_of_exprAt hat rfl
  obtain ⟨f, hf, hdeclares⟩ := Frames.declares_of_distance? hd.symm
  obtain ⟨e', he', hopened, -⟩ := hfits.ancestor_of_get hf
  cases he.symm.trans he'
  have hx : x.IsFree := by
    have hview := hat.view
    generalize some d = ref at hview
    cases hview
    assumption
  obtain ⟨a, hoccurs, -⟩ := hat
  have ho := hoccurs.isSound.enclosed.isOrdinary (List.mem_of_getElem? hf) hx hdeclares
  exact ⟨_, ho.isBody, hopened⟩

/-- Programs write only where they may declare names. -/
theorem Inv.writes (h : W.Inv m) {e : Environment} (hw : m.Writes e) :
    Machine.IsWritable W.settings W.past e := by
  have hf := h.focus
  cases hw with
  | declared hfocus _ =>
    rw [hfocus] at hf
    exact hf.1.isWritable
  | @initial v x _ k hfocus =>
    rw [hfocus] at hf
    rw [hf.2.2.1]
    exact isWritable_of_stmtContOk (W := W.awaiting _ x) k hf.2.2.2
  | @inherit v x y ms _ k hfocus =>
    rw [hfocus] at hf
    rw [hf.2.2.1]
    exact isWritable_of_stmtContOk (W := W.awaiting _ x.text) k hf.2.2.2
  | «local» hfocus he => exact .inr (h.writes_local hfocus he)
  | global => exact .inl rfl

/-- The receiver that a method is bound to is an instance. -/
theorem Inv.takes (h : W.Inv m) {f : Closure} {r : Value} (ht : m.Takes f r) :
    ∃ i c, r = .instance i c := by
  cases ht with
  | get | update => exact ⟨_, _, rfl⟩
  | super hfocus _ hr _ =>
    have hf := h.focus
    rw [hfocus] at hf
    obtain ⟨⟨Γ, e₀, hat, hfits⟩, -⟩ := hf
    cases hat.view with
    | super _ _ hreceiver _ =>
      obtain ⟨e', i, c, he', -, hv⟩ := hfits.receiverAt h.base hreceiver
      have hthis := Scopes.getAt_eq_ok.2 ⟨e', he', hv⟩
      exact ⟨i, c, Except.ok.inj (hr.symm.trans hthis)⟩

/-- A class is declared in a scope that exists. -/
theorem Inv.inherit_lt (h : W.Inv m) {v : Value} {x y : Name} {ms : List (Method (Option Nat))}
    {env : Environment} {k : StmtCont} (hfocus : m.focus = .deliver v (.inherit x y ms env k)) :
    env.scope.index < m.store.size := by
  have hf := h.focus
  rw [hfocus] at hf
  obtain ⟨-, ⟨Γ, ms₀, -, hfits, -⟩, -⟩ := hf
  rw [← h.base.store]
  exact Fits.lt_size (W := W.awaiting env x.text) h.base.settled.positive hfits

end World
end LoxScript
