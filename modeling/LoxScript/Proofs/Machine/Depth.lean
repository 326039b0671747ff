import LoxScript.Proofs.Scope.Changes
import LoxScript.Proofs.Session.Compiling

/-!
The calls in progress, and what a step does to them.

A step begins a call, answers one, or leaves the calls in progress as they are; it ends the run in
the state in which it was taken; and what has been printed stays.  The depth that a state keeps is
the number of calls that still wait for an answer, so that none is left when everything that waits
has been given up.
-/

namespace LoxScript

mutual

/-- The calls that wait for an answer. -/
def ValueCont.calls : ValueCont → Nat
  | .unary _ _ k => k.calls
  | .binaryLeft _ _ _ _ k => k.calls
  | .binaryRight _ _ _ k => k.calls
  | .logical _ _ _ k => k.calls
  | .assign _ _ _ k => k.calls
  | .callee _ _ _ k => k.calls
  | .argument _ _ _ _ _ k => k.calls
  | .get _ k => k.calls
  | .setObject _ _ _ k => k.calls
  | .setValue _ _ k => k.calls
  | .updateObject _ _ _ _ _ k => k.calls
  | .updateValue _ _ _ _ _ k => k.calls
  | .discard k => k.calls
  | .print k => k.calls
  | .define _ _ k => k.calls
  | .ret k => k.calls
  | .branch _ _ _ k => k.calls
  | .loopTest _ _ _ k => k.calls
  | .inherit _ _ _ _ k => k.calls

def StmtCont.calls : StmtCont → Nat
  | .sequence _ _ k => k.calls
  | .loopBody _ _ _ k => k.calls
  | .call _ k => k.calls + 1
  | .finish => 0

end

def Focus.calls : Focus → Nat
  | .evaluate _ _ k => k.calls
  | .deliver _ k => k.calls
  | .execute _ _ k => k.calls
  | .complete _ k => k.calls

/-! ### Giving up -/

mutual

/-- Each call that waits is left once. -/
theorem ValueCont.unwind_eq (depth : Nat) : (k : ValueCont) → k.unwind depth = depth - k.calls
  | .unary _ _ k => k.unwind_eq depth
  | .binaryLeft _ _ _ _ k => k.unwind_eq depth
  | .binaryRight _ _ _ k => k.unwind_eq depth
  | .logical _ _ _ k => k.unwind_eq depth
  | .assign _ _ _ k => k.unwind_eq depth
  | .callee _ _ _ k => k.unwind_eq depth
  | .argument _ _ _ _ _ k => k.unwind_eq depth
  | .get _ k => k.unwind_eq depth
  | .setObject _ _ _ k => k.unwind_eq depth
  | .setValue _ _ k => k.unwind_eq depth
  | .updateObject _ _ _ _ _ k => k.unwind_eq depth
  | .updateValue _ _ _ _ _ k => k.unwind_eq depth
  | .discard k => k.unwind_eq depth
  | .print k => k.unwind_eq depth
  | .define _ _ k => k.unwind_eq depth
  | .ret k => k.unwind_eq depth
  | .branch _ _ _ k => k.unwind_eq depth
  | .loopTest _ _ _ k => k.unwind_eq depth
  | .inherit _ _ _ _ k => k.unwind_eq depth

theorem StmtCont.unwind_eq (depth : Nat) : (k : StmtCont) → k.unwind depth = depth - k.calls
  | .sequence _ _ k => k.unwind_eq depth
  | .loopBody _ _ _ k => k.unwind_eq depth
  | .call _ k => by
    rw [StmtCont.unwind, StmtCont.calls, k.unwind_eq]
    omega
  | .finish => rfl

end

theorem Machine.depthLeft_eq (m : Machine) : m.depthLeft = m.depth - m.focus.calls := by
  unfold Machine.depthLeft
  cases m.focus with
  | evaluate e env k => exact k.unwind_eq m.depth
  | deliver v k => exact k.unwind_eq m.depth
  | execute s env k => exact k.unwind_eq m.depth
  | complete c k => exact k.unwind_eq m.depth

/-! ### Failures of operators -/

section
variable {ρ ε : Type} (v w : ValueOf ρ ε)

theorem UnaryOp.apply_ne (op : UnaryOp) : op.apply v ≠ .error .stackOverflow := by
  cases op with
  | not => simp [UnaryOp.apply]
  | negate => cases v <;> simp [UnaryOp.apply]

theorem ArithOp.apply_ne (op : ArithOp) : op.apply v w ≠ .error .stackOverflow := by
  unfold ArithOp.apply
  split <;> try simp
  split <;> simp

theorem BinaryOp.apply_ne (op : BinaryOp) : op.apply v w ≠ .error .stackOverflow := by
  cases op with
  | arith op => exact op.apply_ne v w
  | order op =>
    show op.apply v w ≠ _
    unfold OrderOp.apply
    split <;> simp
  | equal => simp [BinaryOp.apply]
  | notEqual => simp [BinaryOp.apply]

end

/-! ### Calls that are about to begin -/

/-- The function whose body is run by a call. -/
def Callable.body? : Callable → Option Closure
  | .native _ => none
  | .function f => some f
  | .class c => c.initializer?

namespace Machine

/-- Everything is there for a call: the value called, the arguments, and the line it is blamed
on. -/
inductive CallsWith (m : Machine) : Value → List Value → Nat → ValueCont → Prop
  | bare {callee : Value} {line : Nat} {env : Environment} {k : ValueCont} :
      m.focus = .deliver callee (.callee line [] env k) → CallsWith m callee [] line k
  | applied {v callee : Value} {line : Nat} {earlier : List Value} {env : Environment}
      {k : ValueCont} : m.focus = .deliver v (.argument line callee earlier [] env k) →
      CallsWith m callee (v :: earlier).reverse line k

/-- The value called can be called, and takes as many arguments as there are. -/
structure Attempts (m : Machine) (callee : Callable) (arguments : List Value) (line : Nat)
    (k : ValueCont) : Prop where
  calls : ∃ v, m.CallsWith v arguments line k ∧ v.callable? = some callee
  arity : arguments.length = callee.arity

/-- What a step from a state does to the calls in progress and to what has been printed. -/
inductive Proceeds (settings : Settings) (m : Machine) : Step → Prop
  | on {m' : Machine} (printed : String) : m'.depth = m.depth → m'.focus.calls = m.focus.calls →
      m'.output = m.output ++ printed → Proceeds settings m (.next m')
  | begins {m' : Machine} {callee : Callable} {arguments : List Value} {line : Nat}
      {k : ValueCont} : m.Attempts callee arguments line k → m.depth < settings.maxCallDepth →
      m'.depth = m.depth + 1 → m'.focus.calls = m.focus.calls + 1 → m'.output = m.output →
      Proceeds settings m (.next m')
  | answers {m' : Machine} : m'.depth = m.depth - 1 → m'.focus.calls + 1 = m.focus.calls →
      m'.output = m.output → Proceeds settings m (.next m')
  | overflows {callee : Callable} {arguments : List Value} {line : Nat} {k : ValueCont} :
      m.Attempts callee arguments line k → settings.maxCallDepth ≤ m.depth →
      Proceeds settings m (m.failing .stackOverflow ⟨.symbol .rightParen, line⟩)
  | stops {e : Ending} : (∀ t, e ≠ .failed ⟨.stackOverflow, t⟩) → (∀ f, e ≠ .broken f) →
      Proceeds settings m (.stop m e)

section
variable {settings : Settings} {m : Machine}

theorem proceeds_same {m' : Machine} (hd : m'.depth = m.depth)
    (hc : m.focus.calls = m'.focus.calls) (ho : m'.output = m.output) :
    m.Proceeds settings (.next m') :=
  .on "" hd hc.symm (ho.trans String.append_empty.symm)

theorem proceeds_failing {f : Fault} (h : f ≠ .stackOverflow) (t : Token) :
    m.Proceeds settings (m.failing f t) := by
  refine .stops (fun t' he => h ?_) nofun
  cases he
  rfl

theorem proceeds_unreachable (f : ReachFault) :
    m.Proceeds settings (.stop m (.unreachable f)) := .stops nofun nofun

theorem proceeds_takingProperty (i : Nat) (c : ClassObject) (x : Name)
    {next : Machine → Value → Step} (h : ∀ m' v, m'.depth = m.depth → m'.output = m.output →
      m.Proceeds settings (next m' v)) :
    m.Proceeds settings (m.takingProperty i c x next) := by
  simp only [takingProperty]
  split
  · exact proceeds_failing (by nofun) _
  · exact h _ _ rfl rfl

section
variable {k : ValueCont} (h : m.focus.calls = k.calls)
include h

theorem proceeds_delivering (v : Value) : m.Proceeds settings (m.delivering v k) :=
  proceeds_same rfl h rfl

theorem proceeds_deliveringResult {r : Except Fault Value} (hr : r ≠ .error .stackOverflow)
    (t : Token) : m.Proceeds settings (m.deliveringResult r t k) := by
  cases r with
  | ok v => exact proceeds_delivering h v
  | error f => exact proceeds_failing (fun hf => hr (congrArg _ hf)) t

theorem proceeds_lookingUp (x : String) (ref : Option Nat) (t : Token) (env : Environment) :
    m.Proceeds settings (m.lookingUp x ref t env k) := by
  unfold lookingUp
  split
  · split
    · exact proceeds_delivering h _
    · exact proceeds_unreachable _
  · split
    · exact proceeds_delivering h _
    · exact proceeds_failing (by nofun) t

theorem proceeds_assigning (x : Name) (ref : Option Nat) (env : Environment) (v : Value) :
    m.Proceeds settings (m.assigning x ref env v k) := by
  unfold assigning
  split
  · split
    · exact proceeds_same rfl h rfl
    · exact proceeds_unreachable _
  · split
    · exact proceeds_same rfl h rfl
    · exact proceeds_failing (by nofun) _

theorem proceeds_lookingUpSuper (ref : Option Nat) (x : Name) (env : Environment) :
    m.Proceeds settings (m.lookingUpSuper ref x env k) := by
  simp only [lookingUpSuper, make_eq]
  split
  · exact proceeds_unreachable _
  · split
    · split
      · exact proceeds_failing (by nofun) _
      · exact proceeds_same rfl h rfl
    all_goals exact proceeds_unreachable _

theorem proceeds_calling {callee : Value} {arguments : List Value} {line : Nat}
    (hc : m.CallsWith callee arguments line k) :
    m.Proceeds settings (m.calling settings callee arguments line k) := by
  simp only [calling]
  split
  · exact proceeds_failing (by nofun) _
  · rename_i c hcallable
    by_cases harity : arguments.length = c.arity
    · have hattempts : m.Attempts c arguments line k := ⟨⟨callee, hc, hcallable⟩, harity⟩
      rw [if_neg (not_not_intro harity)]
      by_cases hdepth : settings.maxCallDepth ≤ m.depth
      · rw [if_pos hdepth]
        exact .overflows hattempts hdepth
      · rw [if_neg hdepth]
        have hbegins : ∀ {m' : Machine}, m'.depth = m.depth + 1 →
            m'.focus.calls = k.calls + 1 → m'.output = m.output →
            m.Proceeds settings (.next m') := fun hd hk ho =>
          .begins hattempts (Nat.lt_of_not_le hdepth) hd (hk.trans (congrArg (· + 1) h.symm)) ho
        cases c with
        | native f => exact proceeds_same rfl h rfl
        | function f => exact hbegins rfl rfl rfl
        | «class» c =>
          -- A class and its initialiser are one call; without one the class answers at once.
          simp only [invoking, make_eq]
          split
          · exact proceeds_same rfl h rfl
          · exact hbegins rfl rfl rfl
    · rw [if_pos harity]
      exact proceeds_failing (by nofun) _

end

theorem proceeds_declaringClass {k : StmtCont} (h : m.focus.calls = k.calls) (x : Name)
    (parent : Option ClassObject) (ms : List (Method (Option Nat))) (env : Environment) :
    m.Proceeds settings (m.declaringClass x parent ms env k) := by
  cases parent <;> exact proceeds_same rfl h rfl

theorem proceeds_evaluate {e : RExpr} {env : Environment} {k : ValueCont}
    (hf : m.focus = .evaluate e env k) : m.Proceeds settings (m.evaluate e env k) := by
  have h : m.focus.calls = k.calls := congrArg Focus.calls hf
  cases e with
  | var x ref => exact proceeds_lookingUp h x.text ref x.token env
  | this line ref => exact proceeds_lookingUp h "this" ref _ env
  | super line ref x => exact proceeds_lookingUpSuper h ref x env
  | _ => exact proceeds_same rfl h rfl

theorem proceeds_deliver {v : Value} {k : ValueCont} (hf : m.focus = .deliver v k) :
    m.Proceeds settings (m.deliver settings v k) := by
  have h : m.focus.calls = k.calls := congrArg Focus.calls hf
  cases k with
  | unary op line k => exact proceeds_deliveringResult (k := k) h (op.apply_ne v) _
  | binaryRight op line left k => exact proceeds_deliveringResult (k := k) h (op.apply_ne left v) _
  | logical op right env k =>
    simp only [deliver]
    split <;> exact proceeds_same rfl h rfl
  | assign x ref env k => exact proceeds_assigning (k := k) h x ref env v
  | callee line es env k =>
    cases es with
    | nil => exact proceeds_calling (k := k) h (.bare hf)
    | cons e es => exact proceeds_same rfl h rfl
  | argument line callee before es env k =>
    cases es with
    | nil => exact proceeds_calling (k := k) h (.applied hf)
    | cons e es => exact proceeds_same rfl h rfl
  | get x k =>
    cases v with
    | «instance» i c =>
      simp only [deliver]
      exact proceeds_takingProperty i c x fun m' v hd ho => proceeds_same hd h ho
    | _ => exact proceeds_failing (by nofun) _
  | setObject x e env k =>
    cases v with
    | «instance» i c => exact proceeds_same rfl h rfl
    | _ => exact proceeds_failing (by nofun) _
  | updateObject x op line e env k =>
    cases v with
    | «instance» i c =>
      simp only [deliver]
      exact proceeds_takingProperty i c x fun m' v hd ho => proceeds_same hd h ho
    | _ => exact proceeds_failing (by nofun) _
  | updateValue i x op line current k =>
    simp only [deliver]
    split
    · exact proceeds_same rfl h rfl
    · rename_i f hop
      exact proceeds_failing (fun he => op.apply_ne current v (he ▸ hop)) _
  | print k => exact .on (v.display ++ "\n") rfl h.symm String.append_assoc
  | branch yes no env k =>
    simp only [deliver.eq_def]
    split
    · exact proceeds_same rfl h rfl
    · split <;> exact proceeds_same rfl h rfl
  | loopTest condition body env k =>
    simp only [deliver]
    split <;> exact proceeds_same rfl h rfl
  | inherit x y ms env k =>
    cases v with
    | «class» c => exact proceeds_declaringClass h x (some c) ms env
    | _ => exact proceeds_failing (by nofun) _
  | _ => exact proceeds_same rfl h rfl

theorem proceeds_execute {s : RStmt} {env : Environment} {k : StmtCont}
    (hf : m.focus = .execute s env k) : m.Proceeds settings (m.execute s env k) := by
  have h : m.focus.calls = k.calls := congrArg Focus.calls hf
  cases s with
  | var x initial => cases initial <;> exact proceeds_same rfl h rfl
  | ret line e => cases e <;> exact proceeds_same rfl h rfl
  | classDef x parent ms =>
    cases parent with
    | none => exact proceeds_declaringClass h x none ms env
    | some parent => exact proceeds_same rfl h rfl
  | _ => exact proceeds_same rfl h rfl

theorem proceeds_complete {c : Completion} {k : StmtCont} (hf : m.focus = .complete c k) :
    m.Proceeds settings (m.complete c k) := by
  have h : m.focus.calls = k.calls := congrArg Focus.calls hf
  cases k with
  | sequence ss env k => cases c <;> cases ss <;> exact proceeds_same rfl h rfl
  | loopBody e s env k => cases c <;> exact proceeds_same rfl h rfl
  | call result k =>
    simp only [complete.eq_def]
    split
    · exact .answers rfl h.symm rfl
    · exact proceeds_unreachable _
  | finish =>
    simp only [complete.eq_def]
    split
    · exact .stops nofun nofun
    · exact proceeds_same rfl h rfl

end

/-- Every step proceeds in one of these ways. -/
theorem proceeds_step (settings : Settings) (m : Machine) :
    m.Proceeds settings (m.step settings) := by
  unfold step
  split
  · exact proceeds_evaluate ‹_›
  · exact proceeds_deliver ‹_›
  · exact proceeds_execute ‹_›
  · exact proceeds_complete ‹_›

/-- A run that ends does so in the state that it could not go on from. -/
theorem eq_of_stop {settings : Settings} {m m' : Machine} {e : Ending}
    (h : m.step settings = .stop m' e) : m' = m := by
  have hp := m.proceeds_step settings
  rw [h] at hp
  cases hp <;> rfl

section
variable {settings : Settings} {m m' : Machine}

theorem run_of_next (h : m.step settings = .next m') (n : Nat) :
    m.run settings (n + 1) = m'.run settings n := by
  rw [run, h]

theorem run_of_stop {e : Ending} (h : m.step settings = .stop m' e) (n : Nat) :
    m.run settings (n + 1) = (m', some e) := by
  rw [run, h]

theorem run_add {i : Nat} (h : m.run settings i = (m', none)) (j : Nat) :
    m.run settings (i + j) = m'.run settings j := by
  induction i generalizing m with
  | zero =>
    cases h
    rw [Nat.zero_add]
  | succ i ih =>
    rw [Nat.succ_add]
    cases hs : m.step settings with
    | next q =>
      rw [run_of_next hs] at h ⊢
      exact ih h
    | stop q e =>
      rw [run_of_stop hs] at h
      cases h

end

/-- What every step keeps is kept by a run. -/
theorem run_keeps {settings : Settings} {P : Machine → Prop}
    (hstep : ∀ m m', P m → m.step settings = .next m' → P m') {m m' : Machine} {n : Nat}
    {o : Option Ending} (h : P m) (hr : m.run settings n = (m', o)) : P m' := by
  induction n generalizing m with
  | zero =>
    cases hr
    exact h
  | succ n ih =>
    rw [run] at hr
    cases hs : m.step settings with
    | next m₁ =>
      rw [hs] at hr
      exact ih (hstep m m₁ h hs) hr
    | stop m₁ e =>
      rw [hs] at hr
      cases hr
      exact eq_of_stop hs ▸ h

/-- The depth is the number of calls that wait for an answer. -/
def Counted (m : Machine) : Prop := m.depth = m.focus.calls

theorem Counted.step {settings : Settings} {m m' : Machine} (h : m.Counted)
    (hs : m.step settings = .next m') : m'.Counted := by
  have hp := m.proceeds_step settings
  rw [hs] at hp
  unfold Counted at h ⊢
  cases hp with
  | on printed hd hc => omega
  | begins _ _ hd hc => omega
  | answers hd hc => omega

theorem counted_start (program : List RStmt) (s : Store) : (start program s).Counted := rfl

/-- The calls are counted in every state of a run. -/
theorem Counted.run {m m' : Machine} (h : m.Counted) {settings : Settings} {n : Nat}
    {o : Option Ending} (hr : m.run settings n = (m', o)) : m'.Counted :=
  run_keeps (fun _ _ h hs => h.step hs) h hr

theorem Counted.depthLeft {m : Machine} (h : m.Counted) : m.depthLeft = 0 := by
  rw [depthLeft_eq, h, Nat.sub_self]

/-- What has been printed stays, and comes first. -/
theorem output_of_next {settings : Settings} {m m' : Machine} (hs : m.step settings = .next m') :
    ∃ printed, m'.output = m.output ++ printed := by
  have hp := m.proceeds_step settings
  rw [hs] at hp
  cases hp with
  | on printed _ _ ho => exact ⟨printed, ho⟩
  | begins _ _ _ _ ho => exact ⟨"", ho.trans String.append_empty.symm⟩
  | answers _ _ ho => exact ⟨"", ho.trans String.append_empty.symm⟩

/-- The rules of the language do not know of faults of a host. -/
theorem step_ne_broken {settings : Settings} {m m' : Machine} (f : HostFault) :
    m.step settings ≠ .stop m' (.broken f) := by
  intro hs
  have hp := m.proceeds_step settings
  rw [hs] at hp
  cases hp with
  | stops _ hf => exact hf f rfl

end Machine

namespace Session

/-- No call is in progress after a text if none was before it, in whatever way the text is run in
which the calls are counted. -/
theorem depth_runWith {go : Machine → Machine × Option Ending} {s t : Session} {source : String}
    {r : Report} (hgo : ∀ m : Machine, m.Counted → (go m).1.Counted) (h : s.depth = 0)
    (hr : s.runWith go source = (r, t)) : t.depth = 0 := by
  cases hc : compile source with
  | error notes =>
    rw [runWith_of_error _ _ hc] at hr
    cases hr
    exact h
  | ok program =>
    rw [runWith_of_ok _ _ hc] at hr
    cases hr
    have hstart : (s.begin program).Counted := h
    exact (hgo _ hstart).depthLeft

theorem depth_run {s t : Session} (h : s.depth = 0) {settings : Settings} {n : Nat}
    {source : String} {r : Report} (hr : s.run settings n source = (r, t)) : t.depth = 0 :=
  depth_runWith (fun _ hm => hm.run rfl) h hr

end Session
end LoxScript
