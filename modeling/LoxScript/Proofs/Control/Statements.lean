import LoxScript.Proofs.Objects.Origins

/-!
Statements, where they stand.

What is done after a statement says where it stands: in a sequence of statements, as the body of a
loop, or outermost.  A `Discipline` is a rule about which statements may stand where that holds of
the parts of a statement if it holds of the statement.  A step keeps any such rule, for the
statement that it looks at and for all that wait.  It is said here as well what a step does to the
calls that wait for an answer, and where a completion that returns comes from.
-/

namespace LoxScript

section
variable (A : StmtCont → RStmt → Prop)

mutual

/-- The statements that wait for a value or for another statement are allowed where they stand. -/
def ValueCont.Lawful : ValueCont → Prop
  | .unary _ _ k | .binaryLeft _ _ _ _ k | .binaryRight _ _ _ k | .logical _ _ _ k
  | .assign _ _ _ k | .callee _ _ _ k | .argument _ _ _ _ _ k | .get _ k | .setObject _ _ _ k
  | .setValue _ _ k | .updateObject _ _ _ _ _ k | .updateValue _ _ _ _ _ k => k.Lawful
  | .discard k | .print k => k.Lawful
  | .define x _ k => (∃ name e, name.text = x ∧ A k (.var name (some e))) ∧ k.Lawful
  | .ret k => (∃ line e, A k (.ret line e)) ∧ k.Lawful
  | .branch yes no _ k => (∃ e, A k (.branch e yes no)) ∧ k.Lawful
  | .loopTest e s _ k => A k (.loop e s) ∧ k.Lawful
  | .inherit x y ms _ k => (∃ ref, A k (.classDef x (some (y, ref)) ms)) ∧ k.Lawful

def StmtCont.Lawful : StmtCont → Prop
  | .sequence later env k => (∀ s ∈ later, ∀ rest, A (.sequence rest env k) s) ∧ k.Lawful
  | .loopBody e s _ k => A k (.loop e s) ∧ k.Lawful
  | .call _ k => k.Lawful
  | .finish => True

end

/-- A completion that returns stands where a return may stand. -/
def Focus.Lawful : Focus → Prop
  | .evaluate _ _ k | .deliver _ k => k.Lawful A
  | .execute s _ k => A k s ∧ k.Lawful A
  | .complete .normal k => k.Lawful A
  | .complete (.returned _) k => (∃ line e, A k (.ret line e)) ∧ k.Lawful A

/-- A rule about which statements may stand where that their parts keep.  It allows every statement
in the body of a function, and looks at a return as if it stood behind the statements around it. -/
structure Discipline : Prop where
  block {k : StmtCont} {body : List RStmt} : A k (.block body) →
    ∀ s ∈ body, ∀ rest env, A (.sequence rest env k) s
  branch {k : StmtCont} {e : RExpr} {yes : RStmt} {no : Option RStmt} : A k (.branch e yes no) →
    ∀ s, s = yes ∨ no = some s → s.declares? = none → A k s
  loop {k : StmtCont} {e : RExpr} {s : RStmt} (env : Environment) : A k (.loop e s) →
    s.declares? = none → A (.loopBody e s env k) s
  call (s : RStmt) (rest : List RStmt) (env : Environment) (r : CallResult) (k : ValueCont) :
    A (.sequence rest env (.call r k)) s
  leaveSequence {k : StmtCont} {line : Nat} {e : Option RExpr} {rest : List RStmt}
    {env : Environment} : A (.sequence rest env k) (.ret line e) → A k (.ret line e)
  leaveLoop {k : StmtCont} {line : Nat} {e : Option RExpr} {c : RExpr} {s : RStmt}
    {env : Environment} : A (.loopBody c s env k) (.ret line e) → A k (.ret line e)

end

mutual

/-- The calls that wait for an answer, the latest first: what each will answer, and what is done
after it. -/
def ValueCont.waiting : ValueCont → List (CallResult × ValueCont)
  | .unary _ _ k | .binaryLeft _ _ _ _ k | .binaryRight _ _ _ k | .logical _ _ _ k
  | .assign _ _ _ k | .callee _ _ _ k | .argument _ _ _ _ _ k | .get _ k | .setObject _ _ _ k
  | .setValue _ _ k | .updateObject _ _ _ _ _ k | .updateValue _ _ _ _ _ k => k.waiting
  | .discard k | .print k | .define _ _ k | .ret k | .branch _ _ _ k | .loopTest _ _ _ k
  | .inherit _ _ _ _ k => k.waiting

def StmtCont.waiting : StmtCont → List (CallResult × ValueCont)
  | .sequence _ _ k | .loopBody _ _ _ k => k.waiting
  | .call r k => (r, k) :: k.waiting
  | .finish => []

end

def Focus.waiting : Focus → List (CallResult × ValueCont)
  | .evaluate _ _ k | .deliver _ k => k.waiting
  | .execute _ _ k | .complete _ k => k.waiting

def Focus.returned? : Focus → Option Value
  | .complete (.returned v) _ => some v
  | _ => none

/-- The second is what is done after the statement or the round of a loop that the first goes on
with. -/
inductive StmtCont.Leaves : StmtCont → StmtCont → Prop
  | sequence {later env k} : Leaves (.sequence later env k) k
  | loopBody {e s env k} : Leaves (.loopBody e s env k) k

namespace Machine

/-- A return is executed: its value is there, or it needs none. -/
inductive Returns (m : Machine) : Value → StmtCont → Prop
  | empty {line env k} : m.focus = .execute (.ret line none) env k → Returns m .nil k
  | value {v k} : m.focus = .deliver v (.ret k) → Returns m v k

/-- It is about to be decided whether a statement is executed that is the body of another one. -/
inductive Chooses (m : Machine) : RStmt → Prop
  | yes {v yes no env k} : m.focus = .deliver v (.branch yes no env k) → Chooses m yes
  | no {v yes no env k} : m.focus = .deliver v (.branch yes (some no) env k) → Chooses m no
  | body {v e s env k} : m.focus = .deliver v (.loopTest e s env k) → Chooses m s

/-- What a step does to the calls that wait for an answer. -/
inductive Shifts (m m' : Machine) : Prop
  | same : m'.focus.waiting = m.focus.waiting → Shifts m m'
  | starts {f args r k} : m.Starts f args r k →
      m'.focus.waiting = (r, k) :: m.focus.waiting → Shifts m m'
  | answers {c r k v} : m.focus = .complete c (.call r k) → m'.focus = .deliver v k → Shifts m m'

/-- The rules about statements that hold after a step if they hold before it. -/
def KeepsLaws (m m' : Machine) : Prop :=
  ∀ A, Discipline A → (∀ s, m.Chooses s → s.declares? = none) → m.focus.Lawful A →
    m'.focus.Lawful A

/-- The step goes on to the next outermost statement. -/
def TakesNext (m m' : Machine) : Prop :=
  ∃ c s, m.focus = .complete c .finish ∧ m.pending = s :: m'.pending ∧
    m'.focus = .execute s Store.globals .finish

/-- What a step does to the statements that wait. -/
structure Moves (m m' : Machine) : Prop where
  laws : m'.pending = m.pending ∧ m.KeepsLaws m' ∨ m.TakesNext m'
  calls : m.Shifts m'
  returned : ∀ v k, m'.focus = .complete (.returned v) k →
    m.Returns v k ∨ ∃ k', m.focus = .complete (.returned v) k' ∧ k'.Leaves k

/-- A step, if it leads on, leads to such a state. -/
def Moving (m : Machine) (r : Step) : Prop := ∀ m', r = .next m' → m.Moves m'

section
variable {m : Machine}

theorem moving_stop (m' : Machine) (e : Ending) : m.Moving (.stop m' e) := by
  rintro _ ⟨⟩

theorem Moves.of_not_returned {m' : Machine}
    (laws : m'.pending = m.pending ∧ m.KeepsLaws m' ∨ m.TakesNext m') (calls : m.Shifts m')
    (hr : m'.focus.returned? = none) : m.Moves m' := by
  refine ⟨laws, calls, fun v k hf => ?_⟩
  rw [hf] at hr
  cases hr

/-- The same statements wait before and after the step. -/
theorem moving_same {m' : Machine} (hp : m'.pending = m.pending)
    (hl : ∀ A, m.focus.Lawful A → m'.focus.Lawful A) (hc : m'.focus.waiting = m.focus.waiting)
    (hr : m'.focus.returned? = none) : m.Moving (.next m') := by
  rintro _ ⟨⟩
  exact .of_not_returned (.inl ⟨hp, fun A _ _ => hl A⟩) (.same hc) hr

theorem moving_takingProperty (i : Nat) (c : ClassObject) (x : Name)
    {next : Machine → Value → Step} (h : ∀ n v, n.pending = m.pending → m.Moving (next n v)) :
    m.Moving (m.takingProperty i c x next) := by
  unfold takingProperty
  split
  · exact moving_stop m _
  · exact h _ _ rfl

section
variable {k : ValueCont} (hl : ∀ A, m.focus.Lawful A → k.Lawful A)
  (hc : k.waiting = m.focus.waiting)
include hl hc

theorem moving_deliveringResult (r : Except Fault Value) (t : Token) :
    m.Moving (m.deliveringResult r t k) := by
  cases r with
  | ok v => exact moving_same rfl hl hc rfl
  | error f => exact moving_stop m _

theorem moving_lookingUp (x : String) (ref : Option Nat) (t : Token) (env : Environment) :
    m.Moving (m.lookingUp x ref t env k) := by
  unfold lookingUp
  split
  · split
    · exact moving_same rfl hl hc rfl
    · exact moving_stop m _
  · split
    · exact moving_same rfl hl hc rfl
    · exact moving_stop m _

theorem moving_assigning (x : Name) (ref : Option Nat) (env : Environment) (v : Value) :
    m.Moving (m.assigning x ref env v k) := by
  unfold assigning
  split
  · split
    · exact moving_same rfl hl hc rfl
    · exact moving_stop m _
  · split
    · exact moving_same rfl hl hc rfl
    · exact moving_stop m _

theorem moving_lookingUpSuper (ref : Option Nat) (x : Name) (env : Environment) :
    m.Moving (m.lookingUpSuper ref x env k) := by
  simp only [lookingUpSuper, make_eq]
  split
  · exact moving_stop m _
  · split
    · split
      · exact moving_stop m _
      · exact moving_same rfl hl hc rfl
    all_goals exact moving_stop m _

/-- Any statement may stand in the body of a function. -/
theorem moving_entering {n : Machine} {f : Closure} {args : List Value} {r : CallResult}
    (hp : n.pending = m.pending) (hs : m.Starts f args r k) :
    m.Moving (n.entering f args r k) := by
  rw [entering_eq]
  rintro _ ⟨⟩
  refine .of_not_returned (.inl ⟨hp, fun A hA _ h => ?_⟩)
    (.starts hs (congrArg ((r, k) :: ·) hc)) rfl
  exact ⟨fun s _ rest => hA.call s rest _ r k, hl A h⟩

theorem moving_invoking {settings : Settings} {callee : Value} {callable : Callable}
    {args : List Value} (hi : m.Invokes callee args k)
    (hcallable : callee.callable? = some callable) :
    m.Moving (m.invoking settings callable args k) := by
  cases callee with
  | native f =>
    cases hcallable
    exact moving_same rfl hl hc rfl
  | function i f =>
    cases hcallable
    exact moving_entering hl hc rfl (.function hi)
  | «class» c =>
    cases hcallable
    simp only [invoking, make_eq]
    split
    · exact moving_same rfl hl hc rfl
    · rename_i f hf
      exact moving_entering hl hc rfl (.initializer hi hf)
  | _ => cases hcallable

theorem moving_nextArgument {settings : Settings} {line : Nat} {callee : Value}
    {earlier : List Value} {later : List RExpr} {env : Environment}
    (hi : later = [] → m.Invokes callee earlier.reverse k) :
    m.Moving (m.nextArgument settings line callee earlier later env k) := by
  cases later with
  | nil =>
    simp only [nextArgument, calling]
    split
    · exact moving_stop m _
    · rename_i callable hcallable
      split
      · exact moving_stop m _
      · split
        · exact moving_stop m _
        · exact moving_invoking hl hc (hi rfl) hcallable
  | cons e later => exact moving_same rfl hl hc rfl

end

theorem moving_declaringClass {k : StmtCont} (hl : ∀ A, m.focus.Lawful A → k.Lawful A)
    (hc : k.waiting = m.focus.waiting) (x : Name) (parent : Option ClassObject)
    (ms : List (Method (Option Nat))) (env : Environment) :
    m.Moving (m.declaringClass x parent ms env k) := by
  cases parent <;> exact moving_same rfl hl hc rfl

/-- A body that is chosen declares nothing. -/
theorem moving_executing {s : RStmt} {env : Environment} {k : StmtCont}
    (hl : ∀ A, Discipline A → s.declares? = none → m.focus.Lawful A → A k s ∧ k.Lawful A)
    (hs : m.Chooses s) (hc : k.waiting = m.focus.waiting) : m.Moving (m.executing s env k) := by
  rintro _ ⟨⟩
  exact .of_not_returned (.inl ⟨rfl, fun A hA hb => hl A hA (hb s hs)⟩) (.same hc) rfl

theorem moving_evaluate {e : RExpr} {env : Environment} {k : ValueCont}
    (hfocus : m.focus = .evaluate e env k) : m.Moving (m.evaluate e env k) := by
  have hl : ∀ A, m.focus.Lawful A → k.Lawful A := by
    rw [hfocus]
    exact fun _ h => h
  have hc : k.waiting = m.focus.waiting := by
    rw [hfocus]
    rfl
  cases e with
  | var x ref => exact moving_lookingUp hl hc x.text ref x.token env
  | this line ref => exact moving_lookingUp hl hc "this" ref _ env
  | super line ref x => exact moving_lookingUpSuper hl hc ref x env
  | _ => exact moving_same rfl hl hc rfl

theorem moving_deliver {settings : Settings} {v : Value} {k : ValueCont}
    (hfocus : m.focus = .deliver v k) : m.Moving (m.deliver settings v k) := by
  have hl : ∀ A, m.focus.Lawful A → k.Lawful A := by
    rw [hfocus]
    exact fun _ h => h
  have hc : k.waiting = m.focus.waiting := by
    rw [hfocus]
    rfl
  cases k with
  | unary op line k => exact moving_deliveringResult (k := k) hl hc _ _
  | binaryRight op line left k => exact moving_deliveringResult (k := k) hl hc _ _
  | logical op right env k =>
    simp only [deliver]
    split <;> exact moving_same rfl hl hc rfl
  | assign x ref env k => exact moving_assigning (k := k) hl hc x ref env v
  | callee line es env k =>
    refine moving_nextArgument (k := k) hl hc ?_
    rintro rfl
    exact .bare hfocus
  | argument line callee earlier es env k =>
    refine moving_nextArgument (k := k) hl hc ?_
    rintro rfl
    exact .applied hfocus
  | get x k =>
    cases v with
    | «instance» i c =>
      simp only [deliver]
      exact moving_takingProperty i c x fun n v hn => moving_same hn hl hc rfl
    | _ => exact moving_stop m _
  | setObject x e env k =>
    cases v with
    | «instance» i c => exact moving_same rfl hl hc rfl
    | _ => exact moving_stop m _
  | updateObject x op line e env k =>
    cases v with
    | «instance» i c =>
      simp only [deliver]
      exact moving_takingProperty i c x fun n v hn => moving_same hn hl hc rfl
    | _ => exact moving_stop m _
  | updateValue i x op line current k =>
    simp only [deliver]
    split
    · exact moving_same rfl hl hc rfl
    · exact moving_stop m _
  | define x env k => exact moving_same rfl (fun A h => (hl A h).2) hc rfl
  | ret k =>
    rintro _ ⟨⟩
    refine ⟨.inl ⟨rfl, fun A _ _ => hl A⟩, .same hc, ?_⟩
    rintro w k' ⟨⟩
    exact .inl (.value hfocus)
  | branch yes no env k =>
    simp only [deliver.eq_def]
    split
    · refine moving_executing (fun A hA hs h => ?_) (.yes hfocus) hc
      obtain ⟨⟨e, he⟩, hk⟩ := hl A h
      exact ⟨hA.branch he yes (.inl rfl) hs, hk⟩
    · split
      · rename_i s
        refine moving_executing (fun A hA hs h => ?_) (.no hfocus) hc
        obtain ⟨⟨e, he⟩, hk⟩ := hl A h
        exact ⟨hA.branch he s (.inr rfl) hs, hk⟩
      · exact moving_same rfl (fun A h => (hl A h).2) hc rfl
  | loopTest e s env k =>
    simp only [deliver]
    split
    · refine moving_executing (fun A hA hs h => ?_) (.body hfocus) hc
      obtain ⟨he, hk⟩ := hl A h
      exact ⟨hA.loop env he hs, he, hk⟩
    · exact moving_same rfl (fun A h => (hl A h).2) hc rfl
  | inherit x y ms env k =>
    cases v with
    | «class» c => exact moving_declaringClass (fun A h => (hl A h).2) hc x (some c) ms env
    | _ => exact moving_stop m _
  | _ => exact moving_same rfl hl hc rfl

theorem moving_execute {s : RStmt} {env : Environment} {k : StmtCont}
    (hfocus : m.focus = .execute s env k) : m.Moving (m.execute s env k) := by
  have hl : ∀ A, m.focus.Lawful A → A k s ∧ k.Lawful A := by
    rw [hfocus]
    exact fun _ h => h
  have hk (A : StmtCont → RStmt → Prop) (h : m.focus.Lawful A) : k.Lawful A := (hl A h).2
  have hc : k.waiting = m.focus.waiting := by
    rw [hfocus]
    rfl
  cases s with
  | var x initial =>
    cases initial with
    | none => exact moving_same rfl hk hc rfl
    | some e => exact moving_same rfl (fun A h => ⟨⟨x, e, rfl, (hl A h).1⟩, hk A h⟩) hc rfl
  | block body =>
    rintro _ ⟨⟩
    refine .of_not_returned (.inl ⟨rfl, fun A hA _ h => ?_⟩) (.same hc) rfl
    exact ⟨fun s hs rest => hA.block (hl A h).1 s hs rest _, hk A h⟩
  | branch e yes no => exact moving_same rfl (fun A h => ⟨⟨e, (hl A h).1⟩, hk A h⟩) hc rfl
  | loop e s => exact moving_same rfl hl hc rfl
  | ret line value =>
    cases value with
    | none =>
      rintro _ ⟨⟩
      refine ⟨.inl ⟨rfl, fun A _ _ h => ⟨⟨line, none, (hl A h).1⟩, hk A h⟩⟩, .same hc, ?_⟩
      rintro w k' ⟨⟩
      exact .inl (.empty hfocus)
    | some e => exact moving_same rfl (fun A h => ⟨⟨line, some e, (hl A h).1⟩, hk A h⟩) hc rfl
  | classDef x parent ms =>
    cases parent with
    | none => exact moving_declaringClass hk hc x none ms env
    | some y => exact moving_same rfl (fun A h => ⟨⟨y.2, (hl A h).1⟩, hk A h⟩) hc rfl
  | _ => exact moving_same rfl hk hc rfl

/-- A completion that returns passes the statements around it. -/
theorem moving_leaving {v : Value} {k k' : StmtCont} (hfocus : m.focus = .complete (.returned v) k')
    (hk : k'.Leaves k) : m.Moving (m.completing (.returned v) k) := by
  rintro _ ⟨⟩
  refine ⟨.inl ⟨rfl, fun A hA _ h => ?_⟩, .same ?_, ?_⟩
  · rw [hfocus] at h
    obtain ⟨⟨line, e, hreturn⟩, h⟩ := h
    cases hk with
    | sequence => exact ⟨⟨line, e, hA.leaveSequence hreturn⟩, h.2⟩
    | loopBody => exact ⟨⟨line, e, hA.leaveLoop hreturn⟩, h.2⟩
  · rw [hfocus]
    cases hk <;> rfl
  · rintro w l ⟨⟩
    exact .inr ⟨k', hfocus, hk⟩

theorem moving_complete {c : Completion} {k : StmtCont} (hfocus : m.focus = .complete c k) :
    m.Moving (m.complete c k) := by
  have hl : ∀ A, m.focus.Lawful A → k.Lawful A := by
    rw [hfocus]
    cases c with
    | normal => exact fun _ h => h
    | returned v => exact fun _ h => h.2
  have hc : k.waiting = m.focus.waiting := by
    rw [hfocus]
    rfl
  cases k with
  | sequence later env k =>
    cases c with
    | normal =>
      cases later with
      | nil => exact moving_same rfl (fun A h => (hl A h).2) hc rfl
      | cons s later =>
        refine moving_same rfl (fun A h => ?_) hc rfl
        obtain ⟨hs, hk⟩ := hl A h
        exact ⟨hs s List.mem_cons_self later,
          fun s' hs' => hs s' (List.mem_cons_of_mem s hs'), hk⟩
    | returned v => exact moving_leaving hfocus .sequence
  | loopBody e s env k =>
    cases c with
    | normal => exact moving_same rfl hl hc rfl
    | returned v => exact moving_leaving hfocus .loopBody
  | call r k =>
    simp only [complete.eq_def]
    split
    · rintro _ ⟨⟩
      exact .of_not_returned (.inl ⟨rfl, fun A _ _ => hl A⟩) (.answers hfocus rfl) rfl
    · exact moving_stop m _
  | finish =>
    simp only [complete.eq_def]
    split
    · exact moving_stop m _
    · rename_i s pending hpending
      rintro _ ⟨⟩
      exact .of_not_returned (.inr ⟨c, s, hfocus, hpending, rfl⟩) (.same hc) rfl

/-- What a step does to the statements that wait. -/
theorem moves_step {settings : Settings} {m' : Machine} (h : m.step settings = .next m') :
    m.Moves m' := by
  refine (?_ : m.Moving (m.step settings)) m' h
  unfold step
  split
  · exact moving_evaluate ‹_›
  · exact moving_deliver ‹_›
  · exact moving_execute ‹_›
  · exact moving_complete ‹_›

end
end Machine

/-- The body of a branch or of a loop declares nothing. -/
theorem World.Inv.chooses {W : World} {m : Machine} (h : W.Inv m) {s : RStmt} (hs : m.Chooses s) :
    s.declares? = none := by
  have hf := h.focus
  cases hs with
  | yes hfocus =>
    rw [hfocus] at hf
    exact hf.2.1.1.2
  | no hfocus =>
    rw [hfocus] at hf
    exact (hf.2.1.2 s rfl).2
  | body hfocus =>
    rw [hfocus] at hf
    exact hf.2.1.2.2

end LoxScript
