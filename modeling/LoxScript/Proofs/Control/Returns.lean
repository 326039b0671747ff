import LoxScript.Proofs.Control.Statements
import LoxScript.Proofs.Machine.Runs
import LoxScript.Proofs.Objects.Receiver

/-!
Returns and the calls that they end.

Resolution accepts no `return` outside of functions, and a statement in the body of a function
stands behind a call that waits for an answer.  So a completion that returns is passed on by the
statements around it until it comes to such a call, and the call turns it into a value.  Which call
this is can be told from the list of the calls that wait: it is the one begun last that is still in
progress.
-/

namespace LoxScript

/-! ### Statements outside of functions -/

/-- Resolution makes the statement outside of all functions, and finds nothing wrong with it. -/
def Resolve.Outside (s : RStmt) : Prop :=
  ∃ around scopes s₀, around.body = .outermost ∧ (Resolve.stmt around scopes s₀).value = s ∧
    (Resolve.stmt around scopes s₀).notes = []

namespace Resolve
variable {around : Surroundings} {scopes : LocalScopes}

theorem outside_of_mem_stmts (ha : around.body = .outermost) {ss₀ : List (Stmt Unit)}
    (h : (stmts around scopes ss₀).notes = []) :
    ∀ s ∈ (stmts around scopes ss₀).value, Outside s := by
  induction ss₀ generalizing scopes with
  | nil => nofun
  | cons s₀ rest ih =>
    simp only [stmts, Noted.notes_bind, Noted.notes_pure, List.append_nil,
      List.append_eq_nil_iff] at h
    obtain ⟨hs, hrest⟩ := h
    exact List.forall_mem_cons.2 ⟨⟨around, scopes, s₀, ha, rfl, hs⟩, ih hrest⟩

theorem Outside.block {body : List RStmt} (h : Outside (.block body)) : ∀ s ∈ body, Outside s := by
  obtain ⟨around, scopes, s₀, ha, hv, hn⟩ := h
  cases s₀ with
  | block body₀ =>
    cases hv
    simp only [stmt, Noted.notes_bind, Noted.notes_pure, List.append_nil] at hn
    exact outside_of_mem_stmts ha hn
  | classDef x parent ms => cases parent <;> cases hv
  | _ => cases hv

theorem Outside.branch {e : RExpr} {yes : RStmt} {no : Option RStmt}
    (h : Outside (.branch e yes no)) : ∀ s, s = yes ∨ no = some s → Outside s := by
  obtain ⟨around, scopes, s₀, ha, hv, hn⟩ := h
  cases s₀ with
  | branch e₀ yes₀ no₀ =>
    cases hv
    simp only [stmt, Noted.notes_bind, Noted.notes_pure, List.append_nil,
      List.append_eq_nil_iff] at hn
    obtain ⟨-, hyes, hno⟩ := hn
    rintro s (rfl | hs)
    · exact ⟨around, scopes, yes₀, ha, rfl, hyes⟩
    · cases no₀ with
      | none => cases hs
      | some s₀ =>
        cases hs
        simp only [optionalStmt, Noted.notes_bind, Noted.notes_pure, List.append_nil] at hno
        exact ⟨around, scopes, s₀, ha, rfl, hno⟩
  | classDef x parent ms => cases parent <;> cases hv
  | _ => cases hv

theorem Outside.loop {e : RExpr} {s : RStmt} (h : Outside (.loop e s)) : Outside s := by
  obtain ⟨around, scopes, s₀, ha, hv, hn⟩ := h
  cases s₀ with
  | loop e₀ body₀ =>
    cases hv
    simp only [stmt, Noted.notes_bind, Noted.notes_pure, List.append_nil,
      List.append_eq_nil_iff] at hn
    exact ⟨around, scopes, body₀, ha, rfl, hn.2⟩
  | classDef x parent ms => cases parent <;> cases hv
  | _ => cases hv

theorem not_outside_ret {line : Nat} {e : Option RExpr} : ¬ Outside (.ret line e) := by
  rintro ⟨around, scopes, s₀, ha, hv, hn⟩
  cases s₀ with
  | ret line₀ e₀ =>
    simp only [stmt, Noted.notes_bind, List.append_eq_nil_iff, noteIf_eq_nil, ha] at hn
    exact absurd hn.1 (by decide)
  | classDef x parent ms => cases parent <;> cases hv
  | _ => cases hv

/-- Nothing in a program that is ready to run returns outside of functions. -/
theorem outside_of_compile {source : String} {program : List RStmt}
    (h : compile source = .ok program) : ∀ s ∈ program, Outside s := by
  obtain ⟨haccepted, rfl⟩ := accepted_of_compile h
  exact outside_of_mem_stmts rfl haccepted.notes

end Resolve

/-! ### Leaving the body of a call -/

mutual

theorem ValueCont.calls_eq : (k : ValueCont) → k.calls = k.waiting.length
  | .unary _ _ k | .binaryLeft _ _ _ _ k | .binaryRight _ _ _ k | .logical _ _ _ k
  | .assign _ _ _ k | .callee _ _ _ k | .argument _ _ _ _ _ k | .get _ k | .setObject _ _ _ k
  | .setValue _ _ k | .updateObject _ _ _ _ _ k | .updateValue _ _ _ _ _ k => k.calls_eq
  | .discard k | .print k | .define _ _ k | .ret k | .branch _ _ _ k | .loopTest _ _ _ k
  | .inherit _ _ _ _ k => k.calls_eq

theorem StmtCont.calls_eq : (k : StmtCont) → k.calls = k.waiting.length
  | .sequence _ _ k | .loopBody _ _ _ k => k.calls_eq
  | .call _ k => congrArg (· + 1) k.calls_eq
  | .finish => rfl

end

theorem Focus.calls_eq (f : Focus) : f.calls = f.waiting.length := by
  cases f with
  | evaluate _ _ k | deliver _ k => exact k.calls_eq
  | execute _ _ k | complete _ k => exact k.calls_eq

namespace Machine

/-- A return may stand where a call waits; elsewhere there is no statement that resolution would
not accept outside of functions. -/
def MayReturn (k : StmtCont) (s : RStmt) : Prop := k.waiting ≠ [] ∨ Resolve.Outside s

theorem discipline_mayReturn : Discipline MayReturn where
  block h s hs _ _ := h.imp id fun h => h.block s hs
  branch h s hs _ := h.imp id fun h => h.branch s hs
  loop _ h _ := h.imp id Resolve.Outside.loop
  call _ _ _ _ _ := .inl (List.cons_ne_nil _ _)
  leaveSequence h := h
  leaveLoop h := h

theorem waiting_ne_nil {line : Nat} {e : Option RExpr} {k : StmtCont}
    (h : MayReturn k (.ret line e)) : k.waiting ≠ [] := h.resolve_right Resolve.not_outside_ret

variable (settings : Settings)

/-- A return of `v` that is executed ends a call: there are `j` states in which nothing but its
completion is looked at, with the same calls in progress, and after them `w` is delivered to what
waits for the answer of the call.  Nothing else is different then but the number of these calls. -/
structure EndsCall (m : Machine) (v w : Value) (k : ValueCont) (j : Nat) : Prop where
  leaves : ∀ i < j, ∃ κ, κ.waiting = m.focus.waiting ∧
    m.run settings (i + 1) = ({ m with focus := .complete (.returned v) κ }, none)
  answers : m.run settings (j + 1) =
    ({ m with focus := .deliver w k, depth := m.depth - 1 }, none)

/-- The call that `q` begins, after `i` steps of the run from `m₀`, is still in progress after `n`
steps, and it is the innermost one: the statements of its own body are being run. -/
structure RunsBodyOf (m₀ q : Machine) (i n : Nat) (m : Machine) : Prop where
  begun : m₀.run settings i = (q, none)
  before : i < n
  reached : m₀.run settings n = (m, none)
  inProgress : ∀ l q', i < l → l ≤ n → m₀.run settings l = (q', none) → q.depth < q'.depth
  innermost : m.depth = q.depth + 1

end Machine

/-- What a call of the function answers after a return of `v`: its receiver, if the function is an
initializer, and otherwise what is returned. -/
def AnswersReturn (past : List Machine) (f : Closure) (v w : Value) : Prop :=
  (∃ g, g.name = some "init" ∧ IsBound past f g w) ∨
    (¬∃ g r, g.name = some "init" ∧ IsBound past f g r) ∧ w = v

/-- What is known of returns in the state `m`, to which the run from `m₀` comes after `n` steps. -/
structure ReturnsEndCalls (settings : Settings) (past : List Machine) (m₀ : Machine) (n : Nat)
    (m : Machine) : Prop where
  outermost : ∀ c, m.focus = .complete c .finish → c = .normal
  /-- A completion that returns is on its way from the return to the end of the call. -/
  completed : ∀ v κ, m.focus = .complete (.returned v) κ →
    ∃ (i : Nat) (q : Machine) (κ' : StmtCont) (w : Value) (k : ValueCont) (j l : Nat),
      m₀.run settings i = (q, none) ∧ q.Returns v κ' ∧ q.EndsCall settings v w k j ∧ l < j ∧
      n = i + (l + 1)
  /-- A return stands in the body of a call. -/
  within : ∀ v κ, m.Returns v κ → ∃ (i : Nat) (q : Machine) (f : Closure) (args : List Value)
    (r : CallResult) (k : ValueCont), q.Starts f args r k ∧ m₀.RunsBodyOf settings q i n m
  /-- It ends this call, whichever statements are around it. -/
  ends : ∀ i q f args r k, q.Starts f args r k → m₀.RunsBodyOf settings q i n m →
    ∀ v κ, m.Returns v κ → ∃ w j, m.EndsCall settings v w k j ∧ AnswersReturn past f v w

namespace Machine
variable {settings : Settings} {m : Machine}

/-- A return leads to its completion. -/
theorem Returns.step {v : Value} {κ : StmtCont} (h : m.Returns v κ) :
    m.step settings = .next { m with focus := .complete (.returned v) κ } := by
  cases h with
  | empty hfocus | value hfocus =>
    rw [Machine.step, hfocus]
    rfl

theorem Returns.waiting {v : Value} {κ : StmtCont} (h : m.Returns v κ) :
    m.focus.waiting = κ.waiting := by
  cases h with
  | empty hfocus | value hfocus =>
    rw [hfocus]
    rfl

theorem Returns.waiting_ne_nil {v : Value} {κ : StmtCont} (h : m.Returns v κ)
    (hl : m.focus.Lawful MayReturn) : κ.waiting ≠ [] := by
  cases h with
  | empty hfocus =>
    rw [hfocus] at hl
    exact Machine.waiting_ne_nil hl.1
  | value hfocus =>
    rw [hfocus] at hl
    obtain ⟨⟨line, e, hl⟩, -⟩ := hl
    exact Machine.waiting_ne_nil hl

/-- A completion that returns comes, in `j` steps, to the end of the call. -/
def ComesTo (settings : Settings) (m : Machine) (v : Value) (r : CallResult) (k : ValueCont)
    (j : Nat) : Prop :=
  (∀ i ≤ j, ∃ κ, κ.waiting = m.focus.waiting ∧
    m.run settings i = ({ m with focus := .complete (.returned v) κ }, none)) ∧
  m.run settings j = ({ m with focus := .complete (.returned v) (.call r k) }, none)

section
variable {v : Value} {r : CallResult} {k : ValueCont} {rest : List (CallResult × ValueCont)}

/-- The statement around it is left first. -/
theorem ComesTo.succ {κ κ' : StmtCont} (hfocus : m.focus = .complete (.returned v) κ)
    (hleaves : κ.Leaves κ')
    (h : ∃ j, { m with focus := .complete (.returned v) κ' }.ComesTo settings v r k j) :
    ∃ j, m.ComesTo settings v r k j := by
  have hstep : m.step settings = .next { m with focus := .complete (.returned v) κ' } := by
    rw [step, hfocus]
    cases hleaves <;> rfl
  have hwaiting : κ'.waiting = m.focus.waiting := by
    rw [hfocus]
    cases hleaves <;> rfl
  obtain ⟨j, hbetween, hcall⟩ := h
  refine ⟨j + 1, fun i hi => ?_, ?_⟩
  · cases i with
    | zero =>
      refine ⟨κ, ?_, ?_⟩
      · rw [hfocus]
        rfl
      · rw [← hfocus]
        rfl
    | succ i =>
      obtain ⟨κ'', hκ, hi⟩ := hbetween i (Nat.le_of_succ_le_succ hi)
      exact ⟨κ'', hκ.trans hwaiting, (run_of_next hstep i).trans hi⟩
  · rw [run_of_next hstep, hcall]

/-- Statement by statement, a completion that returns comes to the innermost call that waits. -/
theorem comesTo_call : (κ : StmtCont) → ∀ m : Machine, m.focus = .complete (.returned v) κ →
    κ.waiting = (r, k) :: rest → ∃ j, m.ComesTo settings v r k j
  | .sequence _ _ κ, m, hfocus, hw => ComesTo.succ hfocus .sequence (comesTo_call κ _ rfl hw)
  | .loopBody _ _ _ κ, m, hfocus, hw => ComesTo.succ hfocus .loopBody (comesTo_call κ _ rfl hw)
  | .call r' k', m, hfocus, hw => by
    cases hw
    have hm : m = { m with focus := .complete (.returned v) (.call r k) } := by rw [← hfocus]
    refine ⟨0, fun i hi => ⟨.call r k, ?_, ?_⟩, congrArg (·, none) hm⟩
    · rw [hfocus]
      rfl
    · rw [Nat.le_zero.1 hi]
      exact congrArg (·, none) hm

/-- A return ends the innermost call that waits, if the call has an answer. -/
theorem ComesTo.endsCall {m₁ : Machine} {w : Value} {j : Nat} (hstep : m.step settings = .next m₁)
    (hm₁ : ∃ κ, κ.waiting = m.focus.waiting ∧ m₁ = { m with focus := .complete (.returned v) κ })
    (h : m₁.ComesTo settings v r k j) (hw : m.answer (.returned v) r = .ok w) :
    m.EndsCall settings v w k (j + 1) := by
  obtain ⟨κ, hκ, rfl⟩ := hm₁
  obtain ⟨hbetween, hcall⟩ := h
  refine ⟨fun i hi => ?_, ?_⟩
  · obtain ⟨κ', hκ', hi⟩ := hbetween i (Nat.le_of_lt_succ hi)
    exact ⟨κ', hκ'.trans hκ, (run_of_next hstep i).trans hi⟩
  · rw [run_of_next hstep, run_add hcall]
    refine run_of_next ?_ 0
    have hanswer : { m with focus := .complete (.returned v) (.call r k) }.answer (.returned v) r =
        .ok w := hw
    simp only [step, complete, hanswer]
    rfl

end

/-! ### The calls that wait -/

/-- What waits after a step. -/
theorem Shifts.waiting {m' : Machine} (h : m.Shifts m') : m'.focus.waiting = m.focus.waiting ∨
    (∃ f args r k, m.Starts f args r k ∧ m'.focus.waiting = (r, k) :: m.focus.waiting) ∨
    ∃ call, m.focus.waiting = call :: m'.focus.waiting := by
  cases h with
  | same h => exact .inl h
  | starts hs h => exact .inr (.inl ⟨_, _, _, _, hs, h⟩)
  | answers hfocus hfocus' =>
    rw [hfocus, hfocus']
    exact .inr (.inr ⟨_, rfl⟩)

/-- The call waits for its answer as soon as the body of the function is begun. -/
theorem Starts.waiting {m' : Machine} {f : Closure} {args : List Value} {r : CallResult}
    {k : ValueCont} (h : m.Starts f args r k) (hstep : m.step settings = .next m') :
    m'.focus.waiting = (r, k) :: m.focus.waiting := by
  obtain ⟨-, e, hfocus'⟩ := h.runsBody hstep
  have hk : m.focus.waiting = k.waiting := by
    cases h with
    | function hi | initializer hi =>
      cases hi with
      | bare hfocus | applied hfocus =>
        rw [hfocus]
        rfl
  rw [hfocus', hk]
  rfl

/-- The call was begun when `rest` were waiting, and it has waited since, up to the `n`th step. -/
def Begun (settings : Settings) (m₀ : Machine) (n : Nat) (r : CallResult) (k : ValueCont)
    (rest : List (CallResult × ValueCont)) : Prop :=
  ∃ i q f args, m₀.run settings i = (q, none) ∧ i < n ∧ q.Starts f args r k ∧
    q.focus.waiting = rest ∧ ∀ l q', i < l → l ≤ n → m₀.run settings l = (q', none) →
      rest.length < q'.focus.waiting.length

section
variable {program : List RStmt} {store : Store} {n : Nat} {r : CallResult} {k : ValueCont}
  {top rest : List (CallResult × ValueCont)}

theorem depth_eq_waiting (hm : (start program store).run settings n = (m, none)) :
    m.depth = m.focus.waiting.length :=
  ((counted_start program store).run hm).trans m.focus.calls_eq

theorem Begun.succ {m₀ : Machine} (h : m₀.Begun settings n r k rest)
    (hm : m₀.run settings (n + 1) = (m, none)) (hw : rest.length < m.focus.waiting.length) :
    m₀.Begun settings (n + 1) r k rest := by
  obtain ⟨i, q, f, args, hq, hlt, hstarts, hrest, hbetween⟩ := h
  refine ⟨i, q, f, args, hq, Nat.lt_succ_of_lt hlt, hstarts, hrest, ?_⟩
  intro l q' hil hln hl
  rcases Nat.le_succ_iff.1 hln with hln | rfl
  · exact hbetween l q' hil hln hl
  · cases hm.symm.trans hl
    exact hw

/-- Each call that waits was begun when those behind it were waiting. -/
theorem begun_of_waiting (hm : (start program store).run settings n = (m, none))
    (hw : m.focus.waiting = top ++ (r, k) :: rest) :
    (start program store).Begun settings n r k rest := by
  induction n generalizing m top with
  | zero =>
    cases hm
    cases top <;> cases hw
  | succ n ih =>
    obtain ⟨q, hq, hstep⟩ := run_succ_eq_none.1 hm
    have hlast : rest.length < m.focus.waiting.length := by
      simp only [hw, List.length_append, List.length_cons]
      omega
    rcases (moves_step hstep).calls.waiting with
      hsame | ⟨f, args, r', k', hstarts, hnew⟩ | ⟨call, hold⟩
    · exact (ih hq (hsame.symm.trans hw)).succ hm hlast
    · rw [hnew] at hw
      cases top with
      | nil =>
        cases hw
        refine ⟨n, q, f, args, hq, Nat.lt_succ_self n, hstarts, rfl, ?_⟩
        intro l q' hnl hln hl
        obtain rfl : l = n + 1 := Nat.le_antisymm hln hnl
        cases hm.symm.trans hl
        exact hlast
      | cons call top => exact (ih hq (List.cons.inj hw).2).succ hm hlast
    · have hwaiting : q.focus.waiting = (call :: top) ++ (r, k) :: rest := by rw [hold, hw]; rfl
      exact (ih hq hwaiting).succ hm hlast

end

/-- While a call is in progress, it waits behind those that were begun after it. -/
theorem waiting_of_starts {m₀ q : Machine} {i n : Nat} {f : Closure} {args : List Value}
    {r : CallResult} {k : ValueCont} (hq : m₀.run settings i = (q, none))
    (hstarts : q.Starts f args r k)
    (hbetween : ∀ l q', i < l → l ≤ n → m₀.run settings l = (q', none) →
      q.focus.waiting.length < q'.focus.waiting.length)
    {d : Nat} (hn : n = i + (d + 1)) (hm : m₀.run settings n = (m, none)) :
    ∃ top, m.focus.waiting = top ++ (r, k) :: q.focus.waiting := by
  induction d generalizing n m with
  | zero =>
    subst hn
    obtain ⟨q₀, hq₀, hstep⟩ := run_succ_eq_none.1 hm
    cases hq.symm.trans hq₀
    exact ⟨[], hstarts.waiting hstep⟩
  | succ d ih =>
    subst hn
    obtain ⟨q₀, hq₀, hstep⟩ := run_succ_eq_none.1 hm
    obtain ⟨top, htop⟩ := ih (fun l q' hil hln => hbetween l q' hil (Nat.le_succ_of_le hln)) rfl hq₀
    rcases (moves_step hstep).calls.waiting with hsame | ⟨f', args', r', k', -, hnew⟩ | ⟨call, hold⟩
    · exact ⟨top, hsame.trans htop⟩
    · exact ⟨(r', k') :: top, hnew.trans (congrArg _ htop)⟩
    · rw [htop] at hold
      cases top with
      | nil =>
        have hlt := hbetween _ m (by omega) (Nat.le_refl _) hm
        rw [← (List.cons.inj hold).2] at hlt
        exact absurd hlt (Nat.lt_irrefl _)
      | cons c top => exact ⟨top, (List.cons.inj hold).2.symm⟩

end Machine

/-! ### What a call answers -/

/-- A return in an initializer gives the receiver, and elsewhere its own value. -/
theorem Chronicle.answersReturn {settings : Settings} {past : List Machine} {s : Store}
    (h : Chronicle settings past s) {m q : Machine} (hm : m.store = s) (hq : q ∈ past)
    {f : Closure} {args : List Value} {r : CallResult} {k : ValueCont}
    (hstarts : q.Starts f args r k) {v w : Value} (hw : m.answer (.returned v) r = .ok w) :
    AnswersReturn past f v w := by
  subst hm
  by_cases hinit : ∃ g r', g.name = some "init" ∧ IsBound past f g r'
  · obtain ⟨g, r', hname, hbound⟩ := hinit
    obtain rfl : r' = w := by
      cases hstarts with
      | function hi =>
        obtain ⟨q', hq', hbinds, rfl⟩ := id hbound
        have hg : (q'.bound g).isInitializer = true := (h.isInitializer_iff hq' hbinds).2 hname
        rw [if_pos hg, h.answer_receiver hbound] at hw
        cases hw
        rfl
      | initializer hi hf =>
        cases hw
        exact h.receiver_unique hbound ⟨q, hq, .initializer hi hf, rfl⟩
    exact .inl ⟨g, hname, hbound⟩
  · refine .inr ⟨hinit, ?_⟩
    cases hstarts with
    | @function i _ _ _ hi =>
      have hf : ¬ f.isInitializer = true := by
        cases h.origins q hq _ hi.has with
        | plain hp => exact hp.elim
        | @created q' _ hq' hcreates =>
          cases hcreates with
          | function hcloses => cases hcloses <;> exact Bool.false_ne_true
          | @method g r' htakes =>
            intro hg
            have hname := (h.isInitializer_iff hq' (.taken htakes)).1 hg
            exact hinit ⟨g, r', hname, q', hq', .taken htakes, rfl⟩
      rw [if_neg hf] at hw
      cases hw
      rfl
    | @initializer c g _ _ hi hf =>
      obtain ⟨d, ⟨q', -, hd⟩, hfind⟩ := h.made_of_method? (h.origins q hq _ hi.has).made hf
      have hname : g.name = some "init" := by
        cases hd with
        | base | derived => exact Machine.name_of_find?_methodTable hfind
      exact absurd ⟨g, _, hname, q, hq, .initializer hi hf, rfl⟩ hinit

/-! ### Runs of a session -/

namespace Session
variable {settings : Settings} {sources : List String} {past : List Machine} {s : Session}
  (hs : s.Reached settings sources past) {source : String} {program : List RStmt}
  (hc : compile source = .ok program)
include hs hc

/-- Statements stand where a return may stand or would not be accepted. -/
theorem Reached.mayReturn {n : Nat} {m : Machine}
    (hm : (Machine.start program s.store).run settings n = (m, none)) :
    m.focus.Lawful Machine.MayReturn := by
  refine (Machine.run_induction (m := .start program s.store) (P := fun _ m =>
    m.focus.Lawful Machine.MayReturn ∧ ∀ s ∈ m.pending, Resolve.Outside s) ?_ ?_ hm).1
  · exact ⟨trivial, Resolve.outside_of_compile hc⟩
  · rintro i q q' hq ⟨hl, hp⟩ hstep
    rcases (Machine.moves_step hstep).laws with ⟨hsame, hkeeps⟩ | ⟨c, s', -, hpending, hfocus⟩
    · rw [hsame]
      exact ⟨hkeeps _ Machine.discipline_mayReturn (fun _ => (hs.traced hc hq).inv.chooses) hl, hp⟩
    · rw [hpending] at hp
      obtain ⟨hs', hp⟩ := List.forall_mem_cons.1 hp
      rw [hfocus]
      exact ⟨⟨.inr hs', trivial⟩, hp⟩

/-- A return ends the innermost call that waits. -/
theorem Reached.endsCall {n : Nat} {m : Machine}
    (hm : (Machine.start program s.store).run settings n = (m, none)) {v : Value} {κ : StmtCont}
    (hr : m.Returns v κ) {r : CallResult} {k : ValueCont} {rest : List (CallResult × ValueCont)}
    (hw : m.focus.waiting = (r, k) :: rest) :
    ∃ w j, m.EndsCall settings v w k (j + 1) ∧ m.answer (.returned v) r = .ok w := by
  have hstep : m.step settings = .next { m with focus := .complete (.returned v) κ } := hr.step
  obtain ⟨j, hcomes⟩ : ∃ j, Machine.ComesTo settings
      { m with focus := .complete (.returned v) κ } v r k j :=
    Machine.comesTo_call κ _ rfl (hr.waiting.symm.trans hw)
  have hcall : (Machine.start program s.store).run settings (n + (j + 1)) =
      ({ m with focus := .complete (.returned v) (.call r k) }, none) := by
    rw [Machine.run_add hm, Machine.run_of_next hstep]
    exact hcomes.2
  obtain ⟨w, hw⟩ := (hs.traced hc hcall).inv.answers rfl
  exact ⟨w, j, hcomes.endsCall hstep ⟨κ, hr.waiting.symm, rfl⟩ hw, hw⟩

theorem Reached.waiting_of_returns {n : Nat} {m : Machine}
    (hm : (Machine.start program s.store).run settings n = (m, none)) {v : Value} {κ : StmtCont}
    (hr : m.Returns v κ) : ∃ r k rest, m.focus.waiting = (r, k) :: rest := by
  have hne := hr.waiting_ne_nil (hs.mayReturn hc hm)
  obtain ⟨⟨r, k⟩, rest, hw⟩ := List.exists_cons_of_ne_nil hne
  exact ⟨r, k, rest, hr.waiting.trans hw⟩

theorem Reached.completed {n : Nat} {m : Machine}
    (hm : (Machine.start program s.store).run settings n = (m, none)) {v : Value} {κ : StmtCont}
    (hfocus : m.focus = .complete (.returned v) κ) :
    ∃ i q κ' w k j l, (Machine.start program s.store).run settings i = (q, none) ∧
      q.Returns v κ' ∧ q.EndsCall settings v w k j ∧ l < j ∧ n = i + (l + 1) := by
  induction n generalizing m κ with
  | zero =>
    cases hm
    cases hfocus
  | succ n ih =>
    obtain ⟨q₀, hq₀, hstep⟩ := Machine.run_succ_eq_none.1 hm
    rcases (Machine.moves_step hstep).returned v κ hfocus with hr | ⟨κ', hfocus', -⟩
    · obtain ⟨r, k, rest, hw⟩ := hs.waiting_of_returns hc hq₀ hr
      obtain ⟨w, j, hends, -⟩ := hs.endsCall hc hq₀ hr hw
      exact ⟨n, q₀, κ, w, k, j + 1, 0, hq₀, hr, hends, Nat.succ_pos j, rfl⟩
    · obtain ⟨i, q, κ₀, w, k, j, l, hq, hr, hends, hl, rfl⟩ := ih hq₀ hfocus'
      refine ⟨i, q, κ₀, w, k, j, l + 1, hq, hr, hends, Nat.lt_of_le_of_ne hl ?_, rfl⟩
      -- The call would have been answered by now.
      rintro rfl
      have hm' := (Machine.run_add hq (l + 1 + 1)).symm.trans hm
      cases hends.answers.symm.trans hm'
      cases hfocus

end Session

/-- In every state of every run of a session, returns end the calls in whose bodies they stand. -/
theorem Session.Reached.returns_endCalls {settings : Settings} {sources : List String}
    {past : List Machine} {s : Session} (hs : s.Reached settings sources past) {source : String}
    {program : List RStmt} (hc : compile source = .ok program) {n : Nat} {m : Machine}
    (hm : (Machine.start program s.store).run settings n = (m, none)) :
    ReturnsEndCalls settings (past ++ (Machine.start program s.store).passed settings n)
      (.start program s.store) n m where
  outermost := by
    rintro (_ | v) hfocus
    · rfl
    · have hl := hs.mayReturn hc hm
      rw [hfocus] at hl
      obtain ⟨⟨line, e, hreturn⟩, -⟩ := hl
      exact absurd rfl (Machine.waiting_ne_nil hreturn)
  completed := fun v κ => hs.completed hc hm
  within := by
    intro v κ hr
    obtain ⟨r, k, rest, hw⟩ := hs.waiting_of_returns hc hm hr
    obtain ⟨i, q, f, args, hq, hlt, hstarts, rfl, hbetween⟩ :=
      Machine.begun_of_waiting hm (hw.trans (List.nil_append _).symm)
    refine ⟨i, q, f, args, r, k, hstarts, hq, hlt, hm, fun l q' hil hln hl => ?_, ?_⟩
    · rw [Machine.depth_eq_waiting hq, Machine.depth_eq_waiting hl]
      exact hbetween l q' hil hln hl
    · rw [Machine.depth_eq_waiting hq, Machine.depth_eq_waiting hm, hw]
      rfl
  ends := by
    rintro i q f args r k hstarts ⟨hq, hlt, -, hbetween, hinnermost⟩ v κ hr
    obtain ⟨d, hd⟩ := Nat.exists_eq_add_of_lt hlt
    obtain ⟨top, htop⟩ := Machine.waiting_of_starts hq hstarts (n := n)
      (fun l q' hil hln hl => by
        rw [← Machine.depth_eq_waiting hq, ← Machine.depth_eq_waiting hl]
        exact hbetween l q' hil hln hl) hd hm
    rw [Machine.depth_eq_waiting hq, Machine.depth_eq_waiting hm, htop] at hinnermost
    obtain rfl : top = [] := by
      simp only [List.length_append, List.length_cons] at hinnermost
      exact List.length_eq_zero_iff.1 (by omega)
    obtain ⟨w, j, hends, hw⟩ := hs.endsCall hc hm hr htop
    have hmem := List.mem_append_right past (Machine.mem_passed hq hlt hm)
    exact ⟨w, j + 1, hends, (hs.traced hc hm).chronicle.answersReturn rfl hmem hstarts hw⟩

/-- A return in a loop in the body of a function. -/
theorem Session.returns_endCalls_in_loop :
    ∃ (program : List RStmt) (m : Machine) (κ : StmtCont),
      compile "fun f() { while (true) { return true; f(); } } f();" = .ok program ∧
      (Machine.start program .initial).run {} 15 = (m, none) ∧ m.Returns (.bool true) κ ∧
      ReturnsEndCalls {} ((Machine.start program .initial).passed {} 15)
        (.start program .initial) 15 m := by
  have hc : compile "fun f() { while (true) { return true; f(); } } f();" = .ok
      [.function ⟨"f", 1⟩ (.mk [] [.loop (.literal (.bool true)) (.block
          [.ret 1 (some (.literal (.bool true))),
            .expression (.call (.var ⟨"f", 1⟩ none) 1 [])])]),
        .expression (.call (.var ⟨"f", 1⟩ none) 1 [])] := by cbv
  exact ⟨_, _, _, hc, rfl, .value rfl,
    Session.Reached.returns_endCalls (.fresh {}) hc (n := 15) rfl⟩

end LoxScript
