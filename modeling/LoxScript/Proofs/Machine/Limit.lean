import Mathlib
import LoxScript.Proofs.Machine.Hosted

/-!
The limit on nested calls.

By the rules of the language the limit is looked at in one place, when a call is about to begin and
everything else about it is in order.  On a host the room on the stack depends on it as well: the
higher it is, the more room there is, up to the limit that the host cannot give its stack any more.
So two runs that differ in the limit only go on alike until the lower limit stops one of them, and
what that one has printed by then the other has printed too, unless the other cannot begin at all.
-/

namespace LoxScript

/-- The same with another limit on nested calls. -/
def Settings.limitedTo (settings : Settings) (limit : Nat) : Settings :=
  { settings with maxCallDepth := limit }

/-- The run has ended because it went too deep. -/
def Ending.IsOverflow (e : Ending) : Prop := ∃ t, e = .failed ⟨.stackOverflow, t⟩

namespace Machine

/-! ### One step -/

section
variable (settings : Settings) {m : Machine}

theorem step_of_callsWith {callee : Value} {arguments : List Value} {line : Nat} {k : ValueCont}
    (h : m.CallsWith callee arguments line k) :
    m.step settings = m.calling settings callee arguments line k := by
  unfold step
  cases h with
  | bare hf => rw [hf]; rfl
  | applied hf => rw [hf]; rfl

/-- A call for which everything is in order depends on the limit. -/
theorem step_of_attempts {callee : Callable} {arguments : List Value} {line : Nat} {k : ValueCont}
    (h : m.Attempts callee arguments line k) :
    m.step settings = if settings.maxCallDepth ≤ m.depth
      then m.failing .stackOverflow ⟨.symbol .rightParen, line⟩
      else m.invoking settings callee arguments k := by
  obtain ⟨⟨v, hcalls, hcallable⟩, harity⟩ := h
  rw [step_of_callsWith settings hcalls, calling, hcallable]
  exact if_neg (not_not_intro harity)

theorem calling_limitedTo (limit : Nat) {callee : Value} {arguments : List Value} {line : Nat}
    {k : ValueCont} (hcalls : m.CallsWith callee arguments line k)
    (h : ∀ c, ¬ m.Attempts c arguments line k) :
    m.calling (settings.limitedTo limit) callee arguments line k =
      m.calling settings callee arguments line k := by
  unfold calling
  split
  · rfl
  · rename_i c hc
    have harity : arguments.length ≠ c.arity := fun ha => h c ⟨⟨callee, hcalls, hc⟩, ha⟩
    rw [if_pos harity, if_pos harity]

/-- Nothing else does. -/
theorem step_limitedTo_of_not_attempts (limit : Nat)
    (h : ∀ callee arguments line k, ¬ m.Attempts callee arguments line k) :
    m.step (settings.limitedTo limit) = m.step settings := by
  unfold step
  split
  · rfl
  · -- A call begins when the last argument is there, or the callee if there are no arguments.
    rename_i v k hf
    cases k with
    | callee line es env k =>
      cases es with
      | nil => exact calling_limitedTo settings limit (.bare hf) fun c => h c _ _ _
      | cons e es => rfl
    | argument line callee before es env k =>
      cases es with
      | nil => exact calling_limitedTo settings limit (.applied hf) fun c => h c _ _ _
      | cons e es => rfl
    | _ => rfl
  · rfl
  · rfl

end

section
variable {settings : Settings} {m : Machine} (h : ∀ t, m.step settings ≠ m.failing .stackOverflow t)
include h

theorem depth_lt_of_attempts {callee : Callable} {arguments : List Value} {line : Nat}
    {k : ValueCont} (ha : m.Attempts callee arguments line k) : m.depth < settings.maxCallDepth := by
  refine Nat.lt_of_not_le fun hd => h ⟨.symbol .rightParen, line⟩ ?_
  rw [step_of_attempts settings ha, if_pos hd]

variable {limit : Nat} (hlimit : settings.maxCallDepth ≤ limit)
include hlimit

/-- A step that does not go too deep is taken under a higher limit as well. -/
theorem step_limitedTo : m.step (settings.limitedTo limit) = m.step settings := by
  by_cases hattempts : ∃ callee arguments line k, m.Attempts callee arguments line k
  · obtain ⟨callee, arguments, line, k, hattempts⟩ := hattempts
    have hdepth := depth_lt_of_attempts h hattempts
    have hdepth' : m.depth < (settings.limitedTo limit).maxCallDepth :=
      Nat.lt_of_lt_of_le hdepth hlimit
    rw [step_of_attempts _ hattempts, step_of_attempts _ hattempts,
      if_neg (Nat.not_le_of_lt hdepth), if_neg (Nat.not_le_of_lt hdepth')]
    rfl
  · exact step_limitedTo_of_not_attempts settings limit
      fun callee arguments line k ha => hattempts ⟨callee, arguments, line, k, ha⟩

theorem callBegun?_limitedTo :
    m.callBegun? (settings.limitedTo limit) = m.callBegun? settings := by
  refine Option.ext fun t => ?_
  rw [callBegun?_eq_some, callBegun?_eq_some]
  constructor
  · rintro ⟨callee, arguments, line, k, ha, -, ht⟩
    exact ⟨callee, arguments, line, k, ha, depth_lt_of_attempts h ha, ht⟩
  · rintro ⟨callee, arguments, line, k, ha, hdepth, ht⟩
    exact ⟨callee, arguments, line, k, ha, Nat.lt_of_lt_of_le hdepth hlimit, ht⟩

end

/-- A call that is allowed begins, unless it is over at once. -/
theorem calls_of_attempts {settings : Settings} {m : Machine} {callee : Callable}
    {arguments : List Value} {line : Nat} {k : ValueCont} (h : m.Attempts callee arguments line k)
    (hdepth : m.depth < settings.maxCallDepth) :
    ∃ m', m.step settings = .next m' ∧
      m'.focus.calls = m.focus.calls + callee.body?.elim 0 fun _ => 1 := by
  rw [step_of_attempts settings h, if_neg (Nat.not_le_of_lt hdepth)]
  obtain ⟨⟨v, hcalls, -⟩, -⟩ := h
  have hk : k.calls = m.focus.calls := by
    cases hcalls with
    | bare hf => rw [hf]; rfl
    | applied hf => rw [hf]; rfl
  cases callee with
  | native f => exact ⟨_, rfl, hk⟩
  | function f => exact ⟨_, rfl, congrArg (· + 1) hk⟩
  | «class» c =>
    simp only [invoking, Callable.body?, make_eq]
    cases c.initializer? with
    | none => exact ⟨_, rfl, hk⟩
    | some f => exact ⟨_, rfl, congrArg (· + 1) hk⟩

/-! ### Runs -/

/-- The limit is kept, and a run goes too deep exactly where a call that is in order would be one
more than the limit allows.  A call that is allowed is one more call in progress, be it of a
function or of a class with an initialiser, unless there is no body to run. -/
structure KeepsLimit (settings : Settings) (m : Machine) : Prop where
  depth_eq : m.depth = m.focus.calls
  calls_le : m.focus.calls ≤ settings.maxCallDepth
  overflows_iff : ∀ m' t, m.step settings = .stop m' (.failed ⟨.stackOverflow, t⟩) ↔
    m' = m ∧ m.focus.calls = settings.maxCallDepth ∧
      ∃ callee arguments line k, m.Attempts callee arguments line k ∧
        t = ⟨.symbol .rightParen, line⟩
  begins : ∀ callee arguments line k, m.Attempts callee arguments line k →
    m.focus.calls < settings.maxCallDepth → ∃ m', m.step settings = .next m' ∧
      m'.focus.calls = m.focus.calls + callee.body?.elim 0 fun _ => 1
  begun : ∀ m', m.step settings = .next m' → m.focus.calls < m'.focus.calls →
    ∃ callee arguments line k, m.Attempts callee arguments line k

/-- No more calls are in progress than the limit allows, and they are counted. -/
def Within (settings : Settings) (m : Machine) : Prop :=
  m.Counted ∧ m.depth ≤ settings.maxCallDepth

theorem Within.step {settings : Settings} {m m' : Machine} (h : m.Within settings)
    (hs : m.step settings = .next m') : m'.Within settings := by
  refine ⟨h.1.step hs, ?_⟩
  have hle := h.2
  have hp := m.proceeds_step settings
  rw [hs] at hp
  cases hp with
  | on printed hd => omega
  | begins _ hlt hd => omega
  | answers hd => omega

theorem Within.keepsLimit {settings : Settings} {m : Machine} (h : m.Within settings) :
    m.KeepsLimit settings := by
  obtain ⟨hcounted, hle⟩ := h
  have hcalls : m.depth = m.focus.calls := hcounted
  have hproceeds := m.proceeds_step settings
  exact
    { depth_eq := hcalls
      calls_le := hcalls ▸ hle
      overflows_iff := by
        intro m' t
        constructor
        · intro hs
          rw [hs] at hproceeds
          cases hproceeds with
          | overflows ha hd => exact ⟨rfl, hcalls ▸ Nat.le_antisymm hle hd, _, _, _, _, ha, rfl⟩
          | stops hne => exact absurd rfl (hne t)
        · rintro ⟨rfl, heq, callee, arguments, line, k, ha, rfl⟩
          rw [step_of_attempts settings ha, if_pos (by omega)]
          rfl
      begins := fun callee arguments line k ha hlt => calls_of_attempts ha (hcalls ▸ hlt)
      begun := by
        intro m' hs hlt
        rw [hs] at hproceeds
        cases hproceeds with
        | on printed _ hc => omega
        | begins ha => exact ⟨_, _, _, _, ha⟩
        | answers _ hc => omega }

end Machine

namespace Hosted
variable {host : Host} {settings : Settings} {first : Machine} {h h' : Hosted}

/-! ### What is kept on a host -/

/-- The limit is kept on a host, and the calls in progress have their parentheses.  If there is room,
a call that is allowed begins.  A run goes too deep for one more reason than the limit: there is no
room, and a call in progress fails for that.  If there is none to fail, the run breaks off. -/
structure KeepsLimit (host : Host) (settings : Settings) (first : Machine) (h : Hosted) : Prop where
  machine : h.machine.KeepsLimit settings
  parens_length : h.parens.length = h.machine.focus.calls
  begins : h.HasRoom host settings first → ∀ callee arguments line k,
    h.machine.Attempts callee arguments line k →
    h.machine.focus.calls < settings.maxCallDepth →
    ∃ h', h.step host settings first = .next h' ∧
      h'.machine.focus.calls = h.machine.focus.calls + callee.body?.elim 0 (fun _ => 1) ∧
      h'.parens = callee.body?.elim h.parens fun _ => ⟨.symbol .rightParen, line⟩ :: h.parens
  overflows_iff : ∀ h' t, h.step host settings first = .stop h' (.failed ⟨.stackOverflow, t⟩) ↔
    h' = h ∧
      ((h.HasRoom host settings first ∧ h.machine.focus.calls = settings.maxCallDepth ∧
        ∃ callee arguments line k, h.machine.Attempts callee arguments line k ∧
          t = ⟨.symbol .rightParen, line⟩) ∨
      ¬ h.HasRoom host settings first ∧ h.failing? host settings first = some t)
  breaks_iff : ∀ h' f, h.step host settings first = .stop h' (.broken f) ↔
    h' = h ∧ f = .stackExhausted ∧
      ¬ h.HasRoom host settings first ∧ h.failing? host settings first = none

/-- The limit is kept, and the parentheses are those of the calls in progress. -/
def Within (settings : Settings) (h : Hosted) : Prop :=
  h.machine.Within settings ∧ h.parens.length = h.machine.depth

theorem Within.step (hw : h.Within settings) (hs : h.step host settings first = .next h') :
    h'.Within settings := by
  obtain ⟨-, m, hmachine, rfl⟩ := step_eq_next.1 hs
  refine ⟨hw.1.step hmachine, ?_⟩
  have hlength := hw.2
  have hproceeds := h.machine.proceeds_step settings
  rw [hmachine] at hproceeds
  rw [parensAfter]
  cases hproceeds with
  | on printed hd => simp [hd, hlength]
  | begins ha hlt hd => simp [hd, calls_of_attempts ha hlt, hlength]
  | answers hd hc =>
    have hcounted : h.machine.depth = h.machine.focus.calls := hw.1.1
    rw [if_neg (by omega), if_pos (by omega), List.length_tail, hlength, hd]

theorem Within.keepsLimit (hw : h.Within settings) : h.KeepsLimit host settings first := by
  have hmachine := hw.1.keepsLimit
  exact
    { machine := hmachine
      parens_length := hw.2.trans hmachine.depth_eq
      begins := by
        intro hroom callee arguments line k ha hlt
        obtain ⟨m, hs, hcalls⟩ := hmachine.begins callee arguments line k ha hlt
        have hcounted := hmachine.depth_eq
        have hcounted' : m.depth = m.focus.calls := hw.1.1.step hs
        refine ⟨_, step_eq_next.2 ⟨hroom, m, hs, rfl⟩, hcalls, ?_⟩
        show parensAfter _ _ _ _ = _
        rw [parensAfter, calls_of_attempts ha (hcounted ▸ hlt), hcounted', hcalls, hcounted]
        cases callee.body? <;> simp
      overflows_iff := by
        intro h' t
        rw [step_eq_stop, eq_comm (b := h.exhaustion host settings first), exhaustion_eq_failed,
          hmachine.overflows_iff]
        simp
      breaks_iff := by
        intro h' f
        rw [step_eq_stop, eq_comm (b := h.exhaustion host settings first), exhaustion_eq_broken]
        simp [Machine.step_ne_broken, and_left_comm] }

/-! ### A higher limit -/

section
variable {limit : Nat} (hlimit : settings.maxCallDepth ≤ limit)
include hlimit

/-- There is no less room under a higher limit. -/
theorem HasRoom.limitedTo (hroom : h.HasRoom host settings first) :
    h.HasRoom host (settings.limitedTo limit) first :=
  Nat.le_trans hroom (host.raisedLimit_mono hlimit)

/-- A step that finds room and does not go too deep is taken under a higher limit as well. -/
theorem step_limitedTo (hstop : ∀ h' e, h.step host settings first = .stop h' e →
      ¬ e.IsOverflow ∧ e ≠ .broken .stackExhausted) :
    h.step host (settings.limitedTo limit) first = h.step host settings first := by
  have hroom : h.HasRoom host settings first := by
    by_contra hno
    obtain ⟨hoverflow, hbroken⟩ := hstop h _ (step_of_no_room hno)
    cases hfailing : h.failing? host settings first with
    | none => exact hbroken (exhaustion_eq_broken.2 ⟨rfl, hfailing⟩)
    | some t => exact hoverflow ⟨t, exhaustion_eq_failed.2 hfailing⟩
  have hmachine : ∀ t, h.machine.step settings ≠ h.machine.failing .stackOverflow t := fun t ht =>
    (hstop h _ (step_eq_stop.2 ⟨rfl, .inl ⟨hroom, ht⟩⟩)).1 ⟨t, rfl⟩
  rw [step_of_room hroom, step_of_room (hroom.limitedTo hlimit),
    Machine.step_limitedTo hmachine hlimit, calls, calls,
    Machine.callBegun?_limitedTo hmachine hlimit]

/-- A run that does not go too deep, and does not break off for want of room, is the same under a
higher limit. -/
theorem run_limitedTo {n : Nat} {o : Option Ending}
    (hr : h.run host settings first n = (h', o))
    (ho : ∀ e, o = some e → ¬ e.IsOverflow ∧ e ≠ .broken .stackExhausted) :
    h.run host (settings.limitedTo limit) first n = (h', o) := by
  induction n generalizing h with
  | zero => exact hr
  | succ n ih =>
    have hstep : h.step host (settings.limitedTo limit) first = h.step host settings first := by
      refine step_limitedTo hlimit fun q e hs => ho e ?_
      rw [run_of_stop hs] at hr
      exact (congrArg Prod.snd hr).symm
    cases hs : h.step host settings first with
    | next q =>
      rw [run_of_next hs] at hr
      rw [run_of_next (hstep.trans hs)]
      exact ih hr
    | stop q e =>
      rw [run_of_stop hs] at hr
      rw [run_of_stop (hstep.trans hs)]
      exact hr

/-- What a run prints is printed first under a higher limit. -/
theorem output_limitedTo {n n' : Nat} {h₁ h₂ : Hosted} {e₁ e₂ : Ending}
    (hr₁ : h.run host settings first n = (h₁, some e₁))
    (hr₂ : h.run host (settings.limitedTo limit) first n' = (h₂, some e₂)) :
    ∃ rest, h₂.machine.output = h₁.machine.output ++ rest := by
  induction n generalizing h n' with
  | zero => cases hr₁
  | succ n ih =>
    cases hs : h.step host settings first with
    | stop q e =>
      -- The lower limit may have stopped the run here; the other goes on from the same state.
      rw [run_of_stop hs] at hr₁
      cases hr₁
      rw [(step_eq_stop.1 hs).1]
      exact output_run hr₂
    | next q =>
      rw [run_of_next hs] at hr₁
      have hstep : h.step host (settings.limitedTo limit) first = .next q := by
        rw [step_limitedTo hlimit (fun q' e hq => by rw [hs] at hq; cases hq), hs]
      cases n' with
      | zero => cases hr₂
      | succ n' =>
        rw [run_of_next hstep] at hr₂
        exact ih hr₁ hr₂

end

end Hosted

namespace Host
variable {host : Host} {settings : Settings} {limit : Nat}
  (hlimit : settings.maxCallDepth ≤ limit) {m : Machine}
include hlimit

theorem CanRaise.of_le (h : host.CanRaise limit) : host.CanRaise settings.maxCallDepth :=
  Nat.le_trans (host.raisedLimit_mono hlimit) h

/-- Where the higher limit can be had, or neither of the two, the higher one changes nothing about a
run that the lower one does not stop. -/
theorem run_limitedTo {n : Nat} {m' : Machine} {o : Option Ending}
    (hraise : host.CanRaise limit ∨ ¬ host.CanRaise settings.maxCallDepth)
    (hr : host.run settings n m = (m', o))
    (ho : ∀ e, o = some e → ¬ e.IsOverflow ∧ e ≠ .broken .stackExhausted) :
    host.run (settings.limitedTo limit) n m = (m', o) := by
  rcases hraise with hraise | hraise
  · obtain ⟨q, hq, rfl⟩ := hosted_of_run (CanRaise.of_le hlimit hraise) hr
    have hlimited : host.CanRaise (settings.limitedTo limit).maxCallDepth := hraise
    rw [run_of_canRaise hlimited, Hosted.run_limitedTo hlimit hq ho]
  · rw [run_of_not_canRaise hraise] at hr
    have hlimited : ¬ host.CanRaise (settings.limitedTo limit).maxCallDepth := fun h =>
      hraise (CanRaise.of_le hlimit h)
    rw [run_of_not_canRaise hlimited, hr]

theorem output_limitedTo {n n' : Nat} {m₁ m₂ : Machine} {e₁ e₂ : Ending}
    (hraise : host.CanRaise limit) (h₁ : host.run settings n m = (m₁, some e₁))
    (h₂ : host.run (settings.limitedTo limit) n' m = (m₂, some e₂)) :
    ∃ rest, m₂.output = m₁.output ++ rest := by
  have hlimited : host.CanRaise (settings.limitedTo limit).maxCallDepth := hraise
  obtain ⟨q₁, hq₁, rfl⟩ := hosted_of_run (CanRaise.of_le hlimit hraise) h₁
  obtain ⟨q₂, hq₂, rfl⟩ := hosted_of_run hlimited h₂
  exact Hosted.output_limitedTo hlimit hq₁ hq₂

end Host

namespace Session
variable {host : Host} {settings : Settings} {s : Session} {source : String}

theorem keepsLimit_of_read (hs : s.depth = 0) {running : Running}
    (hread : s.read source = .ok running) {i : Nat} {h : Hosted} {o : Option Ending}
    (hrun : (Hosted.start running.machine).run host settings running.machine i = (h, o)) :
    h.KeepsLimit host settings running.machine := by
  cases hc : compile source with
  | error notes => cases (read_of_error hc s).symm.trans hread
  | ok program =>
    cases (read_of_ok hc s).symm.trans hread
    have hstart : (s.begin program).Within settings := by
      rw [begin_eq hs]
      exact ⟨Machine.counted_start program s.store, Nat.zero_le _⟩
    have hwithin : (Hosted.start (s.begin program)).Within settings := ⟨hstart, hs.symm⟩
    exact (Hosted.run_keeps (fun _ _ h hstep => h.step hstep) hwithin hrun).keepsLimit

section
variable {limit : Nat} (hlimit : settings.maxCallDepth ≤ limit) {n : Nat} {r : Report} {t : Session}
  (hr : s.runOn host settings n source = (r, t))
include hlimit hr

theorem runOn_limitedTo
    (he : ∀ e, r.verdict = .ended e → ¬ e.IsOverflow ∧ e ≠ .broken .stackExhausted)
    (hraise : r.verdict = .refused ∨ host.CanRaise limit ∨
      ¬ host.CanRaise settings.maxCallDepth) :
    s.runOn host (settings.limitedTo limit) n source = (r, t) := by
  by_cases hread : host.CanRead source
  · cases hc : compile source with
    | error notes =>
      rw [runOn_of_error _ _ _ hread hc] at hr ⊢
      exact hr
    | ok program =>
      rw [runOn_of_ok _ _ _ hread hc] at hr ⊢
      cases hr
      have hraise := hraise.resolve_left verdict_conclude_ne_refused
      rw [Host.run_limitedTo hlimit hraise rfl fun e ho => he e (verdict_conclude_eq_ended.2 ho)]
      rfl
  · rw [runOn_of_not_canRead _ _ _ hread] at hr ⊢
    exact hr

theorem output_runOn_limitedTo (hraise : host.CanRaise limit) {e : Ending}
    (he : r.verdict = .ended e) {n' : Nat} {r' : Report} {t' : Session} {e' : Ending}
    (hr' : s.runOn host (settings.limitedTo limit) n' source = (r', t'))
    (he' : r'.verdict = .ended e') : ∃ rest, r'.output = r.output ++ rest := by
  by_cases hread : host.CanRead source
  · cases hc : compile source with
    | error notes =>
      rw [runOn_of_error _ _ _ hread hc] at hr
      cases hr
      cases he
    | ok program =>
      rw [runOn_of_canRead _ _ _ hread] at hr hr'
      obtain ⟨m, hm, houtput, -⟩ := ended_of_runWith hc hr he
      obtain ⟨m', hm', houtput', -⟩ := ended_of_runWith hc hr' he'
      rw [houtput, houtput']
      exact Host.output_limitedTo hlimit hraise hm hm'
  · rw [runOn_of_not_canRead _ _ _ hread] at hr
    cases hr
    exact ⟨r'.output, String.empty_append.symm⟩

end

/-- A limit that cannot be had keeps a program from running. -/
theorem runOn_of_not_canRaise {n : Nat} {r : Report} {t : Session}
    (hr : s.runOn host settings n source = (r, t)) (hread : host.CanRead source)
    (hcheck : check source = []) (hraise : ¬ host.CanRaise settings.maxCallDepth) :
    r.verdict = .ended (.broken .limitTooHigh) ∧ r.output = "" ∧ t.store = s.store := by
  cases hc : compile source with
  | error notes => exact absurd ((check_of_error hc).symm.trans hcheck) (notes_of_error hc).1
  | ok program =>
    rw [runOn_of_ok _ _ _ hread hc, Host.run_of_not_canRaise hraise] at hr
    cases hr
    exact ⟨rfl, rfl, rfl⟩

/-- A higher limit on nested calls changes nothing about a text that the lower one does not stop,
and a text that it stops has printed the beginning of what is printed under the higher one, provided
that the host can give its stack the higher limit.  If it cannot, no program is run.  The limit is
kept all the time, and no call is in progress afterwards, however the text has ended.

The states of a run are those that the rules of the language lead to, but a text may be stopped
before the limit is reached, for want of room on the stack. -/
theorem raising_limit (host : Host) (settings : Settings) {limit : Nat}
    (hlimit : settings.maxCallDepth ≤ limit) {s t : Session} (hs : s.depth = 0) {n : Nat}
    {source : String} {r : Report} (hr : s.runOn host settings n source = (r, t)) :
    ((∀ e, r.verdict = .ended e → ¬ e.IsOverflow ∧ e ≠ .broken .stackExhausted) →
      (r.verdict = .refused ∨ host.CanRaise limit ∨ ¬ host.CanRaise settings.maxCallDepth) →
      s.runOn host (settings.limitedTo limit) n source = (r, t)) ∧
    (host.CanRaise limit → ∀ e, r.verdict = .ended e → ∀ n' r' t' e',
      s.runOn host (settings.limitedTo limit) n' source = (r', t') → r'.verdict = .ended e' →
        ∃ rest, r'.output = r.output ++ rest) ∧
    (¬ host.CanRaise limit → host.CanRead source → check source = [] → ∀ n' r' t',
      s.runOn host (settings.limitedTo limit) n' source = (r', t') →
        r'.verdict = .ended (.broken .limitTooHigh) ∧ r'.output = "" ∧ t'.store = s.store) ∧
    (∀ running, s.read source = .ok running → ∀ i h o,
      (Hosted.start running.machine).run host settings running.machine i = (h, o) →
        (o = none → running.machine.run settings i = (h.machine, none)) ∧
          h.KeepsLimit host settings running.machine) ∧
    t.depth = 0 :=
  ⟨runOn_limitedTo hlimit hr,
    fun hraise _ he _ _ _ _ hr' he' => output_runOn_limitedTo hlimit hr hraise he hr' he',
    fun hraise hread hcheck _ _ _ hr' => runOn_of_not_canRaise hr' hread hcheck hraise,
    fun _ hread _ _ _ hrun => ⟨fun ho => Hosted.machine_run (ho ▸ hrun),
      keepsLimit_of_read hs hread hrun⟩, depth_runOn hs hr⟩

/-- A host on which more is nested, from the fifteenth step on, than fits a limit of one call. -/
def narrowHost : Host := { stackDepth := fun _ taken => if taken < 14 then 0 else 1030 }

/-- The stack runs out in a call although the limit allows the call.  A higher limit makes room for
it, and one that is too high keeps the program from running. -/
theorem raising_limit_to_two :
    ∃ r r' r'' t t' t'', ({} : Session).runOn narrowHost { maxCallDepth := 1 } 40
        "fun f(x) \x7b print x; print x; \x7d f(true);" = (r, t) ∧
      ({} : Session).runOn narrowHost { maxCallDepth := 2 } 40
        "fun f(x) \x7b print x; print x; \x7d f(true);" = (r', t') ∧
      ({} : Session).runOn narrowHost { maxCallDepth := 100000000 } 40
        "fun f(x) \x7b print x; print x; \x7d f(true);" = (r'', t'') ∧
      r.verdict = .ended (.failed ⟨.stackOverflow, .symbol .rightParen, 1⟩) ∧
      r.output = "true\n" ∧ r'.verdict = .ended .finished ∧ r'.output = "true\ntrue\n" ∧
      (∃ rest, r'.output = r.output ++ rest) ∧ r''.verdict = .ended (.broken .limitTooHigh) ∧
      r''.output = "" ∧ t.depth = 0 := by
  have h : compile "fun f(x) \x7b print x; print x; \x7d f(true);" = .ok
      [.function ⟨"f", 1⟩ (.mk [⟨"x", 1⟩]
        [.print (.var ⟨"x", 1⟩ (some 0)), .print (.var ⟨"x", 1⟩ (some 0))]),
        .expression (.call (.var ⟨"f", 1⟩ none) 1 [.literal (.bool true)])] := by cbv
  have hread (source : String) : narrowHost.CanRead source := Nat.zero_le _
  have hr := runOn_of_ok { maxCallDepth := 1 } 40 {} (hread _) h
  have hr' := runOn_of_ok { maxCallDepth := 2 } 40 {} (hread _) h
  have hr'' := runOn_of_ok { maxCallDepth := 100000000 } 40 {} (hread _) h
  obtain ⟨-, houtput, -, -, hdepth⟩ :=
    raising_limit narrowHost { maxCallDepth := 1 } (show 1 ≤ 2 by decide) rfl hr
  obtain ⟨-, -, htooHigh, -, -⟩ :=
    raising_limit narrowHost { maxCallDepth := 1 } (show 1 ≤ 100000000 by decide) rfl hr
  obtain ⟨hverdict, hnothing, -⟩ := htooHigh (by decide) (hread _) (check_of_ok h) _ _ _ hr''
  exact ⟨_, _, _, _, _, _, hr, hr', hr'', rfl, rfl, rfl, rfl,
    houtput (by decide) _ rfl _ _ _ .finished hr' rfl, hverdict, hnothing, hdepth⟩

end Session
end LoxScript
