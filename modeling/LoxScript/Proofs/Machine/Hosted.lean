import LoxScript.Machine.Host
import LoxScript.Proofs.Machine.Depth

/-!
Runs on a host.

As long as there is room on the stack, a host takes the steps of the language, so every state that
it gets to is one of a run by the rules.  A host with enough room runs a program as the rules have
it.
-/

namespace LoxScript

namespace Machine

section
variable {settings : Settings} {m : Machine} {t : Token}

theorem begins?_eq_some {callee : Value} {count line : Nat} :
    m.begins? settings callee count line = some t ↔
      (∃ c, callee.callable? = some c ∧ count = c.arity) ∧ m.depth < settings.maxCallDepth ∧
        t = ⟨.symbol .rightParen, line⟩ := by
  unfold begins?
  cases callee.callable? with
  | none => simp
  | some c => simp [and_assoc, eq_comm]

/-- A step begins a call if everything is there for one, and the limit allows it. -/
theorem callBegun?_eq_some : m.callBegun? settings = some t ↔ ∃ callee arguments line k,
    m.Attempts callee arguments line k ∧ m.depth < settings.maxCallDepth ∧
      t = ⟨.symbol .rightParen, line⟩ := by
  constructor
  · intro h
    unfold callBegun? at h
    split at h
    · rename_i callee line env k hf
      obtain ⟨⟨c, hc, harity⟩, hdepth, ht⟩ := begins?_eq_some.1 h
      exact ⟨c, [], line, k, ⟨⟨callee, .bare hf, hc⟩, harity⟩, hdepth, ht⟩
    · rename_i v line callee earlier env k hf
      obtain ⟨⟨c, hc, harity⟩, hdepth, ht⟩ := begins?_eq_some.1 h
      exact ⟨c, (v :: earlier).reverse, line, k,
        ⟨⟨callee, .applied hf, hc⟩, List.length_reverse.trans harity⟩, hdepth, ht⟩
    · cases h
  · rintro ⟨c, arguments, line, k, ⟨⟨callee, hcalls, hc⟩, harity⟩, hdepth, rfl⟩
    unfold callBegun?
    cases hcalls with
    | bare hf =>
      rw [hf]
      exact begins?_eq_some.2 ⟨⟨c, hc, harity⟩, hdepth, rfl⟩
    | applied hf =>
      rw [hf]
      exact begins?_eq_some.2 ⟨⟨c, hc, List.length_reverse.symm.trans harity⟩, hdepth, rfl⟩

end

end Machine

namespace Hosted
variable {host : Host} {settings : Settings} {first : Machine} {h h' : Hosted}

/-! ### One step -/

theorem step_of_room (hroom : h.HasRoom host settings first) :
    h.step host settings first = match h.machine.step settings with
      | .next m => .next ⟨m, h.taken + 1,
          parensAfter h.machine.depth m.depth (h.calls settings) h.parens⟩
      | .stop m e => .stop ⟨m, h.taken, h.parens⟩ e := by
  unfold step
  exact if_pos hroom

theorem step_of_no_room (hroom : ¬ h.HasRoom host settings first) :
    h.step host settings first = .stop h (h.exhaustion host settings first) := by
  unfold step
  exact if_neg hroom

theorem step_eq_next : h.step host settings first = .next h' ↔ h.HasRoom host settings first ∧
    ∃ m, h.machine.step settings = .next m ∧ h' = ⟨m, h.taken + 1,
      parensAfter h.machine.depth m.depth (h.calls settings) h.parens⟩ := by
  by_cases hroom : h.HasRoom host settings first
  · rw [step_of_room hroom]
    cases h.machine.step settings with
    | next m => simp [hroom, eq_comm]
    | stop m e => simp
  · rw [step_of_no_room hroom]
    simp [hroom]

/-- A step that a host takes is one of the language. -/
theorem machine_step (hs : h.step host settings first = .next h') :
    h.machine.step settings = .next h'.machine := by
  obtain ⟨-, m, hm, rfl⟩ := step_eq_next.1 hs
  exact hm

theorem step_eq_stop {e : Ending} : h.step host settings first = .stop h' e ↔ h' = h ∧
    (h.HasRoom host settings first ∧ h.machine.step settings = .stop h.machine e ∨
      ¬ h.HasRoom host settings first ∧ e = h.exhaustion host settings first) := by
  by_cases hroom : h.HasRoom host settings first
  · rw [step_of_room hroom]
    cases hs : h.machine.step settings with
    | next m => simp [hroom]
    | stop m e' =>
      obtain rfl := Machine.eq_of_stop hs
      constructor
      · rintro ⟨⟩
        exact ⟨rfl, .inl ⟨hroom, rfl⟩⟩
      · rintro ⟨rfl, ⟨-, ⟨⟩⟩ | ⟨hno, -⟩⟩
        · rfl
        · exact absurd hroom hno
  · rw [step_of_no_room hroom]
    simp [hroom, eq_comm]

theorem exhaustion_eq_failed {t : Token} :
    h.exhaustion host settings first = .failed ⟨.stackOverflow, t⟩ ↔
      h.failing? host settings first = some t := by
  unfold exhaustion
  cases h.failing? host settings first <;> simp

theorem exhaustion_eq_broken {f : HostFault} :
    h.exhaustion host settings first = .broken f ↔
      f = .stackExhausted ∧ h.failing? host settings first = none := by
  unfold exhaustion
  cases h.failing? host settings first <;> simp [eq_comm]

theorem calls_of_attempts {callee : Callable} {arguments : List Value} {line : Nat} {k : ValueCont}
    (ha : h.machine.Attempts callee arguments line k)
    (hdepth : h.machine.depth < settings.maxCallDepth) :
    h.calls settings = ⟨.symbol .rightParen, line⟩ :: h.parens := by
  rw [calls, Machine.callBegun?_eq_some.2 ⟨callee, arguments, line, k, ha, hdepth, rfl⟩]
  rfl

/-! ### Runs -/

theorem run_of_next (hs : h.step host settings first = .next h') (n : Nat) :
    h.run host settings first (n + 1) = h'.run host settings first n := by
  rw [run, hs]

theorem run_of_stop {e : Ending} (hs : h.step host settings first = .stop h' e) (n : Nat) :
    h.run host settings first (n + 1) = (h', some e) := by
  rw [run, hs]

/-- What every step keeps is kept by a run. -/
theorem run_keeps {P : Hosted → Prop}
    (hstep : ∀ h h', P h → h.step host settings first = .next h' → P h') {n : Nat}
    {o : Option Ending} (hp : P h) (hr : h.run host settings first n = (h', o)) : P h' := by
  induction n generalizing h with
  | zero =>
    cases hr
    exact hp
  | succ n ih =>
    cases hs : h.step host settings first with
    | next q =>
      rw [run_of_next hs] at hr
      exact ih (hstep h q hp hs) hr
    | stop q e =>
      rw [run_of_stop hs] at hr
      cases hr
      rw [(step_eq_stop.1 hs).1]
      exact hp

/-- What every step of the language keeps is kept on a host. -/
theorem run_keeps_machine {P : Machine → Prop}
    (hstep : ∀ m m', P m → m.step settings = .next m' → P m') {n : Nat} {o : Option Ending}
    (hp : P h.machine) (hr : h.run host settings first n = (h', o)) : P h'.machine :=
  run_keeps (P := fun q => P q.machine) (fun _ _ hq hs => hstep _ _ hq (machine_step hs))
    hp hr

/-- What has been printed stays, and comes first. -/
theorem output_run {n : Nat} {o : Option Ending} (hr : h.run host settings first n = (h', o)) :
    ∃ printed, h'.machine.output = h.machine.output ++ printed := by
  refine run_keeps_machine (P := fun q => ∃ printed, q.output = h.machine.output ++ printed) ?_
    ⟨"", String.append_empty.symm⟩ hr
  rintro m m' ⟨before, hbefore⟩ hs
  obtain ⟨printed, hprinted⟩ := Machine.output_of_next hs
  exact ⟨before ++ printed, by rw [hprinted, hbefore, String.append_assoc]⟩

/-- A run that is over has stopped in a state that it got to. -/
theorem run_eq_some {n : Nat} {e : Ending} (hr : h.run host settings first n = (h', some e)) :
    ∃ i, h.run host settings first i = (h', none) ∧ h'.step host settings first = .stop h' e := by
  induction n generalizing h with
  | zero => cases hr
  | succ n ih =>
    cases hs : h.step host settings first with
    | next q =>
      rw [run_of_next hs] at hr
      obtain ⟨i, hi, hstop⟩ := ih hr
      exact ⟨i + 1, (run_of_next hs i).trans hi, hstop⟩
    | stop q e' =>
      rw [run_of_stop hs] at hr
      cases hr
      obtain rfl := (step_eq_stop.1 hs).1
      exact ⟨0, rfl, hs⟩

/-- A run that has begun does not end because the limit is too high. -/
theorem run_ne_limitTooHigh {n : Nat} :
    h.run host settings first n ≠ (h', some (.broken .limitTooHigh)) := by
  intro hr
  obtain ⟨i, -, hstop⟩ := run_eq_some hr
  obtain ⟨-, ⟨-, hs⟩ | ⟨-, he⟩⟩ := step_eq_stop.1 hstop
  · exact Machine.step_ne_broken _ hs
  · cases (exhaustion_eq_broken.1 he.symm).1

/-- A host gets to no state that a run by the rules does not get to. -/
theorem machine_run {n : Nat} (hr : h.run host settings first n = (h', none)) :
    h.machine.run settings n = (h'.machine, none) := by
  induction n generalizing h with
  | zero =>
    cases hr
    rfl
  | succ n ih =>
    cases hs : h.step host settings first with
    | next q =>
      rw [run_of_next hs] at hr
      rw [Machine.run_of_next (machine_step hs), ih hr]
    | stop q e =>
      rw [run_of_stop hs] at hr
      cases hr

/-- A host that has room for every step runs a program as the rules have it. -/
theorem run_of_room {n : Nat} (hroom : ∀ i < n, ∀ q, h.run host settings first i = (q, none) →
      q.HasRoom host settings first) :
    h.machine.run settings n =
      ((h.run host settings first n).1.machine, (h.run host settings first n).2) := by
  induction n generalizing h with
  | zero => rfl
  | succ n ih =>
    have hfirst := hroom 0 n.succ_pos h rfl
    cases hs : h.step host settings first with
    | next q =>
      rw [run_of_next hs, Machine.run_of_next (machine_step hs)]
      refine ih fun i hi r hr => hroom (i + 1) (Nat.succ_lt_succ hi) r ?_
      rw [run_of_next hs, hr]
    | stop q e =>
      obtain ⟨rfl, ⟨-, hstop⟩ | ⟨hno, -⟩⟩ := step_eq_stop.1 hs
      · rw [run_of_stop hs, Machine.run_of_stop hstop]
      · exact absurd hfirst hno

end Hosted

namespace Host

theorem raisedLimit_mono (host : Host) {maxCallDepth limit : Nat} (h : maxCallDepth ≤ limit) :
    host.raisedLimit maxCallDepth ≤ host.raisedLimit limit := by
  unfold raisedLimit callRoom
  omega

variable {host : Host} {settings : Settings}

theorem run_of_canRaise (h : host.CanRaise settings.maxCallDepth) (n : Nat) (m : Machine) :
    host.run settings n m = (((Hosted.start m).run host settings m n).1.machine,
      ((Hosted.start m).run host settings m n).2) := by
  rw [run, if_pos h]

theorem hosted_of_run (h : host.CanRaise settings.maxCallDepth) {n : Nat} {m m' : Machine}
    {o : Option Ending} (hr : host.run settings n m = (m', o)) :
    ∃ q, (Hosted.start m).run host settings m n = (q, o) ∧ q.machine = m' := by
  rw [run_of_canRaise h] at hr
  cases hr
  exact ⟨_, rfl, rfl⟩

theorem run_of_not_canRaise (h : ¬ host.CanRaise settings.maxCallDepth) (n : Nat) (m : Machine) :
    host.run settings n m = (m, some (.broken .limitTooHigh)) := by
  rw [run, if_neg h]

/-- What every step of the language keeps is kept by a host. -/
theorem run_keeps {P : Machine → Prop}
    (hstep : ∀ m m', P m → m.step settings = .next m' → P m') {m : Machine} (hp : P m) (n : Nat) :
    P (host.run settings n m).1 := by
  by_cases h : host.CanRaise settings.maxCallDepth
  · rw [run_of_canRaise h]
    exact Hosted.run_keeps_machine hstep hp rfl
  · rw [run_of_not_canRaise h]
    exact hp

end Host

namespace Session

section
variable {host : Host} {source : String} (settings : Settings) (n : Nat) (s : Session)

theorem runOn_of_canRead (h : host.CanRead source) :
    s.runOn host settings n source = s.runWith (host.run settings n) source :=
  if_pos h

theorem runOn_of_not_canRead (h : ¬ host.CanRead source) : s.runOn host settings n source =
    (.ofJournals (.ended (.broken .stackExhausted)) "" s.page s.page,
      { s with journal := s.page }) :=
  if_neg h

variable (hread : host.CanRead source)
include hread

theorem runOn_of_error {notes : List Diagnostic} (h : compile source = .error notes) :
    s.runOn host settings n source = (.ofJournals .refused "" s.page (s.page.reportAll notes),
      { s with journal := s.page.reportAll notes }) := by
  rw [runOn_of_canRead settings n s hread, runWith_of_error _ _ h]

theorem runOn_of_ok {program : List RStmt} (h : compile source = .ok program) :
    s.runOn host settings n source = conclude s.page (host.run settings n (s.begin program)).1
      (host.run settings n (s.begin program)).2 := by
  rw [runOn_of_canRead settings n s hread, runWith_of_ok _ _ h]

end

section
variable (host : Host) (settings : Settings) (n : Nat) (s : Session) (source : String)

/-- A text that can be read is refused if there is something wrong with it. -/
theorem verdict_refused_iff : (s.runOn host settings n source).1.verdict = .refused ↔
    host.CanRead source ∧ check source ≠ [] := by
  by_cases hread : host.CanRead source
  · rw [and_iff_right hread]
    cases hc : compile source with
    | error notes =>
      rw [runOn_of_error _ _ _ hread hc, check_of_error hc]
      exact ⟨fun _ => (notes_of_error hc).1, fun _ => rfl⟩
    | ok program =>
      rw [runOn_of_ok _ _ _ hread hc, check_of_ok hc]
      exact ⟨fun h => absurd h verdict_conclude_ne_refused, fun h => absurd rfl h⟩
  · rw [runOn_of_not_canRead _ _ _ hread]
    exact ⟨nofun, fun h => absurd h.1 hread⟩

/-- The limit is too high for every text that is about to run, or for none. -/
theorem verdict_limitTooHigh_iff :
    (s.runOn host settings n source).1.verdict = .ended (.broken .limitTooHigh) ↔
      host.CanRead source ∧ check source = [] ∧ ¬ host.CanRaise settings.maxCallDepth := by
  by_cases hread : host.CanRead source
  · rw [and_iff_right hread]
    cases hc : compile source with
    | error notes =>
      rw [runOn_of_error _ _ _ hread hc, check_of_error hc]
      exact ⟨nofun, fun h => absurd h.1 (notes_of_error hc).1⟩
    | ok program =>
      rw [runOn_of_ok _ _ _ hread hc, check_of_ok hc, eq_self, true_and,
        verdict_conclude_eq_ended]
      by_cases hraise : host.CanRaise settings.maxCallDepth
      · rw [Host.run_of_canRaise hraise]
        exact ⟨fun h => (Hosted.run_ne_limitTooHigh (Prod.ext rfl h)).elim,
          fun h => absurd hraise h⟩
      · rw [Host.run_of_not_canRaise hraise]
        exact ⟨fun _ => hraise, fun _ => rfl⟩
  · rw [runOn_of_not_canRead _ _ _ hread]
    exact ⟨nofun, fun h => absurd h.1 hread⟩

end

/-- There is room on the host for all that a text needs. -/
structure FitsHost (host : Host) (settings : Settings) (n : Nat) (s : Session) (source : String) :
    Prop where
  canRead : host.CanRead source
  canRaise : host.CanRaise settings.maxCallDepth
  hasRoom : ∀ running, s.read source = .ok running → ∀ i < n, ∀ h,
    (Hosted.start running.machine).run host settings running.machine i = (h, none) →
      h.HasRoom host settings running.machine

/-- A text that fits the host runs by the rules of the language. -/
theorem FitsHost.runOn_eq {host : Host} {settings : Settings} {n : Nat} {s : Session}
    {source : String} (h : s.FitsHost host settings n source) :
    s.runOn host settings n source = s.run settings n source := by
  rw [runOn_of_canRead settings n s h.canRead]
  unfold run runWith
  cases hread : s.read source with
  | error refusal => rfl
  | ok running =>
    dsimp only
    rw [Host.run_of_canRaise h.canRaise, ← Hosted.run_of_room (h.hasRoom running hread)]
    rfl

/-- No call is in progress after a text if none was before it, also if a host ran it. -/
theorem depth_runOn {s t : Session} (h : s.depth = 0) {host : Host} {settings : Settings} {n : Nat}
    {source : String} {r : Report} (hr : s.runOn host settings n source = (r, t)) :
    t.depth = 0 := by
  by_cases hread : host.CanRead source
  · rw [runOn_of_canRead settings n s hread] at hr
    exact depth_runWith (fun _ hm => Host.run_keeps (fun _ _ hq hs => hq.step hs) hm n) h hr
  · rw [runOn_of_not_canRead settings n s hread] at hr
    cases hr
    exact h

end Session
end LoxScript
