import LoxScript.Proofs.Command.Configuration
import LoxScript.Proofs.Command.Prompt

/-!
How the command ends.

Arguments that are in order lead to an exit status, unless the command breaks down.  It breaks down
on files and on input that are no text, on a config file that cannot be looked for, on an option that
is given no number, on a limit that the host cannot give its stack, and where that stack runs out.
Nor is there a status if a program cannot go on, of which a line at the prompt is no exception.
-/

namespace LoxScript
namespace Command

/-! ### Scripts -/

/-- The source that a script with the text has. -/
def sourceOf (text : String) : String := String.ofList (Lines.unify text.toList)

/-- What comes of running a script with the text. -/
def reportOf (k : Machinery) (o : Options) (text : String) : Report :=
  (Session.runOn k.host (k.settings o) k.fuel {} (sourceOf text)).1

section
variable (k : Machinery) (o : Options) (path : Path) (content : Except ReadError ByteArray)

/-- The command breaks down on the file that should be the script, or with the program in it. -/
inductive ScriptBreaks : Breakdown → Prop
  | invalid : path.isValid = false → ScriptBreaks .scriptPathInvalid
  | undecodable : path.isValid = true → IsNoText content → ScriptBreaks .undecodable
  | limitTooHigh {text : String} : path.isValid = true → IsText content text →
      k.host.CanRead (sourceOf text) → check (sourceOf text) = [] →
      ¬ k.host.CanRaise o.maxCallDepth → ScriptBreaks (.host .limitTooHigh)
  | stackExhausted {text : String} : path.isValid = true → IsText content text →
      (reportOf k o text).verdict = .ended (.broken .stackExhausted) →
      ScriptBreaks (.host .stackExhausted)

/-- The outcome that a script should lead to that is in the given file.  It has a status if it has a
text that can be read and whose program can go on.  What is reported of the text is what the rules of
the language say, if there is room for it on the host. -/
structure FitsScript (outcome : Outcome) : Prop where
  noInput_iff : outcome = .exited statusNoInput ↔ ∃ e, content = .error e
  data_iff : ∀ text, IsText content text → (outcome = .exited statusData ↔
    k.host.CanRead (sourceOf text) ∧ check (sourceOf text) ≠ [])
  software_iff : ∀ text, IsText content text →
    (outcome = .exited statusSoftware ↔ (reportOf k o text).runtimeError? ≠ none)
  ok_iff : ∀ text, IsText content text →
    (outcome = .exited statusOk ↔ (reportOf k o text).verdict = .ended .finished)
  unreachable_iff : ∀ text f, IsText content text →
    (outcome = .unreachable f ↔ (reportOf k o text).verdict = .ended (.unreachable f))
  report_eq : ∀ text, IsText content text →
    Session.FitsHost k.host (k.settings o) k.fuel {} (sourceOf text) →
    reportOf k o text = (Session.run (k.settings o) k.fuel {} (sourceOf text)).1

end

/-! ### Verdicts -/

theorem ofVerdict_eq_exited {v : Verdict} {status : Nat}
    (h : Outcome.ofVerdict v = .exited status) :
    (status = statusData ∧ v = .refused) ∨ (status = statusOk ∧ v = .ended .finished) ∨
      status = statusSoftware ∧ ∃ e, v = .ended (.failed e) := by
  cases v with
  | refused =>
    cases h
    exact .inl ⟨rfl, rfl⟩
  | unfinished => cases h
  | ended e =>
    cases e with
    | finished =>
      cases h
      exact .inr (.inl ⟨rfl, rfl⟩)
    | failed e =>
      cases h
      exact .inr (.inr ⟨rfl, e, rfl⟩)
    | unreachable f => cases h
    | broken f => cases h

theorem ofVerdict_data_iff (v : Verdict) :
    Outcome.ofVerdict v = .exited statusData ↔ v = .refused := by
  refine ⟨fun h => ?_, fun h => congrArg Outcome.ofVerdict h⟩
  rcases ofVerdict_eq_exited h with ⟨-, hv⟩ | ⟨hs, -⟩ | ⟨hs, -⟩
  · exact hv
  · cases hs
  · cases hs

theorem ofVerdict_ok_iff (v : Verdict) :
    Outcome.ofVerdict v = .exited statusOk ↔ v = .ended .finished := by
  refine ⟨fun h => ?_, fun h => congrArg Outcome.ofVerdict h⟩
  rcases ofVerdict_eq_exited h with ⟨hs, -⟩ | ⟨-, hv⟩ | ⟨hs, -⟩
  · cases hs
  · exact hv
  · cases hs

theorem ofVerdict_software_iff (r : Report) :
    Outcome.ofVerdict r.verdict = .exited statusSoftware ↔ r.runtimeError? ≠ none := by
  unfold Report.runtimeError?
  cases hv : r.verdict with
  | refused => exact ⟨nofun, fun h => absurd rfl h⟩
  | unfinished => exact ⟨nofun, fun h => absurd rfl h⟩
  | ended e =>
    cases e with
    | finished => exact ⟨nofun, fun h => absurd rfl h⟩
    | failed e => exact ⟨fun _ => nofun, fun _ => rfl⟩
    | unreachable f => exact ⟨nofun, fun h => absurd rfl h⟩
    | broken f => exact ⟨nofun, fun h => absurd rfl h⟩

theorem ofVerdict_unreachable_iff (v : Verdict) (f : ReachFault) :
    Outcome.ofVerdict v = .unreachable f ↔ v = .ended (.unreachable f) := by
  refine ⟨fun h => ?_, fun h => congrArg Outcome.ofVerdict h⟩
  unfold Outcome.ofVerdict at h
  split at h <;> cases h
  rfl

theorem ofVerdict_broken_iff (v : Verdict) (b : Breakdown) :
    Outcome.ofVerdict v = .broken b ↔ ∃ f, v = .ended (.broken f) ∧ b = .host f := by
  constructor
  · intro h
    unfold Outcome.ofVerdict at h
    split at h <;> cases h
    exact ⟨_, rfl, rfl⟩
  · rintro ⟨f, rfl, rfl⟩
    rfl

/-! ### What becomes of a script -/

section
variable (k : Machinery) (o : Options) (input : Input) {path : Path}
  {content : Except ReadError ByteArray}

theorem script_of_invalid (hpath : path.isValid = false) :
    ((Task.ofScript o path content).run k input).outcome = .broken .scriptPathInvalid := by
  unfold Task.ofScript
  simp only [hpath]
  rfl

section
variable (hpath : path.isValid = true)
include hpath

theorem script_of_noText (ht : IsNoText content) :
    ((Task.ofScript o path content).run k input).outcome = .broken .undecodable := by
  unfold Task.ofScript
  obtain ⟨bytes, rfl, htext⟩ := ht
  simp only [hpath, htext]
  rfl

theorem script_of_error {e : ReadError} (he : content = .error e) :
    ((Task.ofScript o path content).run k input).outcome = .exited statusNoInput := by
  unfold Task.ofScript
  simp only [hpath, he]
  rfl

theorem script_of_text {text : String} (ht : IsText content text) :
    ((Task.ofScript o path content).run k input).outcome =
      .ofVerdict (reportOf k o text).verdict := by
  obtain ⟨bytes, rfl, htext⟩ := ht
  unfold Task.ofScript
  simp only [hpath, htext]
  rfl

end

/-- What becomes of a script. -/
theorem script_cases (path : Path) (content : Except ReadError ByteArray) {outcome : Outcome}
    (h : ((Task.ofScript o path content).run k input).outcome = outcome) :
    (path.isValid = false ∧ outcome = .broken .scriptPathInvalid) ∨ path.isValid = true ∧
      ((IsNoText content ∧ outcome = .broken .undecodable) ∨
      ((∃ e, content = .error e) ∧ outcome = .exited statusNoInput) ∨
      ∃ text, IsText content text ∧ outcome = .ofVerdict (reportOf k o text).verdict) := by
  cases hpath : path.isValid with
  | false => exact .inl ⟨rfl, h ▸ script_of_invalid k o input hpath⟩
  | true =>
    refine .inr ⟨rfl, ?_⟩
    cases hcontent : content with
    | error e => exact .inr (.inl ⟨⟨e, rfl⟩, h ▸ script_of_error k o input hpath hcontent⟩)
    | ok bytes =>
      rw [← hcontent]
      cases htext : String.fromUTF8? bytes with
      | none =>
        have ht : IsNoText content := ⟨bytes, hcontent, htext⟩
        exact .inl ⟨ht, h ▸ script_of_noText k o input hpath ht⟩
      | some text =>
        have ht : IsText content text := ⟨bytes, hcontent, htext⟩
        exact .inr (.inr ⟨text, ht, h ▸ script_of_text k o input hpath ht⟩)

theorem script_ne_usage (path : Path) (content : Except ReadError ByteArray) :
    ((Task.ofScript o path content).run k input).outcome ≠ .exited statusUsage := by
  intro h
  rcases script_cases k o input path content h with ⟨-, hx⟩ | ⟨-, ⟨-, hx⟩ | ⟨-, hx⟩ | ⟨text, -, hv⟩⟩
  · cases hx
  · cases hx
  · cases hx
  · rcases ofVerdict_eq_exited hv.symm with ⟨hs, -⟩ | ⟨hs, -⟩ | ⟨hs, -⟩ <;> cases hs

theorem script_broken_iff {b : Breakdown} :
    ((Task.ofScript o path content).run k input).outcome = .broken b ↔
      ScriptBreaks k o path content b := by
  constructor
  · intro h
    rcases script_cases k o input path content h with
      ⟨hpath, hx⟩ | ⟨hpath, ⟨ht, hx⟩ | ⟨-, hx⟩ | ⟨text, ht, hv⟩⟩
    · cases hx
      exact .invalid hpath
    · cases hx
      exact .undecodable hpath ht
    · cases hx
    · obtain ⟨f, hf, rfl⟩ := (ofVerdict_broken_iff _ b).1 hv.symm
      cases f with
      | limitTooHigh =>
        obtain ⟨hread, hcheck, hraise⟩ := (Session.verdict_limitTooHigh_iff _ _ _ _ _).1 hf
        exact .limitTooHigh hpath ht hread hcheck hraise
      | stackExhausted => exact .stackExhausted hpath ht hf
  · intro h
    cases h with
    | invalid hpath => exact script_of_invalid k o input hpath
    | undecodable hpath ht => exact script_of_noText k o input hpath ht
    | limitTooHigh hpath ht hread hcheck hraise =>
      have hverdict := (Session.verdict_limitTooHigh_iff k.host (k.settings o) k.fuel {} _).2
        ⟨hread, hcheck, hraise⟩
      exact (script_of_text k o input hpath ht).trans (congrArg Outcome.ofVerdict hverdict)
    | stackExhausted hpath ht hverdict =>
      exact (script_of_text k o input hpath ht).trans (congrArg Outcome.ofVerdict hverdict)

theorem fitsScript (hpath : path.isValid = true) :
    FitsScript k o content ((Task.ofScript o path content).run k input).outcome := by
  have htext : ∀ text, IsText content text → _ := fun text ht => script_of_text k o input hpath ht
  exact
    { noInput_iff := by
        constructor
        · intro h
          rcases script_cases k o input path content h with
            ⟨-, hx⟩ | ⟨-, ⟨-, hx⟩ | ⟨herror, -⟩ | ⟨text, -, hv⟩⟩
          · cases hx
          · cases hx
          · exact herror
          · rcases ofVerdict_eq_exited hv.symm with ⟨hs, -⟩ | ⟨hs, -⟩ | ⟨hs, -⟩ <;> cases hs
        · rintro ⟨e, he⟩
          exact script_of_error k o input hpath he
      data_iff := fun text ht => by
        rw [htext text ht, ofVerdict_data_iff]
        exact Session.verdict_refused_iff _ _ _ _ _
      software_iff := fun text ht => by rw [htext text ht, ofVerdict_software_iff]
      ok_iff := fun text ht => by rw [htext text ht, ofVerdict_ok_iff]
      unreachable_iff := fun text f ht => by rw [htext text ht, ofVerdict_unreachable_iff]
      report_eq := fun text _ hfits => congrArg Prod.fst hfits.runOn_eq }

end

/-! ### The command -/

section
variable {k : Machinery} {read : Path → Except ReadError ByteArray} {input : Input}
  {arguments : List String} {a : Arguments} (h : Request.ofStrings arguments = .run a)
include h

theorem run_of_refused (hr : Refused a (read a.configPath)) :
    (run k read input arguments).outcome = .exited statusUsage := by
  obtain ⟨e, he⟩ := ofArguments_of_refused hr
  simp only [run, h, Task.ofRequest, Id.run_bind, Id.run_pure, he]
  rfl

theorem run_of_breaks {b : Breakdown} (hb : Breaks a (read a.configPath) b) :
    (run k read input arguments).outcome = .broken b := by
  simp only [run, h, Task.ofRequest, Id.run_bind, Id.run_pure, ofArguments_of_breaks hb]
  rfl

theorem run_of_script {o : Options} (ho : Accepted a (read a.configPath) o) {path : Path}
    (hscript : o.script = some path) :
    run k read input arguments = (Task.ofScript o path (read path)).run k input := by
  simp only [run, h, Task.ofRequest, Id.run_bind, Id.run_pure, ofArguments_of_accepted ho, hscript]

theorem run_of_prompt {o : Options} (ho : Accepted a (read a.configPath) o)
    (hscript : o.script = none) :
    run k read input arguments = Prompt.run k o input.isText {} input.lines := by
  simp only [run, h, Task.ofRequest, Id.run_bind, Id.run_pure, ofArguments_of_accepted ho, hscript]
  rfl

/-- What becomes of a request. -/
theorem outcome_cases (k : Machinery) (input : Input) :
    (Refused a (read a.configPath) ∧ (run k read input arguments).outcome = .exited statusUsage) ∨
    (∃ b, Breaks a (read a.configPath) b ∧ (run k read input arguments).outcome = .broken b) ∨
    ∃ o, Accepted a (read a.configPath) o ∧
      ((∃ path, o.script = some path ∧ (run k read input arguments).outcome =
        ((Task.ofScript o path (read path)).run k input).outcome) ∨
      (o.script = none ∧ (run k read input arguments).outcome =
        (Prompt.run k o input.isText {} input.lines).outcome)) := by
  rcases configuration_cases a (read a.configPath) with hr | ⟨b, hb⟩ | ⟨o, ho⟩
  · exact .inl ⟨hr, run_of_refused h hr⟩
  · exact .inr (.inl ⟨b, hb, run_of_breaks h hb⟩)
  · refine .inr (.inr ⟨o, ho, ?_⟩)
    cases hscript : o.script with
    | some path => exact .inl ⟨path, rfl, congrArg _ (run_of_script h ho hscript)⟩
    | none => exact .inr ⟨rfl, congrArg _ (run_of_prompt h ho hscript)⟩

theorem exited_usage_iff (k : Machinery) (input : Input) :
    (run k read input arguments).outcome = .exited statusUsage ↔
      Refused a (read a.configPath) := by
  refine ⟨fun hx => ?_, run_of_refused h⟩
  rcases outcome_cases h k input with
    ⟨hr, -⟩ | ⟨b, -, hb⟩ | ⟨o, -, ⟨path, -, hscript⟩ | ⟨-, hprompt⟩⟩
  · exact hr
  · cases hb.symm.trans hx
  · exact absurd (hscript.symm.trans hx) (script_ne_usage k o input path _)
  · cases (Prompt.outcome_eq_exited.1 (hprompt.symm.trans hx)).1

theorem broken_iff (k : Machinery) (input : Input) (b : Breakdown) :
    (run k read input arguments).outcome = .broken b ↔ Breaks a (read a.configPath) b ∨
      ∃ o, Accepted a (read a.configPath) o ∧
        ((∃ path, o.script = some path ∧ ScriptBreaks k o path (read path) b) ∨
        (o.script = none ∧ Prompt.Breaks k o input b)) := by
  constructor
  · intro hx
    rcases outcome_cases h k input with
      ⟨-, hr⟩ | ⟨b', hbreaks, hb⟩ | ⟨o, ho, ⟨path, hpath, hscript⟩ | ⟨hnone, hprompt⟩⟩
    · cases hr.symm.trans hx
    · cases hb.symm.trans hx
      exact .inl hbreaks
    · have hb := (script_broken_iff k o input).1 (hscript.symm.trans hx)
      exact .inr ⟨o, ho, .inl ⟨path, hpath, hb⟩⟩
    · have hb := Prompt.outcome_eq_broken.1 (hprompt.symm.trans hx)
      exact .inr ⟨o, ho, .inr ⟨hnone, hb⟩⟩
  · rintro (hb | ⟨o, ho, ⟨path, hpath, hb⟩ | ⟨hnone, hb⟩⟩)
    · exact run_of_breaks h hb
    · rw [run_of_script h ho hpath]
      exact (script_broken_iff k o input).2 hb
    · rw [run_of_prompt h ho hnone]
      exact Prompt.outcome_eq_broken.2 hb

end

/-- How the command ends if its arguments are in order.  It refuses what the config file and the
arguments ask for, or breaks down, or goes on to the script or the prompt. -/
theorem run_outcome (k : Machinery) (read : Path → Except ReadError ByteArray) (input : Input)
    {arguments : List String} {a : Arguments} (h : Request.ofStrings arguments = .run a) :
    ((run k read input arguments).outcome = .exited statusUsage ↔ Refused a (read a.configPath)) ∧
    (∀ b, (run k read input arguments).outcome = .broken b ↔ Breaks a (read a.configPath) b ∨
      ∃ o, Accepted a (read a.configPath) o ∧
        ((∃ path, o.script = some path ∧ ScriptBreaks k o path (read path) b) ∨
        (o.script = none ∧ Prompt.Breaks k o input b))) ∧
    (∀ o path, Accepted a (read a.configPath) o → o.script = some path → path.isValid = true →
      FitsScript k o (read path) (run k read input arguments).outcome) ∧
    ∀ o, Accepted a (read a.configPath) o → o.script = none →
      Prompt.Fits k o input (run k read input arguments) := by
  refine ⟨exited_usage_iff h k input, broken_iff h k input, fun o path ho hscript hpath => ?_,
    fun o ho hscript => ?_⟩
  · rw [run_of_script h ho hscript]
    exact fitsScript k o input hpath
  · rw [run_of_prompt h ho hscript]
    exact Prompt.fits k o input

/-- A config file that is no text leads to no exit status, and neither does a program that would run
under a limit that is too high. -/
theorem run_outcome_broken :
    (run { clock := fun _ => 0, fuel := 0 } (fun _ => .ok ⟨#[0xff]⟩) { lines := [] } []).outcome =
      .broken .undecodable ∧
    (run { clock := fun _ => 0, fuel := 0 } (fun _ => .error .missing) (.ofText "print nil;\n")
      ["--max-call-depth", "100000000"]).outcome = .broken (.host .limitTooHigh) := by
  have h : Request.ofStrings [] = .run {} := by decide +kernel
  have h' : Request.ofStrings ["--max-call-depth", "100000000"] =
      .run { maxCallDepth := some (.number 100000000) } := by decide +kernel
  have hresult := (run_outcome { clock := fun _ => 0, fuel := 0 } (fun _ => .ok ⟨#[0xff]⟩)
    { lines := [] } h).2.1 .undecodable
  have hresult' := (run_outcome { clock := fun _ => 0, fuel := 0 } (fun _ => .error .missing)
    (.ofText "print nil;\n") h').2.1 (.host .limitTooHigh)
  have hconfigured : Configured (.error .missing) [] := .absent rfl rfl
  have hright : ¬ HasWrongDepth [] := by
    rintro ⟨v, hv, -⟩
    cases hv
  have haccepted := Accepted.intro (a := { maxCallDepth := some (.number 100000000) })
    hconfigured hright rfl (by decide)
  have hcheck : check "print nil;" = [] := by decide +kernel
  refine ⟨hresult.2 (.inl (.undecodable ⟨_, rfl, by decide +kernel⟩)),
    hresult'.2 (.inr ⟨_, haccepted, .inr ⟨rfl, ?_⟩⟩)⟩
  have hlines : (Input.ofText "print nil;\n").lines = [] ++ "print nil;" :: [] := by
    decide +kernel
  have hnone : ∀ x ∈ ([] : List String), Host.CanRead {} x ∧ check x ≠ [] := nofun
  exact .limitTooHigh (by decide +kernel) hlines hnone (Nat.zero_le _) hcheck

end Command
end LoxScript
