import Mathlib
import LoxScript.Proofs.Session.Compiling

/-!
The books of a session balance.

What is reported of a text is taken from the journal, which all passes over the text write to, which
forgets complaints when the next text is read, and which keeps failures.  The flags of the journal
say what is in it at all times; so what is reported of a text is about that text only, and the flag
for failures tells of all texts so far.
-/

namespace LoxScript

namespace Journal

/-- The flags of a journal say what is in it, and whatever is put into it is written. -/
structure Kept (j : Journal) : Prop where
  echo : j.echo = true
  hasDiagnostics : j.hasDiagnostics = !j.diagnostics.isEmpty
  hasFailures : j.hasFailures = !j.failures.isEmpty

namespace Kept
variable {j : Journal} (h : j.Kept)
include h

theorem hasDiagnostics_iff : j.hasDiagnostics = true ↔ j.diagnostics ≠ [] := by
  rw [h.hasDiagnostics]
  cases j.diagnostics <;> simp

theorem reportAll (ds : List Diagnostic) : (j.reportAll ds).Kept where
  echo := (echo_reportAll j ds).trans h.echo
  hasDiagnostics := by
    rw [hasDiagnostics_reportAll, diagnostics_reportAll, h.hasDiagnostics]
    cases j.diagnostics <;> rfl
  hasFailures := by
    rw [hasFailures_reportAll, failures_reportAll, h.hasFailures]

theorem fail (f : Failure) : (j.fail f).Kept where
  echo := h.echo
  hasDiagnostics := h.hasDiagnostics
  hasFailures := by
    show true = !(j.failures ++ [f]).isEmpty
    cases j.failures <;> rfl

theorem turnPage : j.turnPage.Kept := ⟨h.echo, h.hasDiagnostics, h.hasFailures⟩

theorem reset : j.reset.Kept := ⟨h.echo, rfl, h.hasFailures⟩

end Kept
end Journal

namespace Report

section
variable (verdict : Verdict) (output : String) {before now : Journal} {f : Option Failure}
  (h : now.failures = before.failures ++ f.toList)
include h

/-- The failures of earlier texts are left out. -/
theorem failure_ofJournals : (ofJournals verdict output before now).failure = f := by
  show (now.failures.drop before.failures.length).head? = f
  rw [h, List.drop_left]
  cases f <;> rfl

theorem hasFailed_ofJournals : (ofJournals verdict output before now).hasFailed = f.isSome := by
  show (!(now.failures.drop before.failures.length).isEmpty) = f.isSome
  rw [h, List.drop_left]
  cases f <;> rfl

end

end Report

namespace Session

/-- The sessions that can come about, each with what was reported of the texts given so far. -/
inductive After (settings : Settings) : List Report → Session → Prop
  | fresh : After settings [] {}
  | run {reports : List Report} {s : Session} (fuel : Nat) (source : String) :
      After settings reports s →
      After settings (reports ++ [(s.run settings fuel source).1]) (s.run settings fuel source).2

/-- What is reported of a text accords with the text and with the session before and after it.  The
distances of the uses of names are part of the functions in the store, so a text that is complained
about leaves these as they are, too. -/
structure Balances (s : Session) (source : String) (r : Report) (t : Session) : Prop where
  hasDiagnostics_iff : r.hasDiagnostics = true ↔ r.diagnostics ≠ []
  hasFailed_iff : r.hasFailed = true ↔ r.runtimeError? ≠ none
  not_both : ¬ (r.hasDiagnostics = true ∧ r.hasFailed = true)
  failure_eq : r.failure = r.runtimeError?.map fun e => ⟨e.token.line, e.fault.message⟩
  diagnostics_eq : r.diagnostics = if (Reading.ofText source).diagnostics = []
    then (Resolve.program (Reading.ofText source).statements).notes
    else (Reading.ofText source).diagnostics
  diagnostics_eq_check : r.diagnostics = check source
  unchanged : r.diagnostics ≠ [] →
    r.output = "" ∧ t.store = s.store ∧ t.depth = s.depth ∧ t.journal.failures = s.journal.failures
  errors_eq : r.errors = String.join (r.diagnostics.map fun d => d.format ++ "\n") ++
    String.join (r.failure.toList.map fun f => f.format ++ "\n")
  failures_eq : t.journal.failures = s.journal.failures ++ r.failure.toList

section
variable (j : Journal) (m : Machine) (ending : Option Ending)

/-- A failure that a run ends with is noted. -/
theorem failures_noteEnding : (noteEnding j ending).failures =
    j.failures ++ ((conclude j m ending).1.runtimeError?.map
      fun e => (⟨e.token.line, e.fault.message⟩ : Failure)).toList := by
  cases ending with
  | none => exact (List.append_nil _).symm
  | some e =>
    cases e with
    | failed e => rfl
    | finished => exact (List.append_nil _).symm
    | unreachable f => exact (List.append_nil _).symm
    | broken f => exact (List.append_nil _).symm

/-- It is written on lines of its own. -/
theorem written_noteEnding (h : j.echo = true) : (noteEnding j ending).written =
    j.written ++ String.join (((conclude j m ending).1.runtimeError?.map
      fun e => (⟨e.token.line, e.fault.message⟩ : Failure)).toList.map
        fun f => f.format ++ "\n") := by
  cases ending with
  | none => exact String.append_empty.symm
  | some e =>
    cases e with
    | failed e =>
      refine (if_pos h).trans ?_
      rw [String.append_assoc]
      exact congrArg (j.written ++ ·) String.empty_append.symm
    | finished => exact String.append_empty.symm
    | unreachable f => exact String.append_empty.symm
    | broken f => exact String.append_empty.symm

end

section
variable {s : Session} (hs : s.journal.Kept)
include hs

theorem page_kept : s.page.Kept := hs.turnPage.reset

theorem noteEnding_kept (ending : Option Ending) : (noteEnding s.page ending).Kept := by
  unfold noteEnding
  split
  · exact (page_kept hs).fail _
  · exact page_kept hs

/-- A text that is complained about. -/
theorem balances_of_error {source : String} {notes : List Diagnostic}
    (h : compile source = .error notes) :
    s.Balances source (.ofJournals .refused "" s.page (s.page.reportAll notes))
      { s with journal := s.page.reportAll notes } := by
  obtain ⟨hne, hnotes⟩ := notes_of_error h
  have hkept := (page_kept hs).reportAll notes
  have hdiagnostics : (s.page.reportAll notes).diagnostics = notes :=
    Journal.diagnostics_reportAll _ _
  have hsame : (s.page.reportAll notes).failures = s.journal.failures :=
    Journal.failures_reportAll _ _
  have hfailures : (s.page.reportAll notes).failures = s.page.failures ++ none.toList :=
    hsame.trans (List.append_nil _).symm
  have hfailure := Report.failure_ofJournals .refused "" hfailures
  have hfailed := Report.hasFailed_ofJournals .refused "" hfailures
  exact
    { hasDiagnostics_iff := hkept.hasDiagnostics_iff
      hasFailed_iff := by
        rw [hfailed]
        exact ⟨nofun, fun hc => absurd rfl hc⟩
      not_both := by
        rw [hfailed]
        exact fun hc => nomatch hc.2
      failure_eq := hfailure
      diagnostics_eq := hdiagnostics.trans hnotes
      diagnostics_eq_check := hdiagnostics.trans (check_of_error h).symm
      unchanged := fun _ => ⟨rfl, rfl, rfl, hsame⟩
      errors_eq := by
        rw [hfailure]
        show (s.page.reportAll notes).written = String.join
          ((s.page.reportAll notes).diagnostics.map fun d => d.format ++ "\n") ++ ""
        rw [Journal.written_reportAll s.page notes (page_kept hs).echo, hdiagnostics,
          String.append_empty]
        exact String.empty_append
      failures_eq := by
        rw [hfailure]
        exact hfailures }

/-- A text that has run. -/
theorem balances_of_ok {source : String} {program : List RStmt} (h : compile source = .ok program)
    (m : Machine) (ending : Option Ending) :
    s.Balances source (conclude s.page m ending).1 (conclude s.page m ending).2 := by
  obtain ⟨hread, hresolved⟩ := compile_eq_ok.1 h
  have hkept := noteEnding_kept hs ending
  have hdiagnostics : (noteEnding s.page ending).diagnostics = [] := diagnostics_noteEnding _ _
  have hflag : ¬ (noteEnding s.page ending).hasDiagnostics = true := fun hc =>
    hkept.hasDiagnostics_iff.1 hc hdiagnostics
  have hfailures := failures_noteEnding s.page m ending
  have hfailure : (conclude s.page m ending).1.failure = _ :=
    Report.failure_ofJournals _ _ hfailures
  have hfailed : (conclude s.page m ending).1.hasFailed = _ :=
    Report.hasFailed_ofJournals _ _ hfailures
  exact
    { hasDiagnostics_iff := hkept.hasDiagnostics_iff
      hasFailed_iff := by rw [hfailed, Option.isSome_map, Option.isSome_iff_ne_none]
      not_both := fun hc => hflag hc.1
      failure_eq := hfailure
      diagnostics_eq := by
        rw [if_pos hread, hresolved]
        exact hdiagnostics
      diagnostics_eq_check := hdiagnostics.trans (check_of_ok h).symm
      unchanged := fun hne => absurd hdiagnostics hne
      errors_eq := by
        rw [hfailure]
        show (noteEnding s.page ending).written = String.join
          ((noteEnding s.page ending).diagnostics.map fun d => d.format ++ "\n") ++ _
        rw [written_noteEnding s.page m ending (page_kept hs).echo, hdiagnostics]
        rfl
      failures_eq := by
        rw [hfailure]
        exact hfailures }

theorem balances_run (settings : Settings) (fuel : Nat) (source : String) :
    s.Balances source (s.run settings fuel source).1 (s.run settings fuel source).2 := by
  cases hc : compile source with
  | error notes =>
    rw [run_of_error _ _ _ hc]
    exact balances_of_error hs hc
  | ok program =>
    rw [run_of_ok _ _ _ hc]
    exact balances_of_ok hs hc _ _

/-- The journal is kept. -/
theorem kept_run (settings : Settings) (fuel : Nat) (source : String) :
    (s.run settings fuel source).2.journal.Kept := by
  cases hc : compile source with
  | error notes =>
    rw [run_of_error _ _ _ hc]
    exact (page_kept hs).reportAll notes
  | ok program =>
    rw [run_of_ok _ _ _ hc]
    exact noteEnding_kept hs _

theorem hasFailures_run (settings : Settings) (fuel : Nat) (source : String) :
    (s.run settings fuel source).2.journal.hasFailures =
      (s.journal.hasFailures || (s.run settings fuel source).1.hasFailed) := by
  have hbalances := balances_run hs settings fuel source
  have hfailed : (s.run settings fuel source).1.hasFailed =
      (s.run settings fuel source).1.runtimeError?.isSome := by
    rw [Bool.eq_iff_iff, hbalances.hasFailed_iff, Option.isSome_iff_ne_none]
  rw [(kept_run hs settings fuel source).hasFailures, hbalances.failures_eq, hbalances.failure_eq,
    hfailed, hs.hasFailures]
  cases s.journal.failures <;> cases (s.run settings fuel source).1.runtimeError? <;> rfl

end

/-- The journal is kept from the beginning on, and its flag for failures tells of all texts. -/
theorem After.kept {settings : Settings} {reports : List Report} {s : Session}
    (h : After settings reports s) :
    s.journal.Kept ∧ s.journal.hasFailures = reports.any Report.hasFailed := by
  induction h with
  | fresh => exact ⟨⟨rfl, rfl, rfl⟩, rfl⟩
  | run fuel source _ ih =>
    refine ⟨kept_run ih.1 _ fuel source, ?_⟩
    rw [hasFailures_run ih.1, ih.2, List.any_append, List.any_cons, List.any_nil, Bool.or_false]

end Session
end LoxScript
