import LoxScript.Proofs.Binding.Balanced
import LoxScript.Session

/-!
What a session does with a text, by what comes of compiling it.
-/

namespace LoxScript

/-- What is wrong with a text, if anything is: with its characters and tokens, or else with its
scopes. -/
theorem notes_of_error {source : String} {notes : List Diagnostic}
    (h : compile source = .error notes) :
    notes ≠ [] ∧ notes = if (Reading.ofText source).diagnostics = []
      then (Resolve.program (Reading.ofText source).statements).notes
      else (Reading.ofText source).diagnostics := by
  unfold compile at h
  generalize Reading.ofText source = reading at h ⊢
  obtain ⟨statements, diagnostics⟩ := reading
  cases diagnostics with
  | cons d ds =>
    cases h
    exact ⟨List.cons_ne_nil d ds, (if_neg (List.cons_ne_nil d ds)).symm⟩
  | nil =>
    dsimp only at h ⊢
    rw [if_pos rfl]
    generalize Resolve.program statements = resolved at h ⊢
    obtain ⟨value, found⟩ := resolved
    cases found with
    | nil => cases h
    | cons d ds =>
      cases h
      exact ⟨List.cons_ne_nil d ds, rfl⟩

section
variable {j : Journal} (hj : j.hasDiagnostics = false) {source : String}
include hj

theorem Journal.compile_of_ok {program : List RStmt} (h : LoxScript.compile source = .ok program) :
    j.compile source = (j, some program) := by
  obtain ⟨hread, hresolved⟩ := compile_eq_ok.1 h
  simp [Journal.compile, hread, hj, Walk.program_apply j (Reading.wellFormed source), hresolved]

theorem Journal.compile_of_error {notes : List Diagnostic}
    (h : LoxScript.compile source = .error notes) :
    j.compile source = (j.reportAll notes, none) := by
  have hwell := Reading.wellFormed source
  unfold LoxScript.compile at h
  unfold Journal.compile
  generalize Reading.ofText source = reading at h hwell ⊢
  obtain ⟨statements, diagnostics⟩ := reading
  cases diagnostics with
  | cons d ds =>
    cases h
    simp
  | nil =>
    dsimp only at h hwell ⊢
    rw [Walk.program_apply _ hwell]
    generalize Resolve.program statements = resolved at h ⊢
    obtain ⟨value, found⟩ := resolved
    cases found with
    | nil => cases h
    | cons d ds =>
      cases h
      simp [hj]

end

theorem check_of_ok {source : String} {program : List RStmt} (h : compile source = .ok program) :
    check source = [] := by
  rw [check, Journal.compile_of_ok rfl h]

theorem check_of_error {source : String} {notes : List Diagnostic}
    (h : compile source = .error notes) : check source = notes := by
  rw [check, Journal.compile_of_error rfl h, Journal.diagnostics_reportAll, List.nil_append]

namespace Session

section
variable {before : Journal} {m : Machine} {ending : Option Ending}

theorem verdict_conclude_ne_refused : (conclude before m ending).1.verdict ≠ .refused := by
  cases ending <;> nofun

theorem verdict_conclude_eq_ended {e : Ending} :
    (conclude before m ending).1.verdict = .ended e ↔ ending = some e := by
  cases ending with
  | none => exact ⟨nofun, nofun⟩
  | some e' => exact ⟨fun h => congrArg some (Verdict.ended.inj h), fun h => by cases h; rfl⟩

end

theorem read_of_ok {source : String} {program : List RStmt} (h : compile source = .ok program)
    (s : Session) : s.read source = .ok { machine := s.begin program, journal := s.page } := by
  unfold read
  rw [Journal.compile_of_ok (j := s.page) rfl h]

theorem read_of_error {source : String} {notes : List Diagnostic}
    (h : compile source = .error notes) (s : Session) :
    s.read source = .error (.ofJournals .refused "" s.page (s.page.reportAll notes),
      { s with journal := s.page.reportAll notes }) := by
  unfold read
  rw [Journal.compile_of_error (j := s.page) rfl h]

section
variable (go : Machine → Machine × Option Ending) (s : Session) {source : String}

theorem runWith_of_ok {program : List RStmt} (h : compile source = .ok program) :
    s.runWith go source =
      conclude s.page (go (s.begin program)).1 (go (s.begin program)).2 := by
  rw [runWith, read_of_ok h]

theorem runWith_of_error {notes : List Diagnostic} (h : compile source = .error notes) :
    s.runWith go source =
      (.ofJournals .refused "" s.page (s.page.reportAll notes),
        { s with journal := s.page.reportAll notes }) := by
  rw [runWith, read_of_error h]

end

section
variable (settings : Settings) (fuel : Nat) (s : Session) {source : String}

theorem run_of_ok {program : List RStmt} (h : compile source = .ok program) :
    s.run settings fuel source =
      conclude s.page ((s.begin program).run settings fuel).1
        ((s.begin program).run settings fuel).2 := runWith_of_ok _ s h

theorem run_of_error {notes : List Diagnostic} (h : compile source = .error notes) :
    s.run settings fuel source =
      (.ofJournals .refused "" s.page (s.page.reportAll notes),
        { s with journal := s.page.reportAll notes }) := runWith_of_error _ s h

end

/-- What a text without mistakes has done that has run to an end. -/
theorem ended_of_runWith {go : Machine → Machine × Option Ending} {s t : Session} {source : String}
    {r : Report} {program : List RStmt} (h : compile source = .ok program)
    (hr : s.runWith go source = (r, t)) {e : Ending} (he : r.verdict = .ended e) :
    ∃ m, go (s.begin program) = (m, some e) ∧ r.output = m.output ∧ t.store = m.store := by
  rw [runWith_of_ok _ _ h] at hr
  cases hr
  exact ⟨_, Prod.ext rfl (verdict_conclude_eq_ended.1 he), rfl, rfl⟩

end Session
end LoxScript
