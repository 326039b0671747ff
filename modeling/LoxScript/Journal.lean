import LoxScript.Diagnostic

/-!
The journal of a session: what was complained about and what failed, and what was written of it.

Complaints belong to the text read last and are forgotten with it; failures are kept.
-/

namespace LoxScript

/-- A failure at run time, as it is noted. -/
structure Failure where
  line : Nat
  message : String
deriving Repr, DecidableEq, Inhabited

def Failure.format (f : Failure) : String :=
  f.message ++ "\n[line " ++ toString f.line ++ "]"

structure Journal where
  /-- Entries are also written. -/
  echo : Bool := true
  diagnostics : List Diagnostic := []
  failures : List Failure := []
  /-- There has been a complaint about the text read last. -/
  hasDiagnostics : Bool := false
  /-- There has been a failure. -/
  hasFailures : Bool := false
  written : String := ""
deriving Repr, DecidableEq, Inhabited

namespace Journal

/-- Writes a line, if entries are to be written. -/
def write (j : Journal) (line : String) : Journal :=
  { j with written := if j.echo then j.written ++ line ++ "\n" else j.written }

def report (j : Journal) (d : Diagnostic) : Journal :=
  { j with diagnostics := j.diagnostics ++ [d], hasDiagnostics := true }.write d.format

def reportAll (j : Journal) (ds : List Diagnostic) : Journal := ds.foldl report j

def fail (j : Journal) (f : Failure) : Journal :=
  { j with failures := j.failures ++ [f], hasFailures := true }.write f.format

/-- Forgets the complaints. -/
def reset (j : Journal) : Journal := { j with diagnostics := [], hasDiagnostics := false }

/-- The same journal with nothing written yet. -/
def turnPage (j : Journal) : Journal := { j with written := "" }

section
variable (j : Journal) (ds : List Diagnostic)

@[simp] theorem reportAll_nil : j.reportAll [] = j := rfl

theorem reportAll_cons (d : Diagnostic) : j.reportAll (d :: ds) = (j.report d).reportAll ds := rfl

@[simp] theorem echo_reportAll : (j.reportAll ds).echo = j.echo := by
  induction ds generalizing j with
  | nil => rfl
  | cons d ds ih => rw [reportAll_cons, ih]; rfl

@[simp] theorem failures_reportAll : (j.reportAll ds).failures = j.failures := by
  induction ds generalizing j with
  | nil => rfl
  | cons d ds ih => rw [reportAll_cons, ih]; rfl

@[simp] theorem hasFailures_reportAll : (j.reportAll ds).hasFailures = j.hasFailures := by
  induction ds generalizing j with
  | nil => rfl
  | cons d ds ih => rw [reportAll_cons, ih]; rfl

@[simp] theorem diagnostics_reportAll :
    (j.reportAll ds).diagnostics = j.diagnostics ++ ds := by
  induction ds generalizing j with
  | nil => exact (List.append_nil _).symm
  | cons d ds ih =>
    rw [reportAll_cons, ih]
    exact List.append_assoc j.diagnostics [d] ds

@[simp] theorem hasDiagnostics_reportAll :
    (j.reportAll ds).hasDiagnostics = (j.hasDiagnostics || !ds.isEmpty) := by
  induction ds generalizing j with
  | nil => exact (Bool.or_false _).symm
  | cons d ds ih =>
    rw [reportAll_cons, ih]
    simp [report, write]

/-- Each complaint is written on a line of its own. -/
theorem written_reportAll (h : j.echo = true) :
    (j.reportAll ds).written = j.written ++ String.join (ds.map fun d => d.format ++ "\n") := by
  induction ds generalizing j with
  | nil => exact String.append_empty.symm
  | cons d ds ih =>
    have hd : (j.report d).written = j.written ++ d.format ++ "\n" := if_pos h
    rw [reportAll_cons, ih (j.report d) h, hd, List.map_cons, String.join_cons]
    simp only [String.append_assoc]

end

end Journal
end LoxScript
