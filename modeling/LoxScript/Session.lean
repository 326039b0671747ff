import LoxScript.Binding.Walk
import LoxScript.Machine.Host
import LoxScript.Program

/-!
Sessions: program texts that run one after the other on the same globals.

A text with a complaint does not run.  Complaints about scoping are looked for only in a text that
is free of others.
-/

namespace LoxScript

/-- A program that is ready to run, or what is wrong with the text. -/
def compile (source : String) : Except (List Diagnostic) (List RStmt) :=
  let reading := Reading.ofText source
  match reading.diagnostics with
  | [] =>
    let resolved := Resolve.program reading.statements
    match resolved.notes with
    | [] => .ok resolved.value
    | notes => .error notes
  | notes => .error notes

theorem compile_eq_ok {source : String} {resolved : List RStmt} :
    compile source = .ok resolved ↔ (Reading.ofText source).diagnostics = [] ∧
      Resolve.program (Reading.ofText source).statements = ⟨resolved, []⟩ := by
  unfold compile
  generalize Reading.ofText source = reading
  obtain ⟨statements, diagnostics⟩ := reading
  cases diagnostics with
  | cons d ds => simp
  | nil =>
    dsimp only
    generalize Resolve.program statements = r
    obtain ⟨value, notes⟩ := r
    cases notes <;> simp

/-- Puts everything that is wrong with a text into a journal, as it is found; there is a program if
nothing is.  Scopes are looked at only if there has been no complaint before. -/
def Journal.compile (j : Journal) (source : String) : Journal × Option (List RStmt) :=
  let reading := Reading.ofText source
  let j := j.reportAll reading.diagnostics
  if j.hasDiagnostics then (j, none)
  else
    let (resolved, j) := Walk.program j reading.statements
    (j, if j.hasDiagnostics then none else some resolved)

/-- Everything that is wrong with a text. -/
def check (source : String) : List Diagnostic :=
  (({ echo := false } : Journal).compile source).1.diagnostics

/-- What lasts from one text to the next. -/
structure Session where
  store : Store := .initial
  journal : Journal := {}
  /-- The number of calls in progress. -/
  depth : Nat := 0
deriving Inhabited

/-- How a text was done with. -/
inductive Verdict where
  /-- It was complained about. -/
  | refused
  /-- It ran to an end. -/
  | ended (e : Ending)
  /-- The steps allowed for it ran out. -/
  | unfinished
deriving DecidableEq, Inhabited

/-- What a text has done. -/
structure Report where
  verdict : Verdict
  output : String
  diagnostics : List Diagnostic
  /-- What was written about it. -/
  errors : String
  /-- It was complained about. -/
  hasDiagnostics : Bool
  /-- It failed while it was running. -/
  hasFailed : Bool
  failure : Option Failure
deriving Inhabited

namespace Report

def runtimeError? (r : Report) : Option RuntimeError :=
  match r.verdict with
  | .ended (.failed e) => some e
  | _ => none

/-- A report, from the journal as it was before the text and as it is now.  The journal keeps the
failures of earlier texts, which are not this one's. -/
def ofJournals (verdict : Verdict) (output : String) (before now : Journal) : Report :=
  let failures := now.failures.drop before.failures.length
  { verdict, output, diagnostics := now.diagnostics, errors := now.written,
    hasDiagnostics := now.hasDiagnostics, hasFailed := !failures.isEmpty, failure := failures.head? }

end Report

namespace Session

/-- Puts the end of a run into the journal. -/
def noteEnding (j : Journal) : Option Ending → Journal
  | some (.failed e) => j.fail ⟨e.token.line, e.fault.message⟩
  | _ => j

@[simp] theorem diagnostics_noteEnding (j : Journal) (ending : Option Ending) :
    (noteEnding j ending).diagnostics = j.diagnostics := by
  unfold noteEnding
  split <;> rfl

/-- A text that has been found free of mistakes and is running. -/
structure Running where
  machine : Machine
  journal : Journal

/-- The journal when the next text is about to be read. -/
def page (s : Session) : Journal := s.journal.turnPage.reset

/-- The state in which a program begins to run. -/
def begin (s : Session) (program : List RStmt) : Machine :=
  { Machine.start program s.store with depth := s.depth }

theorem begin_eq {s : Session} (h : s.depth = 0) (program : List RStmt) :
    s.begin program = .start program s.store := by
  rw [begin, h]
  rfl

/-- Reads a text: either it is refused, or a program is about to run. -/
def read (s : Session) (source : String) : Except (Report × Session) Running :=
  match s.page.compile source with
  | (journal, none) => .error (.ofJournals .refused "" s.page journal, { s with journal })
  | (journal, some program) => .ok { machine := s.begin program, journal }

/-- What has come of a run that is over, or that is not looked at any longer. -/
def conclude (before : Journal) (m : Machine) (ending : Option Ending) : Report × Session :=
  let journal := noteEnding before ending
  (.ofJournals (ending.elim .unfinished .ended) m.output before journal,
    { store := m.store, journal, depth := m.depthLeft })

/-- Reads a text and runs it in the given way. -/
def runWith (go : Machine → Machine × Option Ending) (s : Session) (source : String) :
    Report × Session :=
  match s.read source with
  | .error refusal => refusal
  | .ok r =>
    let (m, ending) := go r.machine
    conclude r.journal m ending

/-- Reads a text and runs it by the rules of the language, for at most `fuel` steps. -/
def run (settings : Settings) (fuel : Nat) (s : Session) (source : String) : Report × Session :=
  s.runWith (·.run settings fuel) source

/-- Reads a text and runs it on a host, for at most `fuel` steps.  Nothing is left of a text that the
host has no room to read. -/
def runOn (host : Host) (settings : Settings) (fuel : Nat) (s : Session) (source : String) :
    Report × Session :=
  if host.CanRead source then s.runWith (host.run settings fuel) source
  else
    (.ofJournals (.ended (.broken .stackExhausted)) "" s.page s.page, { s with journal := s.page })

/-- The global names and their values, in the order of the names. -/
def globals (s : Session) : List (String × Value) :=
  (s.store.scopes.bindings Store.globals.scope).mergeSort fun a b => a.1 ≤ b.1

end Session
end LoxScript
