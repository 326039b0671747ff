import LoxScript.Command.Options
import LoxScript.Session
import LoxScript.Syntax.Outline
import LoxScript.Text.Lines

/-!
The command: a script or a prompt, and the exit status.

Files are bytes, of which the command makes text itself.  The input comes as lines; it is left to
the host how it makes these of bytes, and how many it can make before it comes to bytes that are no
text.
-/

namespace LoxScript
namespace Command

/-- How the command ends. -/
inductive Outcome where
  | exited (status : Nat)
  /-- The arguments were all that was looked at. -/
  | answered (status : Nat)
  | broken (b : Breakdown)
  | unreachable (f : ReachFault)
  /-- The steps allowed for a program ran out. -/
  | unfinished
deriving Repr, DecidableEq, Inhabited

/-- The exit status of the command. -/
def Outcome.status : Outcome → Nat
  | exited status => status
  | answered status => status
  | broken _ => 1
  | unreachable _ => 1
  | unfinished => 1

/-- What the command writes, and how it ends. -/
structure Transcript where
  output : String
  errors : String
  outcome : Outcome
deriving Repr, DecidableEq, Inhabited

/-- The exit statuses. -/
def statusOk : Nat := 0
def statusArguments : Nat := 2
def statusUsage : Nat := 64
def statusData : Nat := 65
def statusNoInput : Nat := 66
def statusSoftware : Nat := 70

def usage : String :=
  "usage: lox [-h] [--config FILE] [--max-call-depth N] [--debug] [script]\n"

def helpText : String :=
  usage ++
  "\n" ++
  "Tree-walking interpreter for the Lox scripting language\n" ++
  "\n" ++
  "positional arguments:\n" ++
  "  script              Script to run (default: interactive prompt)\n" ++
  "\n" ++
  "options:\n" ++
  "  -h, --help          show this help message and exit\n" ++
  "  --config FILE       Config file (default: auto-discover lox.toml)\n" ++
  "  --max-call-depth N  Maximum nesting of function calls (default: 1000)\n" ++
  "  --debug             Dump AST to stderr\n"

/-- The settings for running programs, apart from the options. -/
structure Machinery where
  clock : Nat → Float
  /-- The number of steps allowed for a program. -/
  fuel : Nat
  host : Host := {}

def Machinery.settings (k : Machinery) (o : Options) : Settings :=
  { maxCallDepth := o.maxCallDepth, clock := k.clock }

/-- The outline of a text, if it is asked for, and if the host can read the text. -/
def outline (host : Host) (o : Options) (source : String) : String :=
  if o.debug ∧ host.CanRead source then
    Outline.render (Outline.ofProgram (Reading.ofText source).statements)
  else ""

/-- The exit status that follows from a report. -/
def Outcome.ofVerdict : Verdict → Outcome
  | .refused => exited statusData
  | .ended .finished => exited statusOk
  | .ended (.failed _) => exited statusSoftware
  | .ended (.unreachable f) => unreachable f
  | .ended (.broken f) => broken (.host f)
  | .unfinished => unfinished

/-- Runs the text of a script. -/
def runScript (k : Machinery) (o : Options) (source : String) : Transcript :=
  let report := (Session.runOn k.host (k.settings o) k.fuel {} source).1
  { output := report.output
    errors := outline k.host o source ++ report.errors
    outcome := .ofVerdict report.verdict }

/-- What the prompt reads. -/
structure Input where
  lines : List String
  /-- The input ends behind these lines; otherwise it goes on with bytes that are no text. -/
  isText : Bool := true

/-- The lines of a text, without the newlines that end them; the last may lack its own. -/
def Input.linesOf : List Char → List (List Char)
  | [] => []
  | c :: rest =>
    if c = '\n' then [] :: linesOf rest
    else
      match linesOf rest with
      | [] => [[c]]
      | line :: lines => (c :: line) :: lines

/-- The input that is this text. -/
def Input.ofText (text : String) : Input :=
  { lines := (linesOf text.toList).map String.ofList }

namespace Prompt

def text : String := "> "

/-- One line at the prompt: what is written, and the session after it. -/
def enter (k : Machinery) (o : Options) (s : Session) (line : String) : Report × Session :=
  let (report, s) := s.runOn k.host (k.settings o) k.fuel line
  ({ report with errors := outline k.host o line ++ report.errors }, s)

/-- Whether the next line is still asked for: a mistake in one line does not end the prompt. -/
def ends? : Verdict → Option Outcome
  | .ended (.unreachable f) => some (.unreachable f)
  | .ended (.broken f) => some (.broken (.host f))
  | .unfinished => some .unfinished
  | _ => none

/-- What comes of asking for a line when there are no more. -/
def atEnd (isText : Bool) : Transcript :=
  if isText then { output := text ++ "\n", errors := "", outcome := .exited statusOk }
  else { output := text, errors := "", outcome := .broken .undecodable }

/-- A prompt that is given the lines one after the other. -/
def run (k : Machinery) (o : Options) (isText : Bool) (s : Session) : List String → Transcript
  | [] => atEnd isText
  | line :: rest =>
    let (report, s) := enter k o s line
    let before := text ++ report.output
    match ends? report.verdict with
    | some outcome => { output := before, errors := report.errors, outcome }
    | none =>
      let more := run k o isText s rest
      { more with output := before ++ more.output, errors := report.errors ++ more.errors }

end Prompt

/-- What is left to do when the arguments and the files have been looked at. -/
inductive Task where
  | nothing (t : Transcript)
  | script (o : Options) (source : String)
  | prompt (o : Options)

/-- A command that breaks down before it has written anything. -/
def Task.ofBreakdown (b : Breakdown) : Task :=
  .nothing { output := "", errors := "", outcome := .broken b }

/-- The text of a script, or what the command writes if there is none. -/
def Task.ofScript (o : Options) (path : Path) (content : Except ReadError ByteArray) : Task :=
  if !path.isValid then .ofBreakdown .scriptPathInvalid
  else
    match content with
    | .error e =>
      .nothing
        { output := ""
          errors := "error: cannot read " ++ path.text ++ ": " ++ e.message ++ "\n"
          outcome := .exited statusNoInput }
    | .ok bytes =>
      match String.fromUTF8? bytes with
      | none => .ofBreakdown .undecodable
      | some text => .script o (String.ofList (Lines.unify text.toList))

/-- What a request comes to, given a way to read files. -/
def Task.ofRequest {m : Type → Type} [Monad m] (read : Path → m (Except ReadError ByteArray)) :
    Request → m Task
  | .help => pure (.nothing { output := helpText, errors := "", outcome := .answered statusOk })
  | .wrong e =>
    pure (.nothing
      { output := ""
        errors := usage ++ "lox: error: " ++ e.message ++ "\n"
        outcome := .answered statusArguments })
  | .run a => do
    match Options.ofArguments a (← read a.configPath) with
    | .error (.config e) =>
      return .nothing
        { output := "", errors := "error: " ++ e.message ++ "\n", outcome := .exited statusUsage }
    | .error (.broken b) => return .ofBreakdown b
    | .ok o =>
      match o.script with
      | some path => return .ofScript o path (← read path)
      | none => return .prompt o

/-- Does what is left to do; the input is for the prompt. -/
def Task.run (k : Machinery) (input : Input) : Task → Transcript
  | nothing t => t
  | script o source => runScript k o source
  | prompt o => Prompt.run k o input.isText {} input.lines

/-- Runs the command. -/
def run (k : Machinery) (read : Path → Except ReadError ByteArray) (input : Input)
    (arguments : List String) : Transcript :=
  (Id.run (Task.ofRequest (fun path => pure (read path)) (Request.ofStrings arguments))).run k input

end Command
end LoxScript
