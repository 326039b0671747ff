import LoxScript.Command.Run
import Std.Time.DateTime.Timestamp

/-!
The program: files, streams and the clock.

A program text runs in slices, so that what it prints appears as it goes and the clock moves on.
-/

namespace LoxScript
namespace Main

/-- The content of a file. -/
def readFile (path : Path) : IO (Except ReadError ByteArray) := do
  try return .ok (← IO.FS.readBinFile path.text)
  catch
  | .inappropriateType _ 21 _ => return .error .isDirectory
  | .inappropriateType .. => return .error .notDirectory
  | .invalidArgument .. => return .error .nameTooLong
  | .permissionDenied .. => return .error .denied
  | _ => return .error .missing

def write (stream : IO.FS.Stream) (text : String) : IO Unit := do
  unless text.isEmpty do
    stream.putStr text
    stream.flush

/-- Seconds since the beginning of the year 1970. -/
def now : IO Float := do
  let t ← Std.Time.Timestamp.now
  return Float.ofInt t.toNanosecondsSinceUnixEpoch.val / 1e9

/-- The number of steps between two readings of the clock. -/
def slice : Nat := 10000

/-- Nested calls take up no room on the stack here, but the limit on them is looked at as ever. -/
def host : Host := {}

/-- Runs a program to its end and writes what it prints. -/
partial def runToEnd (maxCallDepth : Nat) (m : Machine) : IO (Machine × Option Ending) := do
  let time ← now
  let (m, ending) := m.run { maxCallDepth, clock := fun _ => time } slice
  write (← IO.getStdout) m.output
  let m := { m with output := "" }
  if ending.isSome then return (m, ending) else runToEnd maxCallDepth m

/-- Runs a text and writes what comes of it. -/
def runText (o : Command.Options) (s : Session) (source : String) : IO (Verdict × Session) := do
  write (← IO.getStderr) (Command.outline host o source)
  let (report, s) ← match s.read source with
    | .error refusal => pure refusal
    | .ok r => do
      let (m, ending) ←
        if host.CanRaise o.maxCallDepth then runToEnd o.maxCallDepth r.machine
        else pure (r.machine, some (.broken .limitTooHigh))
      pure (Session.conclude r.journal m ending)
  write (← IO.getStderr) report.errors
  return (report.verdict, s)

/-- The next line of the input, unless it is no text. -/
def readLine : IO (Option String) := do
  try return some (← (← IO.getStdin).getLine)
  catch _ => return none

/-- Asks for lines and runs them, until there are no more. -/
partial def prompt (o : Command.Options) (s : Session) : IO Command.Outcome := do
  write (← IO.getStdout) Command.Prompt.text
  let some line ← readLine | return .broken .undecodable
  if line.isEmpty then
    write (← IO.getStdout) "\n"
    return .exited Command.statusOk
  let (verdict, s) ← runText o s (line.dropSuffix "\n").toString
  match Command.Prompt.ends? verdict with
  | some outcome => return outcome
  | none => prompt o s

def perform : Command.Task → IO Command.Outcome
  | .nothing t => do
    write (← IO.getStdout) t.output
    write (← IO.getStderr) t.errors
    return t.outcome
  | .script o source => do
    let (verdict, _) ← runText o {} source
    return .ofVerdict verdict
  | .prompt o => prompt o {}

/-- What is said of an outcome that has not been explained yet. -/
def explanation : Command.Outcome → String
  | .broken .undecodable => "error: the file or the input is not UTF-8 text\n"
  | .broken (.configOutOfReach e) => "error: cannot look for the config file: " ++ e.message ++ "\n"
  | .broken .configIntegerTooLong => "error: an integer in the config file has too many digits\n"
  | .broken .depthNotGiven => "error: the option for the call depth has no number\n"
  | .broken .scriptPathInvalid => "error: the path of the script holds a NUL\n"
  | .broken (.host .limitTooHigh) => "error: the call depth is too great for the stack\n"
  | .broken (.host .stackExhausted) => "error: the stack has run out\n"
  | .unreachable (.unbound x) => "error: '" ++ x ++ "' is used before it is declared\n"
  | .unreachable .detached => "error: a variable lies outside of its scopes\n"
  | _ => ""

end Main
end LoxScript

open LoxScript in
def main (arguments : List String) : IO UInt32 := do
  let task ← Command.Task.ofRequest Main.readFile (Command.Request.ofStrings arguments)
  let outcome ← Main.perform task
  Main.write (← IO.getStderr) (Main.explanation outcome)
  return outcome.status.toUInt32
