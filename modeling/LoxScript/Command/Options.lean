import LoxScript.Command.Arguments
import LoxScript.Files.Tree
import LoxScript.Machine.State
import LoxScript.Toml.Document

/-!
What the arguments and the config file together ask for.

An argument wins over the config file, which is looked for beside the script unless one is named.
A config file that is not there asks for nothing.  Some mistakes have no message: the command breaks
down on them.
-/

namespace LoxScript
namespace Command

structure Options where
  script : Option Path
  maxCallDepth : Nat
  debug : Bool
deriving Repr, DecidableEq, Inhabited

/-- What is wrong with the configuration. -/
inductive ConfigError where
  | invalidFile (path : Path)
  | depthNotInteger
  | depthTooSmall
deriving Repr, DecidableEq, Inhabited

def ConfigError.message : ConfigError → String
  | invalidFile path => "invalid config file " ++ path.text ++ ": <toml error>"
  | depthNotInteger => "interpreter.max_call_depth must be an integer"
  | depthTooSmall => "max_call_depth must be at least 1"

/-- What the command breaks down on. -/
inductive Breakdown where
  /-- The script, the config file or the input is not text. -/
  | undecodable
  /-- It cannot be told whether there is a config file. -/
  | configOutOfReach (e : ReadError)
  /-- An integer in the config file has more digits than are read. -/
  | configIntegerTooLong
  /-- The depth to compare with the least one is no number. -/
  | depthNotGiven
  /-- The path of the script is none that a file can have. -/
  | scriptPathInvalid
  | host (f : HostFault)
deriving Repr, DecidableEq, Inhabited

/-- Why there are no options. -/
inductive OptionsError where
  | config (e : ConfigError)
  | broken (b : Breakdown)
deriving Repr, DecidableEq, Inhabited

namespace Arguments

/-- An argument that is empty names nothing. -/
def path? (argument : Option String) : Option Path :=
  (argument.filter fun s => !s.isEmpty).map Path.ofString

def scriptPath? (a : Arguments) : Option Path := path? a.script

/-- Where the config file is. -/
def configPath (a : Arguments) : Path :=
  match path? a.config with
  | some p => p
  | none => ((a.scriptPath?.map Path.parent).getD ⟨"", []⟩).child "lox.toml"

end Arguments

namespace Options

def defaultDepth : Int := 1000

/-- The entries of the config file, given what came of reading it. -/
def configEntries (path : Path) (content : Except ReadError ByteArray) :
    Except OptionsError (List (String × Toml.Value)) :=
  match content with
  | .error e => if e.meansAbsent then .ok [] else .error (.broken (.configOutOfReach e))
  | .ok bytes =>
    match String.fromUTF8? bytes with
    | none => .error (.broken .undecodable)
    | some text =>
      match Toml.parse text with
      | .error .malformed => .error (.config (.invalidFile path))
      | .error .integerTooLong => .error (.broken .configIntegerTooLong)
      | .ok entries => .ok entries

/-- The depth that the config file asks for. -/
def configDepth (entries : List (String × Toml.Value)) : Except ConfigError (Option Int) :=
  match entries.lookup "interpreter" with
  | some (.table inner) =>
    match inner.lookup "max_call_depth" with
    | some (.integer n) => .ok (some n)
    | some _ => .error .depthNotInteger
    | none => .ok none
  | _ => .ok none

def configDebug (entries : List (String × Toml.Value)) : Bool :=
  (entries.lookup "debug").any (·.isTruthy)

/-- The depth that is asked for; an argument wins over the config file. -/
def depth (argument : Option DepthArgument) (configured : Option Int) : Except OptionsError Int :=
  match argument with
  | some (.number n) => .ok n
  | some .dashes => .error (.broken .depthNotGiven)
  | none => .ok (configured.getD defaultDepth)

/-- The options, given what came of reading the config file. -/
def ofArguments (a : Arguments) (content : Except ReadError ByteArray) :
    Except OptionsError Options := do
  let entries ← configEntries a.configPath content
  let configured ← (configDepth entries).mapError .config
  let depth ← depth a.maxCallDepth configured
  if depth < 1 then throw (.config .depthTooSmall)
  return { script := a.scriptPath?, maxCallDepth := depth.toNat,
           debug := configDebug entries || a.debug }

end Options
end Command
end LoxScript
