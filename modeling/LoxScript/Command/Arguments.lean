import LoxScript.Text.Integer
import LoxScript.Text.Quoted

/-!
Command-line arguments.

An option may be written by any beginning of its name that no other option shares, with its value
behind an equals sign or as the next argument.  What follows two dashes is no option; two dashes
behind an equals sign are no value.

Arguments are read as argparse reads them up to release 3.11.8.  Later releases take two dashes
behind an equals sign for a value, and deal in another way with what follows `-h` in one word.
-/

namespace LoxScript
namespace Command

/-- The options of the command. -/
inductive Flag where
  | help | config | maxCallDepth | debug
deriving Repr, DecidableEq, Inhabited

namespace Flag

/-- The option as complaints name it. -/
def text : Flag → String
  | help => "-h/--help"
  | config => "--config"
  | maxCallDepth => "--max-call-depth"
  | debug => "--debug"

/-- The long names, in the order in which the help lists them. -/
def names : List (String × Flag) :=
  [("--help", help), ("--config", config), ("--max-call-depth", maxCallDepth), ("--debug", debug)]

end Flag

/-- What is wrong with the arguments. -/
inductive UsageError where
  | ambiguous (argument : String) (names : List String)
  | valueMissing (f : Flag)
  | valueIgnored (f : Flag) (value : String)
  | notInteger (f : Flag) (value : String)
  | unrecognized (arguments : List String)
deriving Repr, DecidableEq, Inhabited

def UsageError.message : UsageError → String
  | ambiguous argument names =>
    "ambiguous option: " ++ argument ++ " could match " ++ ", ".intercalate names
  | valueMissing f => "argument " ++ f.text ++ ": expected one argument"
  | valueIgnored f value =>
    "argument " ++ f.text ++ ": ignored explicit argument " ++ quoted value
  | notInteger f value => "argument " ++ f.text ++ ": invalid int value: " ++ quoted value
  | unrecognized arguments => "unrecognized arguments: " ++ " ".intercalate arguments

/-- What an argument is taken for. -/
inductive Word where
  | plain (text : String)
  /-- An option, with the value written behind its equals sign. -/
  | flag (f : Flag) (value : Option String)
  /-- The short option for help with characters run on to it. -/
  | shortHelp (tail : String)
  | unknown (text : String)
  /-- The first two dashes that stand alone. -/
  | dashes
deriving Repr, DecidableEq, Inhabited

namespace Word

/-- A minus and digits, with a point among them or not; such an argument is no option. -/
def isNegativeNumber (text : String) : Bool :=
  match text.toList with
  | '-' :: rest =>
    -- a line end after the number does not count
    let rest := if rest.getLast? = some '\n' then rest.dropLast else rest
    let isDigit (c : Char) := (Integer.digit? c).isSome
    match rest.span isDigit with
    | (whole, []) => !whole.isEmpty
    | (_, '.' :: fraction) => !fraction.isEmpty && fraction.all isDigit
    | _ => false
  | _ => false

/-- Splits an argument before its first equals sign. -/
def splitValue (text : String) : String × Option String :=
  match text.toList.span (· ≠ '=') with
  | (name, '=' :: value) => (String.ofList name, some (String.ofList value))
  | _ => (text, none)

/-- An argument that is none of the options but begins with a dash. -/
def stray (text : String) : Word :=
  if isNegativeNumber text || text.contains ' ' then plain text else unknown text

/-- Tells what an argument in front of the two dashes is. -/
def ofString (text : String) : Except UsageError Word :=
  if !text.startsWith "-" || text == "-" then .ok (plain text)
  else if text == "-h" then .ok (flag .help none)
  else
    match splitValue text with
    | ("-h", some value) => .ok (shortHelp value)
    | (name, value) =>
      if text.startsWith "--" then
        match Flag.names.lookup name with
        | some f => .ok (flag f value)
        | none =>
          match Flag.names.filter fun (long, _) => long.startsWith name with
          | [] => .ok (stray text)
          | [(_, f)] => .ok (flag f value)
          | several => .error (.ambiguous text (several.map (·.1)))
      else if text.startsWith "-h" then .ok (shortHelp (text.drop 2).toString)
      else .ok (stray text)

/-- Tells what each argument is. -/
def ofStrings : List String → Except UsageError (List Word)
  | [] => .ok []
  | "--" :: rest => .ok (dashes :: rest.map plain)
  | text :: rest => do
    let w ← ofString text
    return w :: (← ofStrings rest)

end Word

/-- What the option for the depth was given. -/
inductive DepthArgument where
  | number (n : Int)
  /-- Two dashes, which are no value. -/
  | dashes
deriving Repr, DecidableEq, Inhabited

/-- What the arguments ask for. -/
structure Arguments where
  script : Option String := none
  config : Option String := none
  maxCallDepth : Option DepthArgument := none
  debug : Bool := false
deriving Repr, DecidableEq, Inhabited

/-- The outcome of reading the arguments. -/
inductive Request where
  | run (a : Arguments)
  | help
  | wrong (e : UsageError)
deriving Repr, DecidableEq, Inhabited

namespace Request

/-- Characters run on to the short option for help, of which each must be that option again. -/
def ofShortHelp : List Char → Request
  | ['h'] => help
  | 'h' :: tail => ofShortHelp tail
  | tail => wrong (.valueIgnored .help (String.ofList tail))

/-- Gives an option its value. -/
def setValue (a : Arguments) (f : Flag) (value : String) : Except UsageError Arguments :=
  match f with
  | .maxCallDepth =>
    if value = "--" then .ok { a with maxCallDepth := some .dashes }
    else
      match Integer.parse? value with
      | some n => .ok { a with maxCallDepth := some (.number n) }
      | none => .error (.notInteger f value)
  | _ => .ok { a with config := if value = "--" then none else some value }

/-- Takes the arguments from left to right.  `isOpen` says that no script has been named, `leftOver`
holds what nothing asked for. -/
def ofWords (a : Arguments) (isOpen : Bool) (leftOver : List String) : List Word → Request
  | [] => if leftOver.isEmpty then run a else wrong (.unrecognized leftOver)
  | .plain text :: rest =>
    if isOpen then
      match rest with
      -- the dashes right behind the script are no argument
      | .dashes :: rest => ofWords { a with script := some text } false leftOver rest
      | rest => ofWords { a with script := some text } false leftOver rest
    else ofWords a isOpen (leftOver ++ [text]) rest
  | .dashes :: rest =>
    if isOpen then
      match rest with
      | .plain text :: rest => ofWords { a with script := some text } false leftOver rest
      | rest => ofWords a false leftOver rest
    else ofWords a isOpen (leftOver ++ ["--"]) rest
  | .unknown text :: rest => ofWords a isOpen (leftOver ++ [text]) rest
  | .shortHelp tail :: _ => ofShortHelp tail.toList
  | .flag .help none :: _ => help
  | .flag .help (some value) :: _ => wrong (.valueIgnored .help value)
  | .flag .debug none :: rest => ofWords { a with debug := true } isOpen leftOver rest
  | .flag .debug (some value) :: _ => wrong (.valueIgnored .debug value)
  | .flag f (some value) :: rest =>
    match setValue a f value with
    | .ok a => ofWords a isOpen leftOver rest
    | .error e => wrong e
  | .flag f none :: .plain value :: rest =>
    match setValue a f value with
    | .ok a => ofWords a isOpen leftOver rest
    | .error e => wrong e
  | .flag f none :: _ => wrong (.valueMissing f)

def ofStrings (arguments : List String) : Request :=
  match Word.ofStrings arguments with
  | .ok words => ofWords {} true [] words
  | .error e => wrong e

end Request
end Command
end LoxScript
