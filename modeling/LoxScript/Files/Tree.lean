import LoxScript.Files.Path

/-!
Files in directories, and what comes of reading one.
-/

namespace LoxScript

/-- Why a file cannot be read. -/
inductive ReadError where
  | missing
  | notDirectory
  | isDirectory
  | nameTooLong
  | denied
deriving Repr, DecidableEq, Inhabited

def ReadError.message : ReadError → String
  | missing => "No such file or directory"
  | notDirectory => "Not a directory"
  | isDirectory => "Is a directory"
  | nameTooLong => "File name too long"
  | denied => "Permission denied"

/-- Whether nothing that could be read is there; otherwise it cannot be told. -/
def ReadError.meansAbsent : ReadError → Bool
  | missing | notDirectory | isDirectory => true
  | nameTooLong | denied => false

/-- A file or a directory. -/
inductive FileTree where
  | file (content : ByteArray)
  | directory (entries : List (String × FileTree))
deriving Inhabited

namespace FileTree

def maxNameBytes : Nat := 255

def maxPathBytes : Nat := 4095

/-- Puts a file or a directory into one, with the directories on the way to it. -/
def insert (item : FileTree) : List String → List (String × FileTree) → List (String × FileTree)
  | [], entries => entries
  | [name], entries => entries.filter (·.1 ≠ name) ++ [(name, item)]
  | name :: path, entries =>
    let inner := match entries.lookup name with
      | some (.directory inner) => inner
      | _ => []
    entries.filter (·.1 ≠ name) ++ [(name, .directory (insert item path inner))]

/-- The content of the file at a path that starts in the first of the given directories; each of
them lies in the next.  The directories around those are taken to be empty. -/
def readFrom (directories : List (List (String × FileTree))) :
    List String → Except ReadError ByteArray
  | [] => .error .isDirectory
  | ".." :: path => readFrom directories.tail path
  | name :: path =>
    if name.utf8ByteSize > maxNameBytes then .error .nameTooLong
    else
      match (directories.headD []).lookup name with
      | none => .error .missing
      | some (.directory inner) => readFrom (inner :: directories) path
      | some (.file content) => if path.isEmpty then .ok content else .error .notDirectory

/-- The content of a file, where relative paths start in the given directory. -/
def read (here : List (String × FileTree)) (p : Path) : Except ReadError ByteArray :=
  if !p.isValid then .error .missing
  else if p.text.utf8ByteSize > maxPathBytes then .error .nameTooLong
  else readFrom (if p.anchor.isEmpty then [here] else []) p.parts

end FileTree
end LoxScript
