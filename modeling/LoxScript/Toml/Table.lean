import LoxScript.Toml.Value

/-!
Tables under construction.

A table may be written in several places of a document, under rules that say which places may still
add to it.  A table is sealed once a heading has declared it, or once the section in which dotted
keys have made it is over; neither another heading nor a dotted key may then go through it again.
Values are never added to.
-/

namespace LoxScript
namespace Toml

inductive Node where
  | leaf (v : Value)
  | table (isSealed : Bool) (entries : List (String × Node))
  /-- An array that headings append to: its last table, and those before it. -/
  | tables (earlier : List (List (String × Node))) (last : List (String × Node))
deriving Inhabited

abbrev Entries := List (String × Node)

abbrev Path := List String

namespace Entries

def replace (k : String) (n : Node) : Entries → Entries
  | [] => [(k, n)]
  | (j, m) :: rest => if j = k then (k, n) :: rest else (j, m) :: replace k n rest

/-- Applies a change to the table at a path, which is made if it is missing.  Headings and keys of a
document go on in the last table of an array, keys of an inline table do not. -/
def change (enterArrays : Bool) (f : Entries → Option Entries) : Path → Entries → Option Entries
  | [], es => f es
  | k :: path, es =>
    match es.lookup k with
    | none => (change enterArrays f path []).map fun inner => es.replace k (.table false inner)
    | some (.table isSealed inner) =>
      (change enterArrays f path inner).map fun inner => es.replace k (.table isSealed inner)
    | some (.tables earlier last) =>
      if enterArrays then
        (change enterArrays f path last).map fun last => es.replace k (.tables earlier last)
      else none
    | some (.leaf _) => none

def node? : Path → Entries → Option Node
  | [], _ => none
  | [k], es => es.lookup k
  | k :: path, es =>
    match es.lookup k with
    | some (.table _ inner) => node? path inner
    | some (.tables _ last) => node? path last
    | _ => none

/-- Adds a value under a key that is not there yet. -/
def add (k : String) (v : Value) (es : Entries) : Option Entries :=
  if (es.lookup k).isSome then none else some (es ++ [(k, .leaf v)])

/-- What the heading of a table does to the table around it. -/
def declareTable (k : String) (es : Entries) : Option Entries :=
  match es.lookup k with
  | none => some (es.replace k (.table true []))
  | some (.table false inner) => some (es.replace k (.table true inner))
  | _ => none

/-- What a heading that appends to an array does to the table around it. -/
def appendTable (k : String) (es : Entries) : Option Entries :=
  match es.lookup k with
  | none => some (es.replace k (.tables [] []))
  | some (.tables earlier last) => some (es.replace k (.tables (earlier ++ [last]) []))
  | _ => none

def sealTable (k : String) (es : Entries) : Option Entries :=
  match es.lookup k with
  | some (.table _ inner) => some (es.replace k (.table true inner))
  | _ => some es

end Entries

mutual

def Node.toValue : Node → Value
  | .leaf v => v
  | .table _ entries => .table (toValues entries)
  | .tables earlier last => .array (toTables earlier ++ [.table (toValues last)])

def toValues : List (String × Node) → List (String × Value)
  | [] => []
  | (k, n) :: rest => (k, n.toValue) :: toValues rest

def toTables : List (List (String × Node)) → List Value
  | [] => []
  | es :: rest => .table (toValues es) :: toTables rest

end

end Toml
end LoxScript
