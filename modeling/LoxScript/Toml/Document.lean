import LoxScript.Toml.Read

/-!
Configuration documents.

A document is a sequence of lines: keys with values, and headings that say which table the keys
after them belong to.
-/

namespace LoxScript
namespace Toml
open Prefix

/-- A document read so far. -/
structure Document where
  entries : Entries := []
  /-- The table that keys belong to. -/
  home : Path := []
  /-- The tables that dotted keys of the section have gone through. -/
  trail : List Path := []
deriving Inhabited

namespace Document

/-- Applies a change to the table around the last part of a path. -/
def changeAt (d : Document) (path : Path) (f : String → Entries → Option Entries) :
    Option Entries :=
  match path.getLast? with
  | none => none
  | some k => d.entries.change true (f k) path.dropLast

/-- Ends the section: the tables made by its dotted keys are sealed. -/
def endSection (d : Document) : Document :=
  let entries := d.trail.foldl (fun es path =>
    (({ d with entries := es }).changeAt path Entries.sealTable).getD es) d.entries
  { d with entries, trail := [] }

/-- A heading begins a section. -/
def beginSection (d : Document) (path : Path) (f : String → Entries → Option Entries) :
    Option Document :=
  (d.endSection.changeAt path f).map fun entries =>
    { entries, home := path, trail := [] }

/-- A table that keys may not go through: a heading has declared it, or the section of its keys is
over. -/
def isSealedAt (d : Document) (path : Path) : Bool :=
  match d.entries.node? path with
  | some (.table isSealed _) => isSealed
  | some (.tables _ _) => true
  | _ => false

/-- The tables on the way to a key, from the section's own one on, without that one. -/
def waypoints (parents : Path) : List Path :=
  (List.range parents.length).map fun i => parents.take (i + 1)

def addValue (d : Document) (k : String × Path) (v : Value) : Option Document :=
  let (parents, last) := splitKey k
  let way := (waypoints parents).map (d.home ++ ·)
  if way.any d.isSealedAt then none
  else
    (d.entries.change true (Entries.add last v) (d.home ++ parents)).map fun entries =>
      { d with entries, trail := d.trail ++ way }

/-- A line of a document, without its newline. -/
def statement (d : Document) : (cs : List Char) → Except Fault (Prefix false cs Document)
  | [] => done d []
  | '\n' :: rest => done d ('\n' :: rest)
  | '#' :: rest => done d ('#' :: rest)
  | '[' :: '[' :: rest =>
    expect <| weaken <| behind <| behind <| andThen (some (run isBlank rest)) fun _ rest _ =>
    andThen (key rest) fun k rest _ =>
    andThen (text ']' [']'] rest) fun _ rest _ =>
      match d.beginSection (k.1 :: k.2) Entries.appendTable with
      | none => none
      | some d => done d rest
  | '[' :: rest =>
    expect <| weaken <| behind <| andThen (some (run isBlank rest)) fun _ rest _ =>
    andThen (key rest) fun k rest _ =>
    andThen (exactly ']' rest) fun _ rest _ =>
      match d.beginSection (k.1 :: k.2) Entries.declareTable with
      | none => none
      | some d => done d rest
  | cs =>
    weaken <| andThen (keyValue cs) fun (k, v) rest _ =>
      match d.addValue k v with
      | none => .error .malformed
      | some d => done d rest

/-- A line of a document with the blanks and the comment around it. -/
def line (d : Document) (cs : List Char) : Except Fault (Prefix false cs Document) :=
  andThen (pure (run isBlank cs)) fun _ rest _ =>
  andThen (d.statement rest) fun d rest _ => map (expect (lineGap rest)) fun _ => d

/-- The lines of a document. -/
def lines (d : Document) (cs : List Char) : Except Fault Document :=
  match d.line cs with
  | .error e => .error e
  | .ok p =>
    match _h : p.rest with
    | [] => .ok p.value
    | c :: rest => if c = '\n' then lines p.value rest else .error .malformed
termination_by cs.length
decreasing_by
  have := p.shrinks.le
  simp only [_h, List.length_cons] at this
  omega

end Document

/-- Every line feed after a carriage return stands for both. -/
def joinLineEnds : List Char → List Char
  | [] => []
  | '\r' :: '\n' :: rest => '\n' :: joinLineEnds rest
  | c :: rest => c :: joinLineEnds rest

/-- The entries of a document. -/
def parse (source : String) : Except Fault (List (String × Value)) :=
  (Document.lines {} (joinLineEnds source.toList)).map fun d => toValues d.entries

end Toml
end LoxScript
