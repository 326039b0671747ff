import LoxScript.Editor
import LoxScript.Main
import LoxScript.Proofs.Binding.Agreement
import LoxScript.Proofs.Binding.Distances
import LoxScript.Proofs.Binding.Rejection
import LoxScript.Proofs.Command.Outcome
import LoxScript.Proofs.Control.Globals
import LoxScript.Proofs.Control.Returns
import LoxScript.Proofs.Cursor.Ending
import LoxScript.Proofs.Editor.Markers
import LoxScript.Proofs.Expansion.Programs
import LoxScript.Proofs.Joined.Session
import LoxScript.Proofs.Lexical.Simulation
import LoxScript.Proofs.Machine.Limit
import LoxScript.Proofs.Machine.Runs
import LoxScript.Proofs.Objects.Links
import LoxScript.Proofs.Objects.Receiver
import LoxScript.Proofs.Objects.Super
import LoxScript.Proofs.Outline.Text
import LoxScript.Proofs.Printed.Programs
import LoxScript.Proofs.Recovery.Local
import LoxScript.Proofs.Scope.Forest
import LoxScript.Proofs.Session.Balance
import LoxScript.Proofs.Token.Respaced
import LoxScript.Syntax.Uses
import LoxScript.Proofs.Surface.Plain
