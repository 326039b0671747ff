import LoxScript.Machine.Step

/-!
Running programs on a host.

A host has a stack for what is nested in a program, when that is read and when it runs.  While it
runs, the limit of the stack is raised to fit the limit on nested calls, which cannot be done if that
one is too high.  The room that is allowed for a call does not always do, so the stack may run out
before the limit on calls is reached.  Then a call in progress fails as if it went too deep, or if
there is none, the run breaks off.
-/

namespace LoxScript

/-- What is known of a host: how its stack is used. -/
structure Host where
  /-- How deep the stack may get as long as no program runs. -/
  stackLimit : Nat := 1000
  /-- How deep it gets while a text is read, and its outline written if that is asked for. -/
  readingDepth : String → Nat := fun _ => 0
  /-- How deep it gets in a run from the given state, in the step after so many others. -/
  stackDepth : Machine → Nat → Nat := fun _ _ => 0
  /-- If it runs out in that step, under the given limit: the number of calls, innermost first, that
  are left without having the room to fail. -/
  cramped : Nat → Machine → Nat → Nat := fun _ _ _ => 0
deriving Inhabited

namespace Host

/-- There is room on the stack to read the text. -/
def CanRead (host : Host) (source : String) : Prop := host.readingDepth source ≤ host.stackLimit

instance (host : Host) (source : String) : Decidable (host.CanRead source) :=
  inferInstanceAs (Decidable (_ ≤ _))

/-- The room on the stack that is allowed for a call. -/
def callRoom : Nat := 24

/-- The highest limit that a stack can be given. -/
def maxStackLimit : Nat := 2147483647

/-- The limit of the stack while a program runs. -/
def raisedLimit (host : Host) (maxCallDepth : Nat) : Nat :=
  max host.stackLimit (maxCallDepth * callRoom + host.stackLimit)

/-- The stack can be given that limit. -/
def CanRaise (host : Host) (maxCallDepth : Nat) : Prop :=
  host.raisedLimit maxCallDepth ≤ maxStackLimit

instance (host : Host) (maxCallDepth : Nat) : Decidable (host.CanRaise maxCallDepth) :=
  inferInstanceAs (Decidable (_ ≤ _))

end Host

namespace Machine

/-- The parenthesis of a call with so many arguments, if the call can begin. -/
def begins? (settings : Settings) (m : Machine) (callee : Value) (count line : Nat) :
    Option Token :=
  match callee.callable? with
  | none => none
  | some callee =>
    if count = callee.arity ∧ m.depth < settings.maxCallDepth then
      some ⟨.symbol .rightParen, line⟩
    else none

/-- The parenthesis of the call that a step begins, if it begins one. -/
def callBegun? (settings : Settings) (m : Machine) : Option Token :=
  match m.focus with
  | .deliver callee (.callee line [] _ _) => m.begins? settings callee 0 line
  | .deliver _ (.argument line callee earlier [] _ _) =>
    m.begins? settings callee (earlier.length + 1) line
  | _ => none

end Machine

/-- A state of a run on a host. -/
structure Hosted where
  machine : Machine
  /-- The number of steps that have been taken. -/
  taken : Nat
  /-- The closing parentheses of the calls in progress, innermost first. -/
  parens : List Token
deriving Inhabited

namespace Hosted

/-- A run that is about to begin. -/
def start (m : Machine) : Hosted := { machine := m, taken := 0, parens := [] }

/-- The outcome of one step on a host. -/
inductive Step where
  | next (h : Hosted)
  | stop (h : Hosted) (e : Ending)
deriving Inhabited

/-- The calls in progress after a step that leads from one depth to another: those that were in
progress, with the one that the step begins or without the one that it ends. -/
def parensAfter (depth depth' : Nat) (calls parens : List Token) : List Token :=
  if depth < depth' then calls else if depth' < depth then parens.tail else parens

section
variable (host : Host) (settings : Settings) (first : Machine) (h : Hosted)

/-- There is room on the stack for the next step. -/
def HasRoom : Prop := host.stackDepth first h.taken ≤ host.raisedLimit settings.maxCallDepth

instance : Decidable (h.HasRoom host settings first) := inferInstanceAs (Decidable (_ ≤ _))

/-- The calls that can fail in the next step for want of room, innermost first. -/
def calls : List Token := (h.machine.callBegun? settings).toList ++ h.parens

/-- The call that fails if there is no room for the next step. -/
def failing? : Option Token :=
  (h.calls settings)[host.cramped (host.raisedLimit settings.maxCallDepth) first h.taken]?

/-- How a run ends that has no room for its next step. -/
def exhaustion : Ending :=
  match h.failing? host settings first with
  | some paren => .failed ⟨.stackOverflow, paren⟩
  | none => .broken .stackExhausted

/-- One step, as the rules of the language have it, if there is room. -/
def step : Step :=
  if h.HasRoom host settings first then
    let depth := h.machine.depth
    let calls := h.calls settings
    match h with
    | ⟨m, taken, parens⟩ =>
      match m.step settings with
      | .next m => .next ⟨m, taken + 1, parensAfter depth m.depth calls parens⟩
      | .stop m e => .stop ⟨m, taken, parens⟩ e
  else .stop h (h.exhaustion host settings first)

end

/-- The state in which a run ends, and how; or the state after the given number of steps. -/
def run (host : Host) (settings : Settings) (first : Machine) :
    Nat → Hosted → Hosted × Option Ending
  | 0, h => (h, none)
  | fuel + 1, h =>
    match h.step host settings first with
    | .next h => run host settings first fuel h
    | .stop h e => (h, some e)

end Hosted

/-- Runs a program on the host, whose stack is given a higher limit for that. -/
def Host.run (host : Host) (settings : Settings) (fuel : Nat) (m : Machine) :
    Machine × Option Ending :=
  if host.CanRaise settings.maxCallDepth then
    let (h, ending) := (Hosted.start m).run host settings m fuel
    (h.machine, ending)
  else (m, some (.broken .limitTooHigh))

end LoxScript
