import LoxScript.Machine.Step

/-!
Two runs that do the same, each at its own pace.

What one of them does in a step may take the other several.  If from states that belong together
both runs always come to states that belong together again, or to the same end, then whatever one
run has printed at its end and however it ends, so does the other.
-/

namespace LoxScript

/-- What comes of a step within a number of further ones. -/
def Step.run (settings : Settings) (fuel : Nat) : Step → Machine × Option Ending
  | next m => m.run settings fuel
  | stop m e => (m, some e)

/-- What follows comes to an end of that kind, with that output. -/
def Step.Ends (settings : Settings) (r : Step) (e : Ending) (output : String) : Prop :=
  ∃ n m, r.run settings n = (m, some e) ∧ m.output = output

/-- The run from this state comes to an end of that kind, with that output. -/
def Machine.Ends (settings : Settings) (m : Machine) (e : Ending) (output : String) : Prop :=
  ∃ n m', m.run settings n = (m', some e) ∧ m'.output = output

/-- After further steps of one run or the other, both are in states that belong together, or at the
same end. -/
inductive Step.Meet (settings : Settings) (R : Machine → Machine → Prop) : Step → Step → Prop
  | next {m m' : Machine} : R m m' → Meet settings R (.next m) (.next m')
  | stop {m m' : Machine} {e : Ending} : m.output = m'.output →
      Meet settings R (.stop m e) (.stop m' e)
  | left {m : Machine} {r : Step} : Meet settings R (m.step settings) r →
      Meet settings R (.next m) r
  | right {m : Machine} {r : Step} : Meet settings R r (m.step settings) →
      Meet settings R r (.next m)

section
variable {settings : Settings} {R : Machine → Machine → Prop}

theorem Machine.run_succ (settings : Settings) (m : Machine) (n : Nat) :
    m.run settings (n + 1) = (m.step settings).run settings n := by
  rw [Machine.run]
  cases m.step settings <;> rfl

theorem Machine.ends_of_step {m : Machine} {e : Ending} {output : String}
    (h : (m.step settings).Ends settings e output) : m.Ends settings e output := by
  obtain ⟨n, m', hrun, hout⟩ := h
  exact ⟨n + 1, m', (m.run_succ settings n).trans hrun, hout⟩

namespace Step.Meet

/-- The first run ends.  Each of its steps is answered by finitely many of the second. -/
theorem ends (hR : ∀ m m', R m m' → Meet settings R (m.step settings) (m'.step settings)) {n : Nat}
    {r r' : Step} (h : Meet settings R r r') {m : Machine} {e : Ending}
    (hrun : r.run settings n = (m, some e)) : r'.Ends settings e m.output := by
  induction n generalizing r r' with
  | zero =>
    induction h with
    | next | left => cases hrun
    | stop hout =>
      cases hrun
      exact ⟨0, _, rfl, hout.symm⟩
    | right _ ih => exact Machine.ends_of_step (ih hrun)
  | succ n ihn =>
    induction h with
    | @next m₁ m₂ h =>
      rw [Step.run, Machine.run_succ] at hrun
      exact Machine.ends_of_step (ihn (hR m₁ m₂ h) hrun)
    | stop hout =>
      cases hrun
      exact ⟨0, _, rfl, hout.symm⟩
    | left h _ =>
      rw [Step.run, Machine.run_succ] at hrun
      exact ihn h hrun
    | right _ ih => exact Machine.ends_of_step (ih hrun)

end Step.Meet

end
end LoxScript
