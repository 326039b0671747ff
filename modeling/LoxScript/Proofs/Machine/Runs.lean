import LoxScript.Proofs.Binding.Agreement
import LoxScript.Proofs.Machine.Depth

/-!
Runs, looked at from their end.

A run that is not over has come from a shorter one by one step, and a run that is over stands where
a shorter one stopped.  What holds at the start and is kept by each step of a run holds in all of
its states.
-/

namespace LoxScript
namespace Machine
variable {settings : Settings} {m m' : Machine} {n : Nat}

theorem passed_of_next (h : m.step settings = .next m') (n : Nat) :
    m.passed settings (n + 1) = m :: m'.passed settings n := by
  rw [passed, h]

theorem passed_of_stop {e : Ending} (h : m.step settings = .stop m' e) (n : Nat) :
    m.passed settings (n + 1) = [] := by
  rw [passed, h]

theorem run_succ_eq_none : m.run settings (n + 1) = (m', none) ↔
    ∃ q, m.run settings n = (q, none) ∧ q.step settings = .next m' := by
  induction n generalizing m with
  | zero =>
    cases hs : m.step settings with
    | next q =>
      rw [run_of_next hs]
      constructor
      · rintro ⟨⟩
        exact ⟨m, rfl, hs⟩
      · rintro ⟨_, ⟨⟩, hq⟩
        cases hs.symm.trans hq
        rfl
    | stop q e =>
      rw [run_of_stop hs]
      refine ⟨nofun, ?_⟩
      rintro ⟨_, ⟨⟩, hq⟩
      cases hs.symm.trans hq
  | succ n ih =>
    cases hs : m.step settings with
    | next q => rw [run_of_next hs, run_of_next hs, ih]
    | stop q e =>
      rw [run_of_stop hs, run_of_stop hs]
      refine ⟨nofun, ?_⟩
      rintro ⟨_, h, -⟩
      cases h

theorem passed_succ {q : Machine} (h : m.run settings n = (q, none))
    (hs : q.step settings = .next m') :
    m.passed settings (n + 1) = m.passed settings n ++ [q] := by
  induction n generalizing m with
  | zero =>
    cases h
    exact passed_of_next hs 0
  | succ n ih =>
    cases hm : m.step settings with
    | next m₁ =>
      rw [run_of_next hm] at h
      rw [passed_of_next hm, passed_of_next hm, ih h, List.cons_append]
    | stop m₁ e =>
      rw [run_of_stop hm] at h
      cases h

/-- The earlier states of a run were stepped from. -/
theorem mem_passed {i : Nat} {q : Machine} (hq : m.run settings i = (q, none)) (hi : i < n)
    (hm : m.run settings n = (m', none)) : q ∈ m.passed settings n := by
  induction n generalizing m' with
  | zero => exact absurd hi (Nat.not_lt_zero i)
  | succ n ih =>
    obtain ⟨q', hq', hs⟩ := run_succ_eq_none.1 hm
    rw [passed_succ hq' hs]
    rcases Nat.lt_succ_iff_lt_or_eq.1 hi with hi | rfl
    · exact List.mem_append_left _ (ih hi hq')
    · cases hq.symm.trans hq'
      exact List.mem_append_right _ List.mem_cons_self

/-- A run ends in the state from which it could not go on. -/
theorem run_eq_some {e : Ending} (h : m.run settings n = (m', some e)) :
    ∃ i, m.run settings i = (m', none) ∧ m'.step settings = .stop m' e ∧
      m.passed settings n = m.passed settings i := by
  induction n generalizing m with
  | zero => cases h
  | succ n ih =>
    cases hs : m.step settings with
    | next q =>
      rw [run_of_next hs] at h
      obtain ⟨i, hi, hstop, hpassed⟩ := ih h
      refine ⟨i + 1, ?_, hstop, ?_⟩
      · rw [run_of_next hs, hi]
      · rw [passed_of_next hs, passed_of_next hs, hpassed]
    | stop q e' =>
      rw [run_of_stop hs] at h
      cases h
      obtain rfl := eq_of_stop hs
      exact ⟨0, rfl, hs, passed_of_stop hs n⟩

/-- What holds at the start, and after a step if it held before, holds in every state of a run; it
may speak of the states stepped from. -/
theorem run_induction {P : List Machine → Machine → Prop} (hstart : P [] m)
    (hstep : ∀ n q q', m.run settings n = (q, none) → P (m.passed settings n) q →
      q.step settings = .next q' → P (m.passed settings n ++ [q]) q')
    (hm : m.run settings n = (m', none)) : P (m.passed settings n) m' := by
  induction n generalizing m' with
  | zero =>
    cases hm
    exact hstart
  | succ n ih =>
    obtain ⟨q, hq, hs⟩ := run_succ_eq_none.1 hm
    rw [passed_succ hq hs]
    exact hstep n q m' hq (ih hq) hs

end Machine
end LoxScript
