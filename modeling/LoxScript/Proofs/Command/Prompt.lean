import LoxScript.Command.Run
import LoxScript.Proofs.Machine.Hosted

/-!
What the prompt does with its lines.

Every line is run in the session that the lines before it have left, whatever has come of these.
The prompt ends with the first line that the program cannot go on from, or at the end of the input.
-/

namespace LoxScript
namespace Command
namespace Prompt

section
variable (k : Machinery) (o : Options)

/-- What is reported of the lines, each of which is run in the session that those before it leave,
whatever has come of them. -/
def reports : Session → List String → List Report
  | _, [] => []
  | s, line :: rest => (enter k o s line).1 :: reports (enter k o s line).2 rest

variable (isText : Bool) (s : Session) (lines : List String)

/-- The prompt ends with the first line that ends it, or else when there are no more lines. -/
theorem outcome_run : (run k o isText s lines).outcome =
    ((reports k o s lines).findSome? fun r => ends? r.verdict).getD (atEnd isText).outcome := by
  induction lines generalizing s with
  | nil => rfl
  | cons line rest ih =>
    rw [run, reports, List.findSome?_cons]
    dsimp only
    cases ends? (enter k o s line).1.verdict with
    | some outcome => rfl
    | none => exact ih _

/-- If no line ends it, everything that the lines print stands in the output. -/
theorem output_run (h : ∀ r ∈ reports k o s lines, ends? r.verdict = none) :
    (run k o isText s lines).output =
      String.join ((reports k o s lines).map fun r => text ++ r.output) ++
        (atEnd isText).output := by
  induction lines generalizing s with
  | nil => exact String.empty_append.symm
  | cons line rest ih =>
    rw [reports] at h ⊢
    obtain ⟨hline, hrest⟩ := List.forall_mem_cons.1 h
    rw [run]
    dsimp only
    rw [hline, List.map_cons, String.join_cons]
    dsimp only
    rw [ih _ hrest]
    simp only [String.append_assoc]

end

/-! ### Lines that end it -/

theorem ends_ne_exited (v : Verdict) (status : Nat) : ends? v ≠ some (.exited status) := by
  unfold ends?
  split <;> nofun

theorem ends_eq_broken {v : Verdict} {b : Breakdown} : ends? v = some (.broken b) ↔
    ∃ f, v = .ended (.broken f) ∧ b = .host f := by
  unfold ends?
  split
  · simp
  · simp [eq_comm]
  · simp
  · rename_i _ h _
    simpa using fun f hv => absurd hv (h f)

section
variable {k : Machinery} {o : Options}

/-- A line by itself ends the prompt because the limit is too high if it is free of mistakes, and if
the limit is too high. -/
theorem line_limitTooHigh (s : Session) (line : String) :
    ends? (enter k o s line).1.verdict = some (.broken (.host .limitTooHigh)) ↔
      k.host.CanRead line ∧ check line = [] ∧ ¬ k.host.CanRaise o.maxCallDepth := by
  have hline := Session.verdict_limitTooHigh_iff k.host (k.settings o) k.fuel s line
  refine Iff.trans ?_ hline
  rw [ends_eq_broken]
  constructor
  · rintro ⟨f, hv, hf⟩
    cases hf
    exact hv
  · exact fun hv => ⟨_, hv, rfl⟩

/-- If the limit is too high, a line is passed over only if it is refused. -/
theorem line_passedOver (hraise : ¬ k.host.CanRaise o.maxCallDepth) (s : Session) (line : String) :
    ends? (enter k o s line).1.verdict = none ↔ k.host.CanRead line ∧ check line ≠ [] := by
  have hrefused := Session.verdict_refused_iff k.host (k.settings o) k.fuel s line
  constructor
  · intro hends
    by_cases hread : k.host.CanRead line
    · refine ⟨hread, fun hcheck => ?_⟩
      cases hends.symm.trans ((line_limitTooHigh s line).2 ⟨hread, hcheck, hraise⟩)
    · have hexhausted := congrArg (fun p => p.1.verdict)
        (Session.runOn_of_not_canRead (k.settings o) k.fuel s hread)
      cases hends.symm.trans (congrArg ends? hexhausted)
  · exact fun h => congrArg ends? (hrefused.2 h)

/-- The prompt ends because the limit is too high with the first line that is free of mistakes. -/
theorem first_limitTooHigh (s : Session) (lines : List String) :
    ((reports k o s lines).findSome? fun r => ends? r.verdict) =
        some (.broken (.host .limitTooHigh)) ↔
      ¬ k.host.CanRaise o.maxCallDepth ∧ ∃ before line after, lines = before ++ line :: after ∧
        (∀ x ∈ before, k.host.CanRead x ∧ check x ≠ []) ∧ k.host.CanRead line ∧ check line = [] := by
  induction lines generalizing s with
  | nil => simp [reports]
  | cons first rest ih =>
    rw [reports, List.findSome?_cons]
    cases hends : ends? (enter k o s first).1.verdict with
    | some outcome =>
      dsimp only
      rw [← hends, line_limitTooHigh]
      constructor
      · rintro ⟨hread, hcheck, hraise⟩
        exact ⟨hraise, [], first, rest, rfl, nofun, hread, hcheck⟩
      · rintro ⟨hraise, before, line, after, heq, hbefore, hread, hcheck⟩
        cases before with
        | nil =>
          cases heq
          exact ⟨hread, hcheck, hraise⟩
        | cons x before =>
          cases heq
          have hpassed := (line_passedOver hraise s first).2 (hbefore first List.mem_cons_self)
          cases hends.symm.trans hpassed
    | none =>
      dsimp only
      rw [ih]
      refine and_congr_right fun hraise => ?_
      have hfirst := (line_passedOver hraise s first).1 hends
      constructor
      · rintro ⟨before, line, after, rfl, hbefore, hline⟩
        exact ⟨first :: before, line, after, rfl,
          List.forall_mem_cons.2 ⟨hfirst, hbefore⟩, hline⟩
      · rintro ⟨before, line, after, heq, hbefore, hline⟩
        cases before with
        | nil =>
          cases heq
          exact absurd hline.2 hfirst.2
        | cons x before =>
          cases heq
          exact ⟨before, line, after, rfl, (List.forall_mem_cons.1 hbefore).2, hline⟩

end

/-! ### How it ends -/

section
variable (k : Machinery) (o : Options) (input : Input)

/-- Nothing ends the prompt before the end of the input does. -/
def PassesOver : Prop := ∀ r ∈ reports k o {} input.lines, ends? r.verdict = none

/-- The command breaks down at the prompt. -/
inductive Breaks : Breakdown → Prop
  | undecodable : PassesOver k o input → input.isText = false → Breaks .undecodable
  | limitTooHigh {before after : List String} {line : String} :
      ¬ k.host.CanRaise o.maxCallDepth → input.lines = before ++ line :: after →
      (∀ x ∈ before, k.host.CanRead x ∧ check x ≠ []) → k.host.CanRead line → check line = [] →
      Breaks (.host .limitTooHigh)
  | stackExhausted : ((reports k o {} input.lines).findSome? fun r => ends? r.verdict) =
      some (.broken (.host .stackExhausted)) → Breaks (.host .stackExhausted)

/-- What should come of the prompt.  Every line is run, whatever has come of those before it, unless
one of these could not go on: with such a line the command ends. -/
structure Fits (t : Transcript) : Prop where
  ok_iff : t.outcome = .exited statusOk ↔ PassesOver k o input ∧ input.isText = true
  output_eq : t.outcome = .exited statusOk → t.output =
    String.join ((reports k o {} input.lines).map fun r => text ++ r.output) ++ text ++ "\n"
  otherwise : ∀ x, x ≠ .exited statusOk → (t.outcome = x ↔
    ((reports k o {} input.lines).findSome? fun r => ends? r.verdict) = some x ∨
      PassesOver k o input ∧ input.isText = false ∧ x = .broken .undecodable)

variable {k o input}

theorem passesOver_iff : PassesOver k o input ↔
    ((reports k o {} input.lines).findSome? fun r => ends? r.verdict) = none :=
  List.findSome?_eq_none_iff.symm

theorem outcome_eq (x : Outcome) : (run k o input.isText {} input.lines).outcome = x ↔
    ((reports k o {} input.lines).findSome? fun r => ends? r.verdict) = some x ∨
      PassesOver k o input ∧ (atEnd input.isText).outcome = x := by
  rw [outcome_run, passesOver_iff]
  cases (reports k o {} input.lines).findSome? fun r => ends? r.verdict <;> simp

theorem outcome_eq_exited {status : Nat} :
    (run k o input.isText {} input.lines).outcome = .exited status ↔
      status = statusOk ∧ PassesOver k o input ∧ input.isText = true := by
  rw [outcome_eq]
  constructor
  · rintro (hfirst | ⟨hpasses, hend⟩)
    · obtain ⟨r, -, hr⟩ := List.exists_of_findSome?_eq_some hfirst
      exact absurd hr (ends_ne_exited _ _)
    · cases hisText : input.isText with
      | true =>
        rw [hisText] at hend
        cases hend
        exact ⟨rfl, hpasses, rfl⟩
      | false =>
        rw [hisText] at hend
        cases hend
  · rintro ⟨rfl, hpasses, hisText⟩
    exact .inr ⟨hpasses, by rw [hisText]; rfl⟩

theorem outcome_eq_broken {b : Breakdown} :
    (run k o input.isText {} input.lines).outcome = .broken b ↔ Breaks k o input b := by
  rw [outcome_eq]
  constructor
  · rintro (hfirst | ⟨hpasses, hend⟩)
    · obtain ⟨r, -, hr⟩ := List.exists_of_findSome?_eq_some hfirst
      obtain ⟨f, -, rfl⟩ := ends_eq_broken.1 hr
      cases f with
      | limitTooHigh =>
        obtain ⟨hraise, before, line, after, hlines, hbefore, hread, hcheck⟩ :=
          (first_limitTooHigh _ _).1 hfirst
        exact .limitTooHigh hraise hlines hbefore hread hcheck
      | stackExhausted => exact .stackExhausted hfirst
    · cases hisText : input.isText with
      | true =>
        rw [hisText] at hend
        cases hend
      | false =>
        rw [hisText] at hend
        cases hend
        exact .undecodable hpasses hisText
  · rintro (⟨hpasses, hisText⟩ | ⟨hraise, hlines, hbefore, hread, hcheck⟩ | hfirst)
    · exact .inr ⟨hpasses, by rw [hisText]; rfl⟩
    · exact .inl ((first_limitTooHigh _ _).2 ⟨hraise, _, _, _, hlines, hbefore, hread, hcheck⟩)
    · exact .inl hfirst

theorem fits (k : Machinery) (o : Options) (input : Input) :
    Fits k o input (run k o input.isText {} input.lines) where
  ok_iff := outcome_eq_exited.trans (and_iff_right rfl)
  output_eq := by
    intro h
    obtain ⟨-, hpasses, hisText⟩ := outcome_eq_exited.1 h
    rw [output_run k o _ {} _ hpasses, hisText, String.append_assoc]
    rfl
  otherwise := by
    intro x hx
    rw [outcome_eq]
    refine or_congr_right (and_congr_right fun _ => ?_)
    unfold atEnd
    cases input.isText with
    | true => exact ⟨fun h => absurd h.symm hx, fun h => nomatch h.1⟩
    | false => exact ⟨fun h => ⟨rfl, h.symm⟩, fun h => h.2.symm⟩

end

end Prompt
end Command
end LoxScript
