import Mathlib
import LoxScript.Proofs.Joined.Compiling
import LoxScript.Proofs.Joined.Steps
import LoxScript.Proofs.Machine.Depth

/-!
A session of two texts is a run of one.

What tells where a failure comes from is not its line, which both texts may have, but what becomes
of the line when the texts are moved.
-/

namespace LoxScript

/-- Which of two texts something comes from. -/
inductive Origin where
  | first | second
deriving Repr, DecidableEq, Inhabited

namespace Origin

/-- What becomes of the lines of the text if `f` moves the first and `g` the second. -/
def lines (f g : Nat → Nat) : Origin → Nat → Nat
  | first => f
  | second => g

end Origin

/-- A program, and another one on what it leaves behind: the last state of that, and its ending. -/
def runBoth (settings : Settings) (n n' : Nat) (p p' : List RStmt) : Machine × Option Ending :=
  (Machine.start p' ((Machine.start p .initial).run settings n).1.store).run settings n'

/-- The second run ends at the given place of one of the two programs: wherever the programs are
moved, the place moves with that one. -/
def EndsIn (settings : Settings) (n n' : Nat) (p p' : List RStmt) (x : Origin) (e : Ending) :
    Prop :=
  ∀ f g, (runBoth settings n n' (Renumber.stmts f p) (Renumber.stmts g p')).2 =
    some (Renumber.ending (x.lines f g) e)

namespace Renumber

/-- Lines that show where they come from. -/
def marked (x : Origin) (line : Nat) : Nat := x.lines (2 * ·) (2 * · + 1) line

def mark (line : Nat) : Origin := if line % 2 = 0 then .first else .second

/-- Moves marked lines. -/
def unmarked (f g : Nat → Nat) (line : Nat) : Nat := (mark line).lines f g (line / 2)

theorem unmarked_first (f g : Nat → Nat) : unmarked f g ∘ marked .first = f := by
  funext line
  show (mark (2 * line)).lines f g (2 * line / 2) = f line
  rw [mark, if_pos (Nat.mul_mod_right 2 line), Nat.mul_div_cancel_left line Nat.two_pos]
  rfl

theorem unmarked_second (f g : Nat → Nat) : unmarked f g ∘ marked .second = g := by
  funext line
  have hodd : ¬ (2 * line + 1) % 2 = 0 := by omega
  have hhalf : (2 * line + 1) / 2 = line := by omega
  show (mark (2 * line + 1)).lines f g ((2 * line + 1) / 2) = g line
  rw [mark, if_neg hodd, hhalf]
  rfl

/-- An ending of marked programs shows which of them it is in. -/
theorem ending_unmarked (e : Ending) : ∃ x e', ∀ f g,
    ending (unmarked f g) e = ending (Origin.lines f g x) e' := by
  cases e with
  | finished => exact ⟨.first, .finished, fun _ _ => rfl⟩
  | unreachable r => exact ⟨.first, .unreachable r, fun _ _ => rfl⟩
  | broken r => exact ⟨.first, .broken r, fun _ _ => rfl⟩
  | failed e =>
    obtain ⟨fault, kind, line⟩ := e
    exact ⟨mark line, .failed ⟨fault, kind, line / 2⟩, fun _ _ => rfl⟩

section
variable (settings : Settings) (n n' : Nat) (p p' : List RStmt)

/-- The run of the first program, on any lines, is one of the marked program. -/
theorem run_unmarked (f g : Nat → Nat) :
    (Machine.start (stmts f p) .initial).run settings n =
      (machine (unmarked f g) [] ""
          ((Machine.start (stmts (marked .first) p) .initial).run settings n).1,
        ((Machine.start (stmts (marked .first) p) .initial).run settings n).2.map
          (ending (unmarked f g))) := by
  have hstart := machine_start (unmarked f g) (stmts (marked .first) p) [] .initial
  rw [stmts_comp, unmarked_first, List.append_nil, store_initial] at hstart
  rw [← hstart, run_machine]

theorem runBoth_unmarked (f g : Nat → Nat) :
    runBoth settings n n' (stmts f p) (stmts g p') =
      (machine (unmarked f g) [] ""
          (runBoth settings n n' (stmts (marked .first) p) (stmts (marked .second) p')).1,
        (runBoth settings n n' (stmts (marked .first) p) (stmts (marked .second) p')).2.map
          (ending (unmarked f g))) := by
  have hstart (s : Store) := machine_start (unmarked f g) (stmts (marked .second) p') [] s
  simp only [stmts_comp, unmarked_second, List.append_nil] at hstart
  unfold runBoth
  rw [← run_machine, hstart, run_unmarked settings n p f g]
  rfl

/-- Every ending of the second program is at a place of one of the two. -/
theorem endsIn_of_runBoth {e : Ending} (h : (runBoth settings n n' p p').2 = some e) :
    ∃ x e', EndsIn settings n n' p p' x e ∧
      (runBoth settings n n' (stmts (marked .first) p) (stmts (marked .second) p')).2 = some e' ∧
      ∀ f g, ending (unmarked f g) e' = ending (Origin.lines f g x) e := by
  have hid := runBoth_unmarked settings n n' p p' id id
  rw [stmts_id, stmts_id] at hid
  rw [hid, Option.map_eq_some_iff] at h
  obtain ⟨e', he', rfl⟩ := h
  obtain ⟨x, e, hx⟩ := ending_unmarked e'
  have he : ending (unmarked id id) e' = e := by
    have hlines : Origin.lines id id x = id := by cases x <;> rfl
    rw [hx, hlines, ending_id]
  rw [he]
  refine ⟨x, e', fun f g => ?_, he', hx⟩
  rw [runBoth_unmarked, he', ← hx]
  rfl

end

end Renumber

/-- A program that does not come to its end runs the same with more statements there. -/
theorem run_append_of_ne (settings : Settings) (p later : List RStmt) {n : Nat} {m : Machine}
    {e : Ending} (h : (Machine.start p .initial).run settings n = (m, some e))
    (he : e ≠ .finished) :
    ∃ m', (Machine.start (p ++ later) .initial).run settings n = (m', some e) ∧
      m'.output = m.output := by
  have hne : ((Machine.start p .initial).run settings n).2 ≠ some .finished := by
    rw [h]
    exact fun hc => he (Option.some.inj hc)
  have hrun := Renumber.run_machine_of_ne id later "" settings _ n hne
  rw [Renumber.machine_start, Renumber.stmts_id, Renumber.store_initial, h] at hrun
  refine ⟨_, hrun.trans (Prod.ext rfl (congrArg some (Renumber.ending_id e))), ?_⟩
  exact String.empty_append

/-- Where a program comes to its end, the next one goes on, on its own lines and after what has
been printed. -/
theorem run_append_finished (settings : Settings) (p p' : List RStmt) (f : Nat → Nat)
    {later : List RStmt} {n : Nat} {m : Machine}
    (h : (Machine.start p .initial).run settings n = (m, some .finished))
    (hlater : later = Renumber.stmts f p') :
    ∃ i, ∀ n', ∃ M,
      (Machine.start (Renumber.stmts f p ++ later) .initial).run settings (i + n') =
        (M, ((Machine.start p' m.store).run settings n').2.map (Renumber.ending f)) ∧
      M.output = m.output ++ ((Machine.start p' m.store).run settings n').1.output ∧
      M.store = Renumber.store f ((Machine.start p' m.store).run settings n').1.store := by
  obtain ⟨i, c, hrun, hfocus, hpending⟩ :=
    Renumber.run_machine_finished f later "" settings (congrArg Prod.snd h)
  rw [Renumber.machine_start, Renumber.store_initial, h] at hrun
  rw [h] at hfocus hpending
  have hdepth : m.depth = 0 := by
    have hcounted := (Machine.counted_start _ _).run hrun
    rw [Machine.Counted, Renumber.machine, hfocus] at hcounted
    exact hcounted
  have hstate : Renumber.machine f later "" m =
      ⟨.complete (Renumber.completion f c) .finish, later, Renumber.store f m.store, m.output,
        0⟩ := by
    rw [Renumber.machine, hfocus, hpending, hdepth, String.empty_append]
    rfl
  have hnext : Renumber.machine f [] m.output (.start p' m.store) =
      ⟨.complete .normal .finish, later, Renumber.store f m.store, m.output, 0⟩ := by
    rw [Renumber.machine, hlater]
    show Machine.mk _ (Renumber.stmts f p' ++ []) _ (m.output ++ "") _ = _
    rw [List.append_nil, String.append_empty]
    rfl
  refine ⟨i, fun n' => ?_⟩
  have hsecond := Renumber.run_machine f m.output settings (.start p' m.store) n'
  obtain ⟨hending, houtput, hstore⟩ := Renumber.run_finish settings (Renumber.completion f c)
    .normal later (Renumber.store f m.store) m.output 0 n'
  rw [← hnext, hsecond, ← hstate] at hending houtput hstore
  refine ⟨_, ?_, houtput, hstore⟩
  rw [Machine.run_add hrun]
  exact Prod.ext rfl hending

/-- Two programs run like one, whatever lines the second is on there. -/
theorem run_append (settings : Settings) (p p' : List RStmt) (f : Nat → Nat) {n n' : Nat}
    {m m' : Machine} {e : Ending}
    (h : (Machine.start p .initial).run settings n = (m, some .finished))
    (h' : (Machine.start p' m.store).run settings n' = (m', some e)) :
    ∃ N x M, EndsIn settings n n' p p' x e ∧
      (Machine.start (p ++ Renumber.stmts f p') .initial).run settings N =
        (M, some (Renumber.ending (Origin.lines id f x) e)) ∧
      M.output = m.output ++ m'.output ∧
      ∃ g g' s, M.store = Renumber.store g s ∧ m'.store = Renumber.store g' s := by
  have hboth : runBoth settings n n' p p' = (m', some e) := by rw [runBoth, h, h']
  obtain ⟨x, e', hx, he', hplace⟩ :=
    Renumber.endsIn_of_runBoth settings n n' p p' (congrArg Prod.snd hboth)
  have hfirst := Renumber.run_unmarked settings n p id id
  have hsecond := Renumber.runBoth_unmarked settings n n' p p' id id
  rw [Renumber.stmts_id, h] at hfirst
  rw [Renumber.stmts_id, Renumber.stmts_id, hboth, runBoth] at hsecond
  rw [runBoth] at he'
  generalize ha :
    (Machine.start (Renumber.stmts (Renumber.marked .first) p) .initial).run settings n = r at hfirst hsecond he'
  obtain ⟨a, o⟩ := r
  obtain ⟨e₁, he₁, hfinished⟩ := Option.map_eq_some_iff.1 (congrArg Prod.snd hfirst).symm
  have hp : Renumber.stmts (Renumber.unmarked id f) (Renumber.stmts (Renumber.marked .first) p) =
      p := by
    rw [Renumber.stmts_comp, Renumber.unmarked_first, Renumber.stmts_id]
  have hp' : Renumber.stmts f p' = Renumber.stmts (Renumber.unmarked id f)
      (Renumber.stmts (Renumber.marked .second) p') := by
    rw [Renumber.stmts_comp, Renumber.unmarked_second]
  cases Renumber.ending_eq_finished _ hfinished
  cases he₁
  obtain ⟨i, hrun⟩ := run_append_finished settings _ _ (Renumber.unmarked id f) ha hp'
  obtain ⟨M, hM, houtput, hstore⟩ := hrun n'
  rw [hp, he', Option.map_some, hplace] at hM
  refine ⟨i + n', x, M, hx, hM, ?_, _, _, _, hstore, congrArg (·.1.store) hsecond⟩
  have hm : m.output = a.output := by
    rw [congrArg (·.1.output) hfirst]
    exact String.empty_append
  have hm' := congrArg (·.1.output) hsecond
  rw [houtput, hm, hm']
  exact congrArg (a.output ++ ·) String.empty_append.symm

namespace Session

/-- The global names and what their values are printed as. -/
def shown (s : Session) : List (String × String) := s.globals.map fun b => (b.1, b.2.display)

theorem shown_of_store {f : Nat → Nat} {s t : Session} (h : t.store = Renumber.store f s.store) :
    t.shown = s.shown := by
  have hbindings : t.store.scopes.bindings Store.globals.scope =
      (s.store.scopes.bindings Store.globals.scope).mapValues (Renumber.value f) := by
    rw [h]
    exact Scopes.bindings_map (Renumber.value f) s.store.scopes Store.globals.scope
  unfold shown globals
  rw [hbindings, Bindings.mapValues, ← List.map_mergeSort (r := fun a b => a.1 ≤ b.1), List.map_map]
  · refine List.map_congr_left fun b _ => ?_
    exact congrArg (Prod.mk b.1) (Renumber.display_value f b.2)
  · intros
    rfl

/-- A text without mistakes is run. -/
theorem run_of_compile {source : String} {program : List RStmt} (h : compile source = .ok program)
    (settings : Settings) (n : Nat) {s : Session} (hs : s.depth = 0) :
    ∃ m o r t, (Machine.start program s.store).run settings n = (m, o) ∧
      s.run settings n source = (r, t) ∧ r.verdict = o.elim .unfinished .ended ∧
      r.output = m.output ∧ r.diagnostics = [] ∧ t.store = m.store := by
  rw [run_of_ok _ _ _ h, begin_eq hs]
  exact ⟨_, _, _, _, rfl, rfl, rfl, rfl, diagnostics_noteEnding _ _, rfl⟩

/-- What a text has done that has run to an end. -/
theorem run_of_ended {source : String} {program : List RStmt} (h : compile source = .ok program)
    {settings : Settings} {n : Nat} {s t : Session} (hs : s.depth = 0) {r : Report}
    (hr : s.run settings n source = (r, t)) {e : Ending} (he : r.verdict = .ended e) :
    ∃ m, (Machine.start program s.store).run settings n = (m, some e) ∧ r.output = m.output ∧
      t.store = m.store := by
  rw [← begin_eq hs]
  exact ended_of_runWith h hr he

end Session

/-- A session of two texts without mistakes is like a run of one text, the first and then the second
on lines of their own.  That has no mistakes.  If the first text fails, it fails in the same way.
Otherwise it prints what both texts print, ends as the second does, and leaves the same globals; a
failure is on the line it was on if it is in the first text, and as many lines further down as the
second text is if it is in that. -/
theorem joined_runs_as_session {first second : String} {p p' : List RStmt}
    (h₁ : compile first = .ok p) (h₂ : compile second = .ok p') (settings : Settings) {n : Nat}
    {r₁ : Report} {s₁ : Session} (hr₁ : ({} : Session).run settings n first = (r₁, s₁))
    {e₁ : Ending} (he₁ : r₁.verdict = .ended e₁) :
    check (joined first second) = [] ∧
    (e₁ ≠ .finished → ∃ N r s,
      ({} : Session).run settings N (joined first second) = (r, s) ∧ r.diagnostics = [] ∧
      r.verdict = .ended e₁ ∧ r.output = r₁.output) ∧
    (e₁ = .finished → ∀ n' r₂ s₂ e₂,
      s₁.run settings n' second = (r₂, s₂) → r₂.verdict = .ended e₂ → ∃ N r s x,
      ({} : Session).run settings N (joined first second) = (r, s) ∧ r.diagnostics = [] ∧
      EndsIn settings n n' p p' x e₂ ∧
      r.verdict = .ended (Renumber.ending (Origin.lines id (· + seam first) x) e₂) ∧
      r.output = r₁.output ++ r₂.output ∧ s.shown = s₂.shown) := by
  have hj := compile_joined h₁ h₂
  refine ⟨check_of_ok hj, fun he => ?_, fun he n' r₂ s₂ e₂ hr₂ he₂ => ?_⟩
  · obtain ⟨m, hm, houtput, -⟩ := Session.run_of_ended h₁ rfl hr₁ he₁
    obtain ⟨m', hm', houtput'⟩ := run_append_of_ne settings p _ hm he
    obtain ⟨_, _, r, s, hrun, hr, hverdict, hout, hnotes, -⟩ :=
      Session.run_of_compile hj settings n (s := {}) rfl
    cases hrun.symm.trans hm'
    exact ⟨n, r, s, hr, hnotes, hverdict, hout.trans (houtput'.trans houtput.symm)⟩
  · subst he
    obtain ⟨m, hm, houtput, hstore⟩ := Session.run_of_ended h₁ rfl hr₁ he₁
    obtain ⟨m', hm', houtput', hstore'⟩ :=
      Session.run_of_ended h₂ (Session.depth_run rfl hr₁) hr₂ he₂
    rw [hstore] at hm'
    obtain ⟨N, x, M, hx, hM, hMoutput, f, g, s', hMstore, hmstore⟩ :=
      run_append settings p p' (· + seam first) hm hm'
    obtain ⟨_, _, r, s, hrun, hr, hverdict, hout, hnotes, hst⟩ :=
      Session.run_of_compile hj settings N (s := {}) rfl
    cases hrun.symm.trans hM
    refine ⟨N, r, s, x, hr, hnotes, hx, hverdict, ?_, ?_⟩
    · rw [hout, hMoutput, houtput, houtput']
    · rw [Session.shown_of_store (s := { store := s' }) (hst.trans hMstore),
        Session.shown_of_store (s := { store := s' }) (hstore'.trans hmstore)]

/-- The second text calls a function of the first, which fails on its own line. -/
theorem joined_runs_as_session_first_line :
    ∃ N r s, ({} : Session).run {} N
        (joined "fun f(x) \x7b\n return -x;\n\x7d" "print \"a\";\nf(nil);") = (r, s) ∧
      r.verdict = .ended (.failed ⟨.operandNotNumber, .symbol .minus, 2⟩) ∧ r.output = "a\n" := by
  have h₁ : compile "fun f(x) \x7b\n return -x;\n\x7d" = .ok
      [.function ⟨"f", 1⟩ (.mk [⟨"x", 1⟩]
        [.ret 2 (some (.unary .negate 2 (.var ⟨"x", 2⟩ (some 0))))])] := by cbv
  have h₂ : compile "print \"a\";\nf(nil);" = .ok
      [.print (.literal (.string "a")),
        .expression (.call (.var ⟨"f", 2⟩ none) 2 [.literal .nil])] := by cbv
  obtain ⟨m₁, o₁, r₁, s₁, hm₁, hr₁, hverdict₁, houtput₁, -, hstore₁⟩ :=
    Session.run_of_compile h₁ {} 3 (s := {}) rfl
  obtain ⟨m₂, o₂, r₂, s₂, hm₂, hr₂, hverdict₂, houtput₂, -, -⟩ :=
    Session.run_of_compile h₂ {} 20 (Session.depth_run rfl hr₁)
  cases hm₁
  rw [hstore₁] at hm₂
  cases hm₂
  obtain ⟨N, r, s, x, hrun, -, hx, hverdict, houtput, -⟩ :=
    (joined_runs_as_session h₁ h₂ {} hr₁ hverdict₁).2.2 rfl 20 r₂ s₂ _ hr₂ hverdict₂
  rw [houtput₁, houtput₂] at houtput
  cases x with
  | first => exact ⟨N, r, s, hrun, hverdict, houtput⟩
  | second =>
    have h := hx id (· + 1)
    cases h

end LoxScript
