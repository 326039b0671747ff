import LoxScript.Proofs.Scope.Changes

/-!
Steps that end a run.

The state in which a run ends is the one that could not be stepped from.  Apart from the failures of
the language, only a use of a name and the answer of an initializer can end a run, and only if a
scope does not bind what they expect of it.
-/

namespace LoxScript
namespace Machine

/-- If the step ends the run, then in the same state, and a scope that could not answer is as
described. -/
def Stops (m : Machine) (P : ReachFault → Prop) (r : Step) : Prop :=
  ∀ m' e, r = .stop m' e → m' = m ∧ ∀ f, e = .unreachable f → P f

section
variable (m : Machine) (P : ReachFault → Prop)

theorem stops_next (m' : Machine) : m.Stops P (.next m') := by
  intro m'' e h
  cases h

theorem stops_failing (f : Fault) (t : Token) : m.Stops P (m.failing f t) := by
  rintro m' e ⟨⟩
  exact ⟨rfl, nofun⟩

theorem stops_unreachable {f : ReachFault} (h : P f) : m.Stops P (.stop m (.unreachable f)) := by
  rintro m' e ⟨⟩
  refine ⟨rfl, ?_⟩
  rintro g ⟨⟩
  exact h

theorem stops_deliveringResult (r : Except Fault Value) (t : Token) (k : ValueCont) :
    m.Stops P (m.deliveringResult r t k) := by
  cases r with
  | ok v => exact stops_next m P _
  | error f => exact stops_failing m P f t

theorem stops_invoking (settings : Settings) (callee : Callable) (arguments : List Value)
    (k : ValueCont) : m.Stops P (m.invoking settings callee arguments k) := by
  cases callee with
  | native f => exact stops_next m P _
  | function f => exact stops_next m P _
  | «class» c =>
    simp only [invoking]
    split <;> exact stops_next m P _

theorem stops_calling (settings : Settings) (callee : Value) (arguments : List Value)
    (line : Nat) (k : ValueCont) : m.Stops P (m.calling settings callee arguments line k) := by
  simp only [calling]
  split
  · exact stops_failing m P _ _
  · split
    · exact stops_failing m P _ _
    · split
      · exact stops_failing m P _ _
      · exact stops_invoking m P settings _ arguments k

theorem stops_nextArgument (settings : Settings) (line : Nat) (callee : Value)
    (earlier : List Value) (later : List RExpr) (env : Environment) (k : ValueCont) :
    m.Stops P (m.nextArgument settings line callee earlier later env k) := by
  cases later with
  | nil => exact stops_calling m P settings callee _ line k
  | cons e later => exact stops_next m P _

theorem stops_takingProperty (i : Nat) (c : ClassObject) (x : Name)
    {next : Machine → Value → Step} (h : ∀ m v, ∃ m', next m v = .next m') :
    m.Stops P (m.takingProperty i c x next) := by
  simp only [takingProperty]
  split
  · exact stops_failing m P _ _
  · rename_i p _
    obtain ⟨m', hm'⟩ := h (m.make (·.take p (.instance i c))).2
      (m.make (·.take p (.instance i c))).1
    rw [hm']
    exact stops_next m P m'

theorem stops_lookingUp (x : String) (ref : Option Nat) (t : Token) (env : Environment)
    (k : ValueCont)
    (h : ∀ d f, ref = some d → m.store.scopes.getAt env d x = .error f → P f) :
    m.Stops P (m.lookingUp x ref t env k) := by
  unfold lookingUp
  split
  · rename_i d
    split
    · exact stops_next m P _
    · rename_i f hf
      exact stops_unreachable m P (h d f rfl hf)
  · split
    · exact stops_next m P _
    · exact stops_failing m P _ _

theorem stops_assigning (x : Name) (ref : Option Nat) (env : Environment) (v : Value)
    (k : ValueCont) (h : ∀ d, ref = some d → ∃ e', env.ancestor? d = some e') :
    m.Stops P (m.assigning x ref env v k) := by
  cases ref with
  | none =>
    simp only [assigning]
    split
    · exact stops_next m P _
    · exact stops_failing m P _ _
  | some d =>
    obtain ⟨e', he'⟩ := h d rfl
    simp only [assigning, he']
    exact stops_next m P _

theorem stops_lookingUpSuper {d i : Nat} {c c' : ClassObject} (x : Name) {env : Environment}
    (k : ValueCont) (hsuper : m.store.scopes.getAt env d "super" = .ok (.class c))
    (hthis : m.store.scopes.getAt env (d - 1) "this" = .ok (.instance i c')) :
    m.Stops P (m.lookingUpSuper (some d) x env k) := by
  simp only [lookingUpSuper, hsuper, hthis]
  split
  · exact stops_failing m P _ _
  · exact stops_next m P _

theorem stops_deliver (settings : Settings) (v : Value) (k : ValueCont)
    (h : ∀ x ref env next, k = .assign x ref env next → ∀ d, ref = some d →
      ∃ e', env.ancestor? d = some e') :
    m.Stops P (m.deliver settings v k) := by
  cases k with
  | unary op line k => exact stops_deliveringResult m P _ _ k
  | binaryRight op line left k => exact stops_deliveringResult m P _ _ k
  | logical op right env k =>
    simp only [deliver]
    split <;> exact stops_next m P _
  | assign x ref env k => exact stops_assigning m P x ref env v k (h x ref env k rfl)
  | callee line arguments env k => exact stops_nextArgument m P settings line v [] arguments env k
  | argument line callee earlier later env k =>
    exact stops_nextArgument m P settings line callee (v :: earlier) later env k
  | get x k =>
    cases v with
    | «instance» i c =>
      simp only [deliver]
      exact stops_takingProperty m P i c x fun m v => ⟨_, rfl⟩
    | _ => exact stops_failing m P _ _
  | setObject x value env k =>
    cases v with
    | «instance» i c => exact stops_next m P _
    | _ => exact stops_failing m P _ _
  | updateObject x op line value env k =>
    cases v with
    | «instance» i c =>
      simp only [deliver]
      exact stops_takingProperty m P i c x fun m v => ⟨_, rfl⟩
    | _ => exact stops_failing m P _ _
  | updateValue i x op line current k =>
    simp only [deliver]
    split
    · exact stops_next m P _
    · exact stops_failing m P _ _
  | branch yes no env k =>
    simp only [deliver.eq_def]
    split
    · exact stops_next m P _
    · split <;> exact stops_next m P _
  | loopTest condition body env k =>
    simp only [deliver]
    split <;> exact stops_next m P _
  | inherit x y methods env k =>
    cases v with
    | «class» c => exact stops_next m P _
    | _ => exact stops_failing m P _ _
  | binaryLeft | setValue | discard | print | define | ret => exact stops_next m P _

theorem stops_execute (s : RStmt) (env : Environment) (k : StmtCont) :
    m.Stops P (m.execute s env k) := by
  cases s with
  | var x initial => cases initial <;> exact stops_next m P _
  | ret line value => cases value <;> exact stops_next m P _
  | classDef x parent ms => cases parent <;> exact stops_next m P _
  | _ => exact stops_next m P _

theorem stops_complete (c : Completion) (k : StmtCont)
    (h : ∀ result next, k = .call result next → ∃ v, m.answer c result = .ok v) :
    m.Stops P (m.complete c k) := by
  cases k with
  | sequence later env k =>
    simp only [complete.eq_def]
    split <;> exact stops_next m P _
  | loopBody condition body env k => cases c <;> exact stops_next m P _
  | call result k =>
    obtain ⟨v, hv⟩ := h result k rfl
    simp only [complete.eq_def, hv]
    exact stops_next m P _
  | finish =>
    simp only [complete.eq_def]
    split
    · rintro m' e ⟨⟩
      exact ⟨rfl, nofun⟩
    · exact stops_next m P _

end
end Machine

end LoxScript
