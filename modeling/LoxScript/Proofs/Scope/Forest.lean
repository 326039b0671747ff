import LoxScript.Proofs.Scope.Changes

/-!
Environments that share their scopes.

Environments are made one inside another, so that together they are a forest, in which several may
lie inside the same one.  A binding that is made through one of them is seen from those whose chain
comes to it before it comes to another binding of the name, and from no others.
-/

namespace LoxScript

/-- Scopes, and the environments that have been made of them. -/
structure Forest (α : Type) where
  scopes : Scopes α
  environments : List Environment

namespace Forest

/-- What can be asked of a forest. -/
inductive Request (α : Type) where
  | new (outer : Option Environment)
  | define (e : Environment) (x : String) (v : α)
  | get (e : Environment) (x : String)
  | assign (e : Environment) (x : String) (v : α)
  | ancestor (e : Environment) (distance : Nat)
  | getAt (e : Environment) (distance : Nat) (x : String)
  | assignAt (e : Environment) (distance : Nat) (x : String) (v : α)

/-- The environment that is asked, or in which one is made. -/
def Request.about {α : Type} : Request α → Option Environment
  | new outer => outer
  | define e _ _ | get e _ | assign e _ _ | ancestor e _ | getAt e _ _ | assignAt e _ _ _ => some e

inductive Answer (α : Type) where
  | done
  | value (v : α)
  | environment (e : Environment)
  | undefined (x : String)
  | unreachable (f : ReachFault)

def Answer.isFailure {α : Type} : Answer α → Bool
  | undefined _ | unreachable _ => true
  | done | value _ | environment _ => false

variable {α : Type}

def perform (f : Forest α) : Request α → Answer α × Forest α
  | .new outer =>
    let (e, scopes) := f.scopes.extend outer []
    (.environment e, ⟨scopes, e :: f.environments⟩)
  | .define e x v => (.done, { f with scopes := f.scopes.define e x v })
  | .get e x =>
    match f.scopes.get? e x with
    | some v => (.value v, f)
    | none => (.undefined x, f)
  | .assign e x v =>
    match f.scopes.assign? e x v with
    | some scopes => (.done, { f with scopes })
    | none => (.undefined x, f)
  | .ancestor e distance =>
    match e.ancestor? distance with
    | some e' => (.environment e', f)
    | none => (.unreachable .detached, f)
  | .getAt e distance x =>
    match f.scopes.getAt e distance x with
    | .ok v => (.value v, f)
    | .error r => (.unreachable r, f)
  | .assignAt e distance x v =>
    match f.scopes.assignAt e distance x v with
    | .ok scopes => (.done, { f with scopes })
    | .error r => (.unreachable r, f)

def answer (f : Forest α) (r : Request α) : Answer α := (f.perform r).1

def after (f : Forest α) (r : Request α) : Forest α := (f.perform r).2

section
variable (f : Forest α) (e : Environment) (distance : Nat) (x : String) (v : α)

theorem perform_get : f.perform (.get e x) =
    match f.scopes.get? e x with
    | some v => (.value v, f)
    | none => (.undefined x, f) := rfl

theorem perform_assign : f.perform (.assign e x v) =
    match f.scopes.assign? e x v with
    | some scopes => (.done, { f with scopes })
    | none => (.undefined x, f) := rfl

theorem perform_ancestor : f.perform (.ancestor e distance) =
    match e.ancestor? distance with
    | some e' => (.environment e', f)
    | none => (.unreachable .detached, f) := rfl

theorem perform_getAt : f.perform (.getAt e distance x) =
    match f.scopes.getAt e distance x with
    | .ok v => (.value v, f)
    | .error r => (.unreachable r, f) := rfl

theorem perform_assignAt : f.perform (.assignAt e distance x v) =
    match f.scopes.assignAt e distance x v with
    | .ok scopes => (.done, { f with scopes })
    | .error r => (.unreachable r, f) := rfl

end

/-- The forests that come about by asking the environments made so far. -/
inductive Built : Forest α → Prop
  | empty : Built ⟨.empty, []⟩
  | after {f : Forest α} (r : Request α) : Built f → (∀ e ∈ r.about, e ∈ f.environments) →
      Built (f.after r)

section
variable (f : Forest α)

/-- The innermost scope of the environment binds the name. -/
def Binds (e : Environment) (x : String) : Prop := (f.scopes.bindings e.scope).binds x = true

instance (e : Environment) (x : String) : Decidable (f.Binds e x) :=
  inferInstanceAs (Decidable (_ = true))

/-- From one environment, another one is so many scopes away, and none in front of it binds the
name. -/
def Meets (x : String) (g : Environment) (distance : Nat) (e : Environment) : Prop :=
  g.ancestor? distance = some e ∧
    ∀ d < distance, ∀ e', g.ancestor? d = some e' → ¬ f.Binds e' x

/-- The least distance at which the name is bound, and the environment there. -/
def BoundAt (x : String) (g : Environment) (distance : Nat) (e : Environment) : Prop :=
  f.Meets x g distance e ∧ f.Binds e x

/-- The name is bound somewhere along the chain. -/
def BindsAlong (e : Environment) (x : String) : Prop :=
  ∃ d e', e.ancestor? d = some e' ∧ f.Binds e' x

/-- The second forest differs from the first by the value of a name in one environment.  This is
what the environments read that meet it, and nothing else is read in another way.  If the
environment binds the name already, it is met by those of which it is the nearest that does. -/
structure Rebinds (f' : Forest α) (e : Environment) (x : String) (v : α) : Prop where
  environments : f'.environments = f.environments
  own : ∀ g ∈ f.environments, ∀ y, (f'.scopes.bindings g.scope).find? y =
    if g = e ∧ y = x then some v else (f.scopes.bindings g.scope).find? y
  gets : ∀ g ∈ f.environments, ∀ d, f.Meets x g d e → f'.answer (.get g x) = .value v
  otherGets : ∀ g ∈ f.environments, ∀ y, (y = x → ∀ d, ¬ f.Meets x g d e) →
    f'.answer (.get g y) = f.answer (.get g y)
  getsAt : ∀ g ∈ f.environments, ∀ d, g.ancestor? d = some e →
    f'.answer (.getAt g d x) = .value v
  otherGetsAt : ∀ g ∈ f.environments, ∀ d y, (y = x → g.ancestor? d ≠ some e) →
    f'.answer (.getAt g d y) = f.answer (.getAt g d y)

/-- What holds of an environment, a name and a value. -/
structure Lawful (e : Environment) (x : String) (v : α) : Prop where
  get_iff : (f.answer (.get e x)).isFailure = false ↔ f.BindsAlong e x
  assign_iff : (f.answer (.assign e x v)).isFailure = false ↔ f.BindsAlong e x
  nearest : f.BindsAlong e x → ∃ d e', f.BoundAt x e d e'
  get_eq : ∀ d e', f.BoundAt x e d e' → f.answer (.get e x) = f.answer (.getAt e d x)
  assign_eq : ∀ d e', f.BoundAt x e d e' → f.perform (.assign e x v) = f.perform (.assignAt e d x v)
  assign : ∀ d e', f.BoundAt x e d e' → f.Rebinds (f.after (.assign e x v)) e' x v
  define : f.Rebinds (f.after (.define e x v)) e x v
  failure : ∀ r : Request α, (f.answer r).isFailure = true → f.after r = f

end

/-! ### Along a chain -/

section
variable {f : Forest α} {x : String} {g e e' : Environment} {d d' : Nat} {i : ScopeId}

theorem meets_zero : f.Meets x g 0 e ↔ g = e := by
  constructor
  · rintro ⟨h, -⟩
    exact Option.some.inj h
  · rintro rfl
    exact ⟨rfl, fun d hd => absurd hd (Nat.not_lt_zero d)⟩

theorem not_meets_root : ¬ f.Meets x (.root i) (d + 1) e := by
  rintro ⟨h, -⟩
  cases h

theorem meets_nested {outer : Environment} : f.Meets x (.nested i outer) (d + 1) e ↔
    (f.scopes.bindings i).binds x = false ∧ f.Meets x outer d e := by
  constructor
  · rintro ⟨h, hnone⟩
    refine ⟨Bool.eq_false_iff.2 (hnone 0 (Nat.zero_lt_succ d) _ rfl), h, fun d' hd' e' he' => ?_⟩
    exact hnone (d' + 1) (Nat.succ_lt_succ hd') e' he'
  · rintro ⟨hi, h, hnone⟩
    refine ⟨h, fun d' hd' e' he' => ?_⟩
    cases d' with
    | zero =>
      cases he'
      exact Bool.eq_false_iff.1 hi
    | succ d' => exact hnone d' (Nat.lt_of_succ_lt_succ hd') e' he'

/-- Looking a name up finds the nearest environment that binds it. -/
theorem holder?_eq_some :
    f.scopes.holder? x g = some i ↔ ∃ d e, f.BoundAt x g d e ∧ e.scope = i := by
  induction g with
  | root j =>
    unfold Scopes.holder?
    constructor
    · intro h
      split at h
      · rename_i hj
        obtain rfl := Option.some.inj h
        exact ⟨0, .root j, ⟨meets_zero.2 rfl, hj⟩, rfl⟩
      · cases h
    · rintro ⟨d, e, ⟨hmeets, hbinds⟩, rfl⟩
      cases d with
      | zero =>
        obtain rfl := meets_zero.1 hmeets
        exact if_pos hbinds
      | succ d => exact absurd hmeets not_meets_root
  | nested j outer ih =>
    unfold Scopes.holder?
    constructor
    · intro h
      split at h
      · rename_i hj
        obtain rfl := Option.some.inj h
        exact ⟨0, .nested j outer, ⟨meets_zero.2 rfl, hj⟩, rfl⟩
      · rename_i hj
        obtain ⟨d, e, ⟨hmeets, hbinds⟩, rfl⟩ := ih.1 h
        exact ⟨d + 1, e, ⟨meets_nested.2 ⟨Bool.eq_false_iff.2 hj, hmeets⟩, hbinds⟩, rfl⟩
    · rintro ⟨d, e, ⟨hmeets, hbinds⟩, rfl⟩
      cases d with
      | zero =>
        obtain rfl := meets_zero.1 hmeets
        exact if_pos hbinds
      | succ d =>
        obtain ⟨hj, hmeets⟩ := meets_nested.1 hmeets
        rw [if_neg (Bool.eq_false_iff.1 hj)]
        exact ih.2 ⟨d, e, ⟨hmeets, hbinds⟩, rfl⟩

theorem BoundAt.holder?_eq (h : f.BoundAt x g d e) : f.scopes.holder? x g = some e.scope :=
  holder?_eq_some.2 ⟨d, e, h, rfl⟩

/-- If a name is bound along a chain, one of the environments that bind it is the nearest. -/
theorem BindsAlong.nearest (h : f.BindsAlong g x) : ∃ d e, f.BoundAt x g d e := by
  obtain ⟨d, e, he, hbinds⟩ := h
  induction d using Nat.strongRecOn generalizing e with
  | _ d ih =>
    by_cases hnearer : ∃ d' < d, ∃ e', g.ancestor? d' = some e' ∧ f.Binds e' x
    · obtain ⟨d', hd', e', he', hbinds'⟩ := hnearer
      exact ih d' hd' e' he' hbinds'
    · exact ⟨d, e, ⟨he, fun d' hd' e' he' hb => hnearer ⟨d', hd', e', he', hb⟩⟩, hbinds⟩

theorem isSome_holder? : (f.scopes.holder? x g).isSome = true ↔ f.BindsAlong g x := by
  constructor
  · intro h
    obtain ⟨i, hi⟩ := Option.isSome_iff_exists.1 h
    obtain ⟨d, e, h, -⟩ := holder?_eq_some.1 hi
    exact ⟨d, e, h.1.1, h.2⟩
  · intro h
    obtain ⟨d, e, h⟩ := h.nearest
    rw [h.holder?_eq]
    rfl

theorem binds_iff : f.Binds e x ↔ ∃ w, (f.scopes.bindings e.scope).find? x = some w :=
  Option.isSome_iff_exists

/-! ### Answers -/

theorem answer_get_of_boundAt {w : α} (h : f.BoundAt x g d e)
    (hw : (f.scopes.bindings e.scope).find? x = some w) : f.answer (.get g x) = .value w := by
  have hget : f.scopes.get? g x = some w := by
    rw [Scopes.get?, h.holder?_eq]
    exact hw
  rw [answer, perform_get, hget]

theorem holder?_eq_none (h : ¬ f.BindsAlong g x) : f.scopes.holder? x g = none :=
  Option.not_isSome_iff_eq_none.1 fun hsome => h (isSome_holder?.1 hsome)

theorem answer_get_of_not (h : ¬ f.BindsAlong g x) : f.answer (.get g x) = .undefined x := by
  have hget : f.scopes.get? g x = none := by
    rw [Scopes.get?, holder?_eq_none h]
    rfl
  rw [answer, perform_get, hget]

theorem answer_assign_of_not (h : ¬ f.BindsAlong g x) (v : α) :
    f.answer (.assign g x v) = .undefined x := by
  have hassign : f.scopes.assign? g x v = none := by
    rw [Scopes.assign?, holder?_eq_none h]
    rfl
  rw [answer, perform_assign, hassign]

theorem answer_getAt (h : g.ancestor? d = some e) : f.answer (.getAt g d x) =
    match (f.scopes.bindings e.scope).find? x with
    | some w => .value w
    | none => .unreachable (.unbound x) := by
  rw [answer, perform_getAt, Scopes.getAt, h]
  dsimp only
  cases (f.scopes.bindings e.scope).find? x <;> rfl

theorem answer_getAt_of_none (h : g.ancestor? d = none) :
    f.answer (.getAt g d x) = .unreachable .detached := by
  rw [answer, perform_getAt, Scopes.getAt, h]

theorem perform_assign_of_boundAt (h : f.BoundAt x g d e) (v : α) :
    f.perform (.assign g x v) = (.done, { f with scopes := f.scopes.define e x v }) := by
  have hassign : f.scopes.assign? g x v = some (f.scopes.define e x v) := by
    rw [Scopes.assign?, h.holder?_eq]
    rfl
  rw [perform_assign, hassign]

theorem perform_assignAt_of_ancestor (h : g.ancestor? d = some e) (v : α) :
    f.perform (.assignAt g d x v) = (.done, { f with scopes := f.scopes.define e x v }) := by
  have hassign : f.scopes.assignAt g d x v = .ok (f.scopes.define e x v) := by
    rw [Scopes.assignAt, h]
  rw [perform_assignAt, hassign]

theorem after_of_isFailure {r : Request α} (h : (f.answer r).isFailure = true) :
    f.after r = f := by
  unfold answer at h
  unfold after
  cases r with
  | new outer | define e x v => cases h
  | get e x | assign e x v | ancestor e d | getAt e d x | assignAt e d x v =>
    simp only [perform_get, perform_assign, perform_ancestor, perform_getAt, perform_assignAt]
      at h ⊢
    split at h
    · cases h
    · rfl

end

/-! ### What is known of the environments of a forest -/

/-- Each environment has a scope of its own, and those around it belong to the forest as well. -/
structure Sound (f : Forest α) : Prop where
  inRange : ∀ e ∈ f.environments, e.scope.index < f.scopes.all.size
  outer : ∀ i outer, Environment.nested i outer ∈ f.environments → outer ∈ f.environments
  unique : ∀ e ∈ f.environments, ∀ e' ∈ f.environments, e.scope = e'.scope → e = e'

namespace Sound
variable {f : Forest α}

theorem with_scopes (h : f.Sound) {scopes : Scopes α}
    (hsize : scopes.all.size = f.scopes.all.size) :
    ({ f with scopes } : Forest α).Sound where
  inRange e he := hsize ▸ h.inRange e he
  outer := h.outer
  unique := h.unique

theorem new (h : f.Sound) {outer : Option Environment} (houter : ∀ e ∈ outer, e ∈ f.environments) :
    (f.after (.new outer)).Sound := by
  have hscope : (Environment.within outer ⟨f.scopes.all.size⟩).scope = ⟨f.scopes.all.size⟩ := by
    cases outer <;> rfl
  have hne : ∀ e ∈ f.environments, e.scope ≠ ⟨f.scopes.all.size⟩ := fun e he heq =>
    Nat.ne_of_lt (h.inRange e he) (congrArg ScopeId.index heq)
  refine ⟨fun e he => ?_, fun i o ho => ?_, fun e he e' he' heq => ?_⟩
  · rw [show (f.after (.new outer)).scopes.all.size = _ from f.scopes.size_extend outer []]
    rcases List.mem_cons.1 he with rfl | he
    · exact Nat.lt_succ_of_le (Nat.le_of_eq (congrArg ScopeId.index hscope))
    · exact Nat.lt_succ_of_lt (h.inRange e he)
  · rcases List.mem_cons.1 ho with heq | ho
    · cases outer with
      | none => cases heq
      | some o' =>
        cases heq
        exact List.mem_cons_of_mem _ (houter o rfl)
    · exact List.mem_cons_of_mem _ (h.outer i o ho)
  · rcases List.mem_cons.1 he with rfl | he
    · rcases List.mem_cons.1 he' with rfl | he'
      · rfl
      · exact absurd (heq.symm.trans hscope) (hne e' he')
    · rcases List.mem_cons.1 he' with rfl | he'
      · exact absurd (heq.trans hscope) (hne e he)
      · exact h.unique e he e' he' heq

theorem after (h : f.Sound) (r : Request α) (hr : ∀ e ∈ r.about, e ∈ f.environments) :
    (f.after r).Sound := by
  cases r with
  | new outer => exact h.new hr
  | define e x v => exact h.with_scopes (f.scopes.size_define e x v)
  | get e x | ancestor e d | getAt e d x =>
    unfold Forest.after
    simp only [perform_get, perform_ancestor, perform_getAt]
    split <;> exact h
  | assign e x v =>
    unfold Forest.after
    rw [perform_assign]
    split
    · rename_i scopes hscopes
      obtain ⟨i, -, rfl⟩ := Option.map_eq_some_iff.1 hscopes
      exact h.with_scopes (f.scopes.size_put i x v)
    · exact h
  | assignAt e d x v =>
    unfold Forest.after
    cases he : e.ancestor? d with
    | none =>
      simp only [perform_assignAt, Scopes.assignAt, he]
      exact h
    | some e' =>
      rw [perform_assignAt_of_ancestor he]
      exact h.with_scopes (f.scopes.size_define e' x v)

theorem ancestor? (h : f.Sound) {g e : Environment} {d : Nat} (hg : g ∈ f.environments)
    (he : g.ancestor? d = some e) : e ∈ f.environments := by
  induction d generalizing g with
  | zero =>
    cases he
    exact hg
  | succ d ih =>
    cases g with
    | root i => cases he
    | nested i outer => exact ih (h.outer i outer hg) he

end Sound

theorem Built.sound {f : Forest α} (h : f.Built) : f.Sound := by
  induction h with
  | empty => exact ⟨nofun, nofun, nofun⟩
  | after r _ hr ih => exact ih.after r hr

/-! ### A binding is made -/

section
variable {f : Forest α} {x y : String} {v : α} {g e : Environment} {d : Nat}

theorem answer_get_congr {f' : Forest α} (h : f'.scopes.get? g y = f.scopes.get? g y) :
    f'.answer (.get g y) = f.answer (.get g y) := by
  simp only [answer, perform_get, h]
  split <;> rfl

theorem find?_define (hf : f.Sound) (he : e ∈ f.environments) (hg : g ∈ f.environments)
    (x y : String) (v : α) : ((f.scopes.define e x v).bindings g.scope).find? y =
      if g = e ∧ y = x then some v else (f.scopes.bindings g.scope).find? y := by
  rw [Scopes.find?_define (hf.inRange e he)]
  by_cases hge : g = e
  · rw [hge]
    simp only [true_and]
  · have hne : g.scope ≠ e.scope := fun heq => hge (hf.unique g hg e he heq)
    rw [if_neg fun h => hne h.1, if_neg fun h => hge h.1]

/-- By induction on the distance: what lies in front of the environment binds nothing. -/
theorem get?_define_of_meets (hf : f.Sound) (he : e ∈ f.environments) (hg : g ∈ f.environments)
    (h : f.Meets x g d e) : (f.scopes.define e x v).get? g x = some v := by
  induction d generalizing g with
  | zero =>
    obtain rfl := meets_zero.1 h
    have hv := find?_define hf he hg x x v
    rw [if_pos ⟨rfl, rfl⟩] at hv
    cases g with
    | root i => exact (Scopes.get?_root _ i x).trans hv
    | nested i outer =>
      rw [Scopes.get?_nested]
      exact Option.or_eq_some_iff.2 (.inl hv)
  | succ d ih =>
    cases g with
    | root i => exact absurd h not_meets_root
    | nested i outer =>
      obtain ⟨hnone, h⟩ := meets_nested.1 h
      have hi : (f.scopes.bindings i).find? x = none :=
        Option.not_isSome_iff_eq_none.1 (Bool.eq_false_iff.1 hnone)
      have hv : ((f.scopes.define e x v).bindings i).find? x = _ := find?_define hf he hg x x v
      rw [Scopes.get?_nested, hv]
      split
      · rfl
      · exact (congrArg (Option.or · _) hi).trans (ih (hf.outer i outer hg) h)

/-- By induction on the chain, up to the nearest binding. -/
theorem get?_define_of_not_meets (hf : f.Sound) (he : e ∈ f.environments)
    (hg : g ∈ f.environments) (h : y = x → ∀ d, ¬ f.Meets x g d e) :
    (f.scopes.define e x v).get? g y = f.scopes.get? g y := by
  have hself {g : Environment} (hg : g ∈ f.environments) (h : y = x → ∀ d, ¬ f.Meets x g d e) :
      ((f.scopes.define e x v).bindings g.scope).find? y =
        (f.scopes.bindings g.scope).find? y := by
    rw [find?_define hf he hg, if_neg]
    rintro ⟨rfl, rfl⟩
    exact h rfl 0 (meets_zero.2 rfl)
  induction g with
  | root i =>
    rw [Scopes.get?_root, Scopes.get?_root]
    exact hself hg h
  | nested i outer ih =>
    have hkept : ((f.scopes.define e x v).bindings i).find? y = (f.scopes.bindings i).find? y :=
      hself hg h
    rw [Scopes.get?_nested, Scopes.get?_nested, hkept]
    cases hi : (f.scopes.bindings i).find? y with
    | some w => rfl
    | none =>
      rw [Option.none_or, Option.none_or]
      refine ih (hf.outer i outer hg) fun hy d hmeets => h hy (d + 1) (meets_nested.2 ⟨?_, hmeets⟩)
      rw [Bindings.binds, ← hy, hi]
      rfl

theorem rebinds_define (hf : f.Sound) (he : e ∈ f.environments) (x : String) (v : α) :
    f.Rebinds { f with scopes := f.scopes.define e x v } e x v where
  environments := rfl
  own g hg y := find?_define hf he hg x y v
  gets g hg d hmeets := by
    simp only [answer, perform_get, get?_define_of_meets hf he hg hmeets]
  otherGets g hg y h := answer_get_congr (get?_define_of_not_meets hf he hg h)
  getsAt g hg d hd := by
    rw [answer_getAt hd, show _ = _ from find?_define hf he he x x v, if_pos ⟨rfl, rfl⟩]
  otherGetsAt g hg d y h := by
    cases hd : g.ancestor? d with
    | none => rw [answer_getAt_of_none hd, answer_getAt_of_none hd]
    | some e' =>
      have he' := hf.ancestor? hg hd
      rw [answer_getAt hd, answer_getAt hd, show _ = _ from find?_define hf he he' x y v, if_neg]
      rintro ⟨rfl, rfl⟩
      exact h rfl hd

end

/-- Whatever has been asked of a forest, each of its environments is lawful. -/
theorem Built.lawful {f : Forest α} (h : f.Built) {e : Environment} (he : e ∈ f.environments)
    (x : String) (v : α) : f.Lawful e x v where
  get_iff := by
    constructor
    · intro hsucceeds
      refine Classical.byContradiction fun hnot => ?_
      rw [answer_get_of_not hnot] at hsucceeds
      cases hsucceeds
    · intro hbound
      obtain ⟨d, e', hb⟩ := hbound.nearest
      obtain ⟨w, hw⟩ := binds_iff.1 hb.2
      rw [answer_get_of_boundAt hb hw]
      rfl
  assign_iff := by
    constructor
    · intro hsucceeds
      refine Classical.byContradiction fun hnot => ?_
      rw [answer_assign_of_not hnot] at hsucceeds
      cases hsucceeds
    · intro hbound
      obtain ⟨d, e', hb⟩ := hbound.nearest
      rw [answer, perform_assign_of_boundAt hb]
      rfl
  nearest := BindsAlong.nearest
  get_eq d e' hb := by
    obtain ⟨w, hw⟩ := binds_iff.1 hb.2
    rw [answer_get_of_boundAt hb hw, answer_getAt hb.1.1, hw]
  assign_eq d e' hb := by
    rw [perform_assign_of_boundAt hb, perform_assignAt_of_ancestor hb.1.1]
  assign d e' hb := by
    rw [Forest.after, perform_assign_of_boundAt hb]
    exact rebinds_define h.sound (h.sound.ancestor? he hb.1.1) x v
  define := rebinds_define h.sound he x v
  failure _ := after_of_isFailure

/-- Two environments inside one that binds a name. -/
def siblings : Forest Nat :=
  (((Forest.after ⟨.empty, []⟩ (.new none)).after (.define (.root ⟨0⟩) "x" 1)).after
    (.new (some (.root ⟨0⟩)))).after (.new (some (.root ⟨0⟩)))

/-- What is assigned through one of them is read through the other. -/
theorem lawful_siblings : siblings.Built ∧ .nested ⟨1⟩ (.root ⟨0⟩) ∈ siblings.environments ∧
    siblings.Lawful (.nested ⟨1⟩ (.root ⟨0⟩)) "x" 2 ∧
    (siblings.after (.assign (.nested ⟨1⟩ (.root ⟨0⟩)) "x" 2)).answer
      (.get (.nested ⟨2⟩ (.root ⟨0⟩)) "x") = .value 2 := by
  have hbuilt : siblings.Built :=
    (((Built.empty.after (.new none) nofun).after _ (by decide)).after _ (by decide)).after _
      (by decide)
  have hmem : .nested ⟨1⟩ (.root ⟨0⟩) ∈ siblings.environments := by decide
  have hlawful := hbuilt.lawful hmem "x" 2
  have hbound : siblings.BoundAt "x" (.nested ⟨1⟩ (.root ⟨0⟩)) 1 (.root ⟨0⟩) :=
    ⟨meets_nested.2 ⟨by decide, meets_zero.2 rfl⟩, by decide⟩
  have hmeets : siblings.Meets "x" (.nested ⟨2⟩ (.root ⟨0⟩)) 1 (.root ⟨0⟩) :=
    meets_nested.2 ⟨by decide, meets_zero.2 rfl⟩
  exact ⟨hbuilt, hmem, hlawful, (hlawful.assign 1 _ hbound).gets _ (by decide) 1 hmeets⟩

end Forest
end LoxScript
