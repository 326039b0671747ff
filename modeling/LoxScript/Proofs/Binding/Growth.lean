import LoxScript.Proofs.Binding.World

/-!
What the changes of a store do to what is known of a running program.

Each change leads to a later world, in which every value is still in order.  From here on a state is
in order up to what it looks at, and each function that makes the next state is shown to look at
something that is in order.
-/

namespace LoxScript
namespace World

/-- The world with another store. -/
def withStore (W : World) (s : Store) : World := { W with store := s }

/-- A store into which that of a world can develop. -/
structure Grows (W : World) (s : Store) : Prop where
  le : W.Le (W.withStore s)
  settled : (W.withStore s).Settled

theorem le_of_bound {W : World} {s : Store} (hsize : W.store.size ≤ s.size)
    (hbound : ∀ i x, (∃ v, W.store.find? i x = some v) → ∃ v, s.find? i x = some v)
    (hreserved : ∀ i (k : Keyword) v, W.store.find? i k.text = some v → s.find? i k.text = some v) :
    W.Le (W.withStore s) := by
  refine ⟨rfl, fun _ h => h, fun _ h => h, hsize, hbound, fun e x hx => ?_, hreserved⟩
  rcases hx with hx | hx | hx
  · exact .inl (hbound e.scope x hx)
  · exact .inr (.inl hx)
  · exact .inr (.inr hx)

theorem le_define {W : World} {e : Environment} (hlt : e.scope.index < W.store.size) {x : String}
    (hx : Keyword.ofText? x = none) (v : Value) :
    W.Le (W.withStore (W.store.define e x v)) := by
  refine le_of_bound (Nat.le_of_eq (Store.size_define ..).symm) (fun i y hy => ?_)
    (fun i k w hw => ?_)
  · rw [Store.find?_define hlt]
    split
    · exact ⟨v, rfl⟩
    · exact hy
  · rw [Store.find?_define hlt, if_neg, hw]
    exact fun hc => Name.IsFree.ne (x := ⟨x, 0⟩) hx k hc.2.symm

/-- The value that is bound needs to be right only together with its binding. -/
theorem Grows.define {W : World} (hs : W.Settled) {e : Environment}
    (hlt : e.scope.index < W.store.size) {x : String} (hx : Keyword.ofText? x = none) {v : Value}
    (hv : (W.withStore (W.store.define e x v)).ValueOk v) : W.Grows (W.store.define e x v) := by
  have hle := le_define hlt hx v
  refine ⟨hle, Nat.lt_of_lt_of_le hs.positive hle.size, fun i y w hw => ?_,
    fun i y w hw => (hs.fields i y w hw).mono hle, hs.awaited⟩
  have hw : (W.store.define e x v).find? i y = some w := hw
  rw [Store.find?_define hlt] at hw
  split at hw
  · exact Option.some.inj hw ▸ hv
  · exact (hs.bound i y w hw).mono hle

theorem le_enter (W : World) (outer : Environment) (own : Bindings Value) :
    W.Le (W.withStore (W.store.enter outer own).2) := by
  refine le_of_bound (Nat.le_of_lt (by simp)) (fun i x hx => ?_) (fun i k v hv => ?_)
  · obtain ⟨v, hv⟩ := hx
    exact ⟨v, Store.find?_enter_of_some hv outer own⟩
  · exact Store.find?_enter_of_some hv outer own

theorem Grows.enter {W : World} (hs : W.Settled) (outer : Environment) (own : Bindings Value)
    (hown : ∀ x v, own.find? x = some v → W.ValueOk v) :
    W.Grows (W.store.enter outer own).2 := by
  have hle := le_enter W outer own
  refine ⟨hle, Nat.lt_of_lt_of_le hs.positive hle.size, fun i x v hv => ?_,
    fun i x v hv => (hs.fields i x v hv).mono hle, hs.awaited⟩
  have hv : (W.store.enter outer own).2.find? i x = some v := hv
  rw [Store.find?_enter] at hv
  split at hv
  · exact (hown x v hv).mono hle
  · exact (hs.bound i x v hv).mono hle

/-- A change that no scope sees. -/
theorem Grows.of_scopes {W : World} (hs : W.Settled) {s : Store}
    (hscopes : s.scopes = W.store.scopes)
    (hfields : ∀ i x v, (s.fieldsOf i).find? x = some v → W.ValueOk v) : W.Grows s := by
  have hfind : ∀ i x, s.find? i x = W.store.find? i x := fun i x => by
    rw [Store.find?, Store.find?, hscopes]
  have hsize : s.size = W.store.size := by rw [Store.size, Store.size, hscopes]
  have hle : W.Le (W.withStore s) :=
    le_of_bound (Nat.le_of_eq hsize.symm) (fun i x hx => by rwa [hfind])
      (fun i k v hv => by rwa [hfind])
  refine ⟨hle, hsize ▸ hs.positive, fun i x v hv => ?_, fun i x v hv => (hfields i x v hv).mono hle,
    hs.awaited⟩
  have hv : s.find? i x = some v := hv
  exact (hs.bound i x v (hfind i x ▸ hv)).mono hle

theorem Grows.setField {W : World} (hs : W.Settled) (i : Nat) (x : String) {v : Value}
    (hv : W.ValueOk v) : W.Grows (W.store.setField i x v) := by
  refine .of_scopes hs rfl fun j y w hw => ?_
  rcases Store.mem_fieldsOf_setField hw with rfl | hw
  · exact hv
  · exact hs.fields j y w hw

theorem Grows.makeInstance {W : World} (hs : W.Settled) (c : ClassObject) :
    W.Grows (W.store.makeInstance c).2 := by
  refine .of_scopes hs rfl fun j y w hw => ?_
  rw [Store.fieldsOf_makeInstance] at hw
  exact hs.fields j y w hw

/-- A state of a run that is in order, up to what it looks at. -/
structure Base (W : World) (m : Machine) : Prop where
  store : W.store = m.store
  settled : W.Settled
  pending : ∃ ss₀, StmtsAt W.programs [] ss₀ m.pending

theorem Base.withStore {W : World} {m : Machine} (hb : W.Base m) {s : Store} (hg : W.Grows s) :
    (W.withStore s).Base { m with store := s } := ⟨rfl, hg.settled, hb.pending⟩

/-- A step, if it leads on, leads to a state that is in order. -/
def Leads (W : World) (r : Step) : Prop :=
  ∀ m', r = .next m' → W.Le (W.withStore m'.store) ∧ (W.withStore m'.store).Base m' ∧
    (W.withStore m'.store).FocusOk m'.focus

theorem Leads.next {W : World} {m : Machine} (hb : W.Base m) {f : Focus} (hf : W.FocusOk f) :
    W.Leads (.next { m with focus := f }) := by
  rintro m' ⟨⟩
  have he : W.withStore m.store = W := by
    rw [← hb.store]
    rfl
  refine ⟨?_, ⟨rfl, ?_, hb.pending⟩, ?_⟩
  · exact he.symm ▸ .refl W
  · exact he ▸ hb.settled
  · exact he ▸ hf

theorem Leads.stop (W : World) (m : Machine) (e : Ending) : W.Leads (.stop m e) := nofun

/-- What is reached from a developed store. -/
theorem Leads.of_withStore {W : World} {s : Store} {r : Step} (hle : W.Le (W.withStore s))
    (h : (W.withStore s).Leads r) : W.Leads r := by
  intro m' hm'
  obtain ⟨hle', hb, hf⟩ := h m' hm'
  exact ⟨hle.trans hle', hb, hf⟩

theorem Fits.ancestor {W : World} (hpos : 0 < W.store.size) {Γ : Frames} {e e' : Environment}
    {d : Nat} (h : W.Fits Γ e) (he : e.ancestor? d = some e') : e'.scope.index < W.store.size := by
  induction d generalizing Γ e with
  | zero =>
    cases he
    exact h.lt_size hpos
  | succ d ih =>
    cases h with
    | globals => cases he
    | nested h _ _ _ => exact ih h he

section
variable {W : World} {m : Machine} (hb : W.Base m)
include hb

theorem Base.grows : W.Grows m.store := by
  have he : W.withStore m.store = W := by rw [← hb.store]; rfl
  exact ⟨he.symm ▸ .refl W, he.symm ▸ hb.settled⟩

theorem Base.bound {i : ScopeId} {x : String} {v : Value} (h : m.store.find? i x = some v) :
    W.ValueOk v := hb.settled.bound i x v (hb.store ▸ h)

theorem leads_delivering {v : Value} {k : ValueCont} (hv : W.ValueOk v) (hk : W.ValueContOk k) :
    W.Leads (m.delivering v k) := .next hb ⟨hv, hk⟩

theorem leads_completing {k : StmtCont} (hk : W.StmtContOk k) :
    W.Leads (m.completing .normal k) := .next hb ⟨nofun, hk⟩

theorem leads_lookingUp {x : String} {ref : Option Nat} {t : Token} {env : Environment}
    {k : ValueCont} (hk : W.ValueContOk k) : W.Leads (m.lookingUp x ref t env k) := by
  unfold Machine.lookingUp
  split
  · split
    · rename_i v hv
      obtain ⟨e', -, hv⟩ := Scopes.getAt_eq_ok.1 hv
      exact leads_delivering hb (hb.bound hv) hk
    · exact .stop W m _
  · split
    · rename_i v hv
      rw [Store.globals, Scopes.get?_root] at hv
      exact leads_delivering hb (hb.bound hv) hk
    · exact .stop W m _

/-- What follows the binding of a name. -/
theorem leads_define {e : Environment} (hlt : e.scope.index < W.store.size) {x : String}
    (hx : Keyword.ofText? x = none) {v : Value}
    (hv : (W.withStore (m.store.define e x v)).ValueOk v) {r : Machine → Step}
    (hr : (W.withStore (m.store.define e x v)).Base { m with store := m.store.define e x v } →
      W.Le (W.withStore (m.store.define e x v)) →
      (W.withStore (m.store.define e x v)).Leads (r (m.change (·.define e x v)))) :
    W.Leads (r (m.change (·.define e x v))) := by
  rw [← hb.store] at hv
  have hg := Grows.define hb.settled hlt hx hv
  rw [hb.store] at hg
  exact .of_withStore hg.le (hr (hb.withStore hg) hg.le)

theorem leads_assigning {x : Name} {ref : Option Nat} {env : Environment} {v : Value}
    {k : ValueCont} (he : ∃ e, W.ExprOk (.assign x ref e) env) (hv : W.ValueOk v)
    (hk : W.ValueContOk k) : W.Leads (m.assigning x ref env v k) := by
  obtain ⟨e, Γ, e₀, hat, hfits⟩ := he
  have hpos := hb.settled.positive
  have hassign {e : Environment} (hlt : e.scope.index < W.store.size) (hx : x.IsFree) :
      W.Leads ((m.change (·.define e x.text v)).delivering v k) := by
    have hle := le_define hlt hx v
    rw [hb.store] at hle
    refine leads_define hb (r := (·.delivering v k)) hlt hx (hv.mono hle) fun hb' _ => ?_
    exact leads_delivering hb' (hv.mono hle) (hk.mono hle)
  have hx : x.IsFree := by
    cases hat.view
    assumption
  unfold Machine.assigning
  split
  · split
    · rename_i hanc
      exact hassign (hfits.ancestor hpos hanc) hx
    · exact .stop W m _
  · split
    · exact hassign hpos hx
    · exact .stop W m _

end

/-- A method that is bound to an instance. -/
theorem closureOk_bind {W : World} {f : Closure} (hf : W.MethodOk f) {i : Nat} {c : ClassObject}
    (hopen : ∀ ms, f.code ∈ ms.map Method.code →
      W.Opened (.receiver ms) (.nested ⟨W.store.size⟩ f.environment)) :
    (W.withStore (W.store.bind f (.instance i c)).2).ClosureOk
      (W.store.bind f (.instance i c)).1 := by
  obtain ⟨Γ, ms, c₀, hat, hmem, hfits⟩ := hf
  have hle := le_enter W f.environment [("this", .instance i c)]
  have hthis : (W.store.enter f.environment [("this", .instance i c)]).2.find? ⟨W.store.size⟩
      "this" = some (.instance i c) := by
    rw [Store.find?_enter, if_pos rfl]
    rfl
  rw [Store.bind_eq]
  refine ⟨⟨.receiver ms :: Γ, c₀, hat, ?_⟩, fun _ => ⟨_, hthis⟩⟩
  refine .nested (hfits.mono hle) (hle.opened (hopen ms hmem)) ?_
    ⟨fun x hx => ?_, fun ms' _ => ?_, ?_⟩
  · exact Store.size_lt_enter W.store f.environment _
  · have hx : ("this" == x || false) = true := hx
    rw [Bool.or_false, beq_iff_eq] at hx
    subst hx
    exact .inl ⟨_, hthis⟩
  · exact ⟨i, c, hthis⟩
  · rintro ms' ⟨⟩

theorem Grows.bind {W : World} (hs : W.Settled) {f : Closure} {v : Value} (hv : W.ValueOk v) :
    W.Grows (W.store.bind f v).2 := by
  refine .enter hs f.environment _ fun x w hw => ?_
  rw [Bindings.find?_cons] at hw
  split at hw
  · exact Option.some.inj hw ▸ hv
  · cases hw

theorem Grows.makeFunction {W : World} (hs : W.Settled) (f : Closure) :
    W.Grows (W.store.makeFunction f).2 := .of_scopes hs rfl hs.fields

theorem Grows.bindValue {W : World} (hs : W.Settled) {f : Closure} {v : Value} (hv : W.ValueOk v) :
    W.Grows (W.store.bindValue f v).2 := by
  have hg := Grows.bind hs (f := f) hv
  have hg' := Grows.makeFunction hg.settled (W.store.bind f v).1
  exact ⟨hg.le.trans hg'.le, hg'.settled⟩

theorem valueOk_bindValue {W : World} (hs : W.Settled) {f : Closure} (hf : W.MethodOk f) {i : Nat}
    {c : ClassObject} (hc : W.ClassOk c)
    (hopen : ∀ ms, f.code ∈ ms.map Method.code →
      W.Opened (.receiver ms) (.nested ⟨W.store.size⟩ f.environment)) :
    (W.withStore (W.store.bindValue f (.instance i c)).2).ValueOk
      (W.store.bindValue f (.instance i c)).1 := by
  have hg := Grows.bind hs (f := f) (v := .instance i c) hc
  exact (closureOk_bind hf hopen).mono (Grows.makeFunction hg.settled _).le

end World
end LoxScript
