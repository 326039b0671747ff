import LoxScript.Proofs.Objects.Sealed

/-!
What is known of the states stepped from, through all the texts of a session.

Each scope was made by one of them.  A scope of a receiver or of a superclass binds now what it was
made with, and everything that is held has an origin.
-/

namespace LoxScript

/-- What is known of the states stepped from, and of the store that they have led to. -/
structure Chronicle (settings : Settings) (past : List Machine) (s : Store) : Prop where
  positive : ∀ q ∈ past, 0 < q.store.size
  adds : ∀ q ∈ past, ∀ i, q.Adds settings i → i.index < s.size
  unique : ∀ q ∈ past, ∀ q' ∈ past, ∀ i, q.Adds settings i → q'.Adds settings i → q = q'
  seals : ∀ q ∈ past, ∀ b, q.Seals b →
    q.Adds settings ⟨q.store.size⟩ ∧ s.scopes.bindings ⟨q.store.size⟩ = b
  writes : ∀ q ∈ past, ∀ e, q.Writes e → Machine.IsWritable settings past e
  takes : ∀ q ∈ past, ∀ f r, q.Takes f r → ∃ i c, r = .instance i c
  instances : ∀ q ∈ past, ∀ c args k, q.Invokes (.class c) args k →
    q.store.fields.size < s.fields.size
  origins : ∀ q ∈ past, ∀ it, q.Has it → HasOrigin past it
  holds : ∀ v, s.Holds v → HasOrigin past (.value v)

namespace Chronicle
variable {settings : Settings} {past : List Machine} {s : Store} {q q' : Machine}

/-- No program writes to the scope of a receiver or of a superclass. -/
theorem scope_ne (h : Chronicle settings past s) (hq : q ∈ past) {b : Bindings Value}
    (hb : q.Seals b) {e : Environment} (he : Machine.IsWritable settings past e) :
    e.scope ≠ ⟨q.store.size⟩ := by
  intro hscope
  rcases he with rfl | ⟨o, ho, q', hq', hopens⟩
  · have hzero : 0 = q.store.size := congrArg ScopeId.index hscope
    exact Nat.lt_irrefl 0 (hzero ▸ h.positive q hq)
  · have ha := hopens.adds
    rw [hscope] at ha
    obtain rfl := h.unique q' hq' q hq _ ha (h.seals q hq b hb).1
    exact hopens.1.not_seals ho hb hscope

theorem initial (settings : Settings) : Chronicle settings [] .initial := by
  refine ⟨nofun, nofun, nofun, nofun, nofun, nofun, nofun, nofun, fun v hv => .plain ?_⟩
  rcases hv with ⟨i, x, hv⟩ | ⟨i, x, hv⟩
  · obtain ⟨-, -, rfl⟩ := Store.find?_initial hv
    trivial
  · cases hv

end Chronicle

namespace World

/-- What holds of every state of a run. -/
structure Traced (W : World) (m : Machine) : Prop where
  inv : W.Inv m
  chronicle : Chronicle W.settings W.past m.store
  items : ∀ it ∈ m.focus.items, HasOrigin W.past it

namespace Traced
variable {W : World} {m m' : Machine}

theorem origin (h : W.Traced m) {it : Item} (hit : m.Has it) : HasOrigin W.past it := by
  cases hit with
  | focus hit => exact h.items it hit
  | store hv => exact h.chronicle.holds _ hv

/-- Scopes that were sealed stay as they are. -/
theorem bindings_step (h : W.Traced m) (hstep : m.step W.settings = .next m') {q : Machine}
    (hq : q ∈ W.past) {b : Bindings Value} (hb : q.Seals b) :
    m'.store.scopes.bindings ⟨q.store.size⟩ = b := by
  obtain ⟨hadds, hbindings⟩ := h.chronicle.seals q hq b hb
  have hlt := h.chronicle.adds q hq _ hadds
  rcases (Machine.follows_step hstep).leaves.scopes _ hlt with hsame | ⟨e, he, hscope⟩
  · rw [hsame, hbindings]
  · exact absurd hscope (h.chronicle.scope_ne hq hb (h.inv.writes he))

theorem chronicle_step (h : W.Traced m) (hstep : m.step W.settings = .next m') :
    Chronicle W.settings (W.past ++ [m]) m'.store := by
  have hc := h.chronicle
  have hfollows := Machine.follows_step hstep
  have hsub : W.past ⊆ W.past ++ [m] := List.subset_append_left _ _
  have hmem : m ∈ W.past ++ [m] := List.mem_append_right _ List.mem_cons_self
  -- A fact about the states stepped from, which are the earlier ones and `m`.
  have each {P : Machine → Prop} (hp : ∀ q ∈ W.past, P q) (hm : P m) :
      ∀ q ∈ W.past ++ [m], P q :=
    List.forall_mem_append.2 ⟨hp, List.forall_mem_singleton.2 hm⟩
  have hnew {i : ScopeId} (ha : m.Adds W.settings i) :
      m.store.size ≤ i.index ∧ i.index < m'.store.size := by
    obtain ⟨m'', hstep', hle, hlt⟩ := ha
    cases hstep.symm.trans hstep'
    exact ⟨hle, hlt⟩
  have hold {q : Machine} (hq : q ∈ W.past) {i : ScopeId} (ha : q.Adds W.settings i) :
      ¬ m.Adds W.settings i := fun ha' =>
    Nat.not_lt_of_le (hnew ha').1 (hc.adds q hq i ha)
  exact {
    positive := each hc.positive (by
      have := h.inv.base.settled.positive
      rwa [h.inv.base.store] at this)
    adds := each (fun q hq i ha => Nat.lt_of_lt_of_le (hc.adds q hq i ha) hfollows.leaves.size)
      fun i ha => (hnew ha).2
    unique := each
      (fun q hq => each (hc.unique q hq) fun i ha ha' => absurd ha' (hold hq ha))
      (each (fun q' hq' i ha ha' => absurd ha (hold hq' ha')) fun i _ _ => rfl)
    seals := each
      (fun q hq b hb => ⟨(hc.seals q hq b hb).1, h.bindings_step hstep hq hb⟩)
      fun b hb => by
        obtain ⟨hlt, hbindings⟩ := hb.bindings hstep fun _ _ _ _ _ _ => h.inv.inherit_lt
        exact ⟨⟨m', hstep, Nat.le_refl _, hlt⟩, hbindings⟩
    writes := each (fun q hq e he => (hc.writes q hq e he).mono hsub)
      fun e he => (h.inv.writes he).mono hsub
    takes := each hc.takes fun f r ht => h.inv.takes ht
    instances := each
      (fun q hq c args k hi => Nat.lt_of_lt_of_le (hc.instances q hq c args k hi)
        hfollows.leaves.fields)
      fun c args k hi => hi.instance_lt hstep
    origins := each (fun q hq it hit => (hc.origins q hq it hit).mono hsub)
      fun it hit => (h.origin hit).mono hsub
    holds := fun v hv => (hfollows.leaves.holds v hv).origin (fun _ => h.origin) hsub hmem }

theorem step (h : W.Traced m) (hstep : m.step W.settings = .next m') :
    (W.after m m').Traced m' where
  inv := h.inv.step hstep
  chronicle := h.chronicle_step hstep
  items := fun it hit => ((Machine.follows_step hstep).items it hit).origin (fun _ => h.origin)
    (List.subset_append_left _ _) (List.mem_append_right _ List.mem_cons_self)

theorem run (h : W.Traced m) (fuel : Nat) :
    ({ W with past := W.past ++ m.passed W.settings fuel,
              store := (m.run W.settings fuel).1.store } : World).Traced
      (m.run W.settings fuel).1 := by
  induction fuel generalizing W m with
  | zero =>
    rw [Machine.passed, List.append_nil, Machine.run, ← h.inv.base.store]
    exact h
  | succ fuel ih =>
    rw [Machine.passed, Machine.run]
    cases hstep : m.step W.settings with
    | next m' =>
      have := ih (h.step hstep)
      rwa [after, List.append_assoc] at this
    | stop m' e =>
      obtain ⟨rfl, -⟩ := h.inv.stops m' e hstep
      rw [List.append_nil, ← h.inv.base.store]
      exact h

end Traced

/-- The states of the run of a text. -/
theorem traced_run {settings : Settings} {sources : List String} {past : List Machine}
    {store : Store} (hr : (World.of settings sources past store).Rests)
    (hc : Chronicle settings past store) {source : String} {program : List RStmt}
    (hcompile : compile source = .ok program) (n : Nat) :
    (World.of settings (sources ++ [source])
      (past ++ (Machine.start program store).passed settings n)
      ((Machine.start program store).run settings n).1.store).Traced
      ((Machine.start program store).run settings n).1 := by
  have hinv := hr.run hcompile 0
  rw [Machine.passed, List.append_nil] at hinv
  have hstart : (World.of settings (sources ++ [source]) past store).Traced
      (.start program store) := ⟨hinv, hc, List.forall_mem_nil _⟩
  exact hstart.run n

theorem chronicle_of_reached {settings : Settings} {sources : List String} {past : List Machine}
    {s : Session} (h : s.Reached settings sources past) : Chronicle settings past s.store := by
  induction h with
  | fresh journal => exact .initial settings
  | @run sources past s fuel source hs ih =>
    unfold Session.run Session.runWith Session.passed
    cases hc : compile source with
    | error notes =>
      rw [Session.read_of_error hc, List.append_nil]
      exact ih
    | ok program =>
      have h := (traced_run (rests_of_reached hs) ih hc fuel).chronicle
      rw [Session.read_of_ok hc, Session.begin_eq hs.depth_eq]
      exact h

end World

/-- Every state of every run of a session. -/
theorem Session.Reached.traced {settings : Settings} {sources : List String}
    {past : List Machine} {s : Session} (hs : s.Reached settings sources past) {source : String}
    {program : List RStmt} (hc : compile source = .ok program) {n : Nat} {m : Machine}
    (hm : (Machine.start program s.store).run settings n = (m, none)) :
    (World.of settings (sources ++ [source])
      (past ++ (Machine.start program s.store).passed settings n) m.store).Traced m := by
  have h := World.traced_run (World.rests_of_reached hs) (World.chronicle_of_reached hs) hc n
  rwa [hm] at h

end LoxScript
