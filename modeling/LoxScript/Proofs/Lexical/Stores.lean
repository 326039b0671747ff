import LoxScript.Proofs.Lexical.Correspondence

/-!
Operations on values and stores that are the same.

Each operation gives results that are the same, and leaves stores that are.  Where it makes a
location, the owner of the location is added to the list.
-/

namespace LoxScript.Lexical

section
variable {P : List (List (Stmt Unit))} {owners owners' : Owners}

/-! ### Functions -/

theorem SameClosure.arity {f : LoxScript.Closure} {g : Closure} (h : SameClosure P owners f g) :
    f.arity = g.arity := by
  obtain ⟨-, -, Γ, hcode, -, -⟩ := h
  obtain ⟨ss₀, hg, -, -, -⟩ := hcode.body
  rw [ClosureOf.arity, ClosureOf.arity, hg]
  rfl

theorem SameMethod.arity {f : LoxScript.Closure} {g : Closure} (h : SameMethod P owners f g) :
    f.arity = g.arity := by
  obtain ⟨-, -, Γ, ms, hcode, -⟩ := h
  obtain ⟨ss₀, hg, -, -, -⟩ := hcode.body
  rw [ClosureOf.arity, ClosureOf.arity, hg]
  rfl

/-! ### Cells and fields -/

theorem Store.cell_setCell {t : Store} {l : Location} (h : l.index < t.cells.size) (w : Value)
    (l' : Location) : (t.setCell l w).cell l' = if l' = l then some w else t.cell l' := by
  simp only [Store.setCell, Store.cell, Array.getD_eq_getD_getElem?, Array.getElem?_modify]
  by_cases hl : l' = l
  · subst hl
    rw [if_pos rfl, if_pos rfl, Array.getElem?_eq_getElem h]
    rfl
  · have hne : l.index ≠ l'.index := fun he => hl (by cases l; cases l'; exact congrArg _ he.symm)
    rw [if_neg hne, if_neg hl]

theorem Store.cell_fresh (t : Store) (x : String) (w : Option Value) (σ : Scope) (l : Location) :
    (t.fresh x w σ).2.cell l = if l.index = t.cells.size then w else t.cell l := by
  simp only [Store.fresh, Store.cell, Array.getD_eq_getD_getElem?, Array.getElem?_push]
  by_cases hl : l.index = t.cells.size
  · rw [if_pos hl, if_pos hl]
    rfl
  · rw [if_neg hl, if_neg hl]

theorem Store.fieldsOf_makeInstance (t : Store) (c : ClassObject) (i : Nat) :
    (t.makeInstance c).2.fieldsOf i = t.fieldsOf i := Bindings.getD_push_nil t.fields i

namespace SameStore
variable {s s' : LoxScript.Store} {t : Store} {outer : Environment} {b : Bindings LoxScript.Value}

/-! ### Changes of what is there -/

/-- A name gets a value in its scope and in its location. -/
theorem setCell (h : SameStore P owners s t) {l : Location} {e : Environment} {x : String}
    (hl : owners[l.index]? = some (e.scope, x)) {v : LoxScript.Value} {w : Value}
    (hv : SameValue P owners v w) : SameStore P owners (s.define e x v) (t.setCell l w) := by
  have hmem := List.mem_of_getElem? hl
  obtain ⟨hpos, hlt⟩ := h.scopes _ hmem
  obtain ⟨hl', -⟩ := List.getElem?_eq_some_iff.1 hl
  refine { h with
    cells := ?_, scopes := ?_, owned := ?_, held := ?_, positive := ?_, globals := ?_ }
  · rw [Store.setCell, Array.size_modify, h.cells]
  · rw [LoxScript.Store.size_define]
    exact h.scopes
  · intro i y v' hi hv'
    rw [LoxScript.Store.find?_define hlt] at hv'
    split at hv'
    · rename_i hy
      rw [hy.1, hy.2]
      exact hmem
    · exact h.owned i y v' hi hv'
  · intro k p hp
    rw [LoxScript.Store.find?_define hlt, Store.cell_setCell (h.cells ▸ hl')]
    by_cases hk : k = l.index
    · subst hk
      rw [hl] at hp
      cases hp
      rw [if_pos ⟨rfl, rfl⟩, if_pos rfl]
      exact .some hv
    · have hne : ¬ (p.1 = e.scope ∧ p.2 = x) := by
        rintro ⟨h₁, h₂⟩
        have hpx : p = (e.scope, x) := Prod.ext h₁ h₂
        rw [hpx, ← hl] at hp
        obtain ⟨hk', -⟩ := List.getElem?_eq_some_iff.1 (hp.trans hl)
        exact hk ((List.getElem?_inj hk' h.nodup).1 hp)
      rw [if_neg hne, if_neg fun he => hk (congrArg Location.index he)]
      exact h.held k p hp
  · rw [LoxScript.Store.size_define]
    exact h.positive
  · intro y
    rw [LoxScript.Store.find?_define hlt, if_neg]
    · exact h.globals y
    · rintro ⟨h₀, -⟩
      rw [← h₀] at hpos
      exact Nat.lt_irrefl 0 hpos

theorem setGlobal (h : SameStore P owners s t) (x : String) {v : LoxScript.Value} {w : Value}
    (hv : SameValue P owners v w) :
    SameStore P owners (s.define LoxScript.Store.globals x v)
      { t with globals := t.globals.put x w } := by
  have hlt : LoxScript.Store.globals.scope.index < s.size := h.positive
  have hlocal : ∀ i y, 0 < i.index →
      (s.define LoxScript.Store.globals x v).find? i y = s.find? i y := by
    intro i y hi
    rw [LoxScript.Store.find?_define hlt, if_neg]
    rintro ⟨rfl, -⟩
    exact Nat.lt_irrefl 0 hi
  refine { h with scopes := ?_, owned := ?_, held := ?_, positive := ?_, globals := ?_ }
  · rw [LoxScript.Store.size_define]
    exact h.scopes
  · intro i y v' hi hv'
    rw [hlocal i y hi] at hv'
    exact h.owned i y v' hi hv'
  · intro k p hp
    rw [hlocal p.1 p.2 (h.scopes p (List.mem_of_getElem? hp)).1]
    exact h.held k p hp
  · rw [LoxScript.Store.size_define]
    exact h.positive
  · intro y
    rw [LoxScript.Store.find?_define hlt, Bindings.find?_put]
    by_cases hy : y = x
    · rw [if_pos ⟨rfl, hy⟩, if_pos hy]
      exact .some hv
    · rw [if_neg fun he => hy he.2, if_neg hy]
      exact h.globals y

/-- A declaration gives its name a value. -/
theorem declare (h : SameStore P owners s t) {Γ : Frames} {env : Environment} {σ : Scope}
    (hc : Corresponds owners Γ env σ) {x : String} (hx : Declares Γ x) {v : LoxScript.Value}
    {w : Value} (hv : SameValue P owners v w) :
    SameStore P owners (s.define env x v) (t.declare σ x w) := by
  cases hc with
  | globals => exact h.setGlobal x hv
  | @nested f Γ i outer own σ _ hnames hown =>
    have hsome := Scope.isSome_find? hnames x
    rw [hx f rfl] at hsome
    obtain ⟨l, hl⟩ := Option.isSome_iff_exists.1 hsome
    rw [Store.declare, Scope.find?_append, hl]
    exact h.setCell (hown _ (Scope.mem_of_find? hl)) hv

theorem setField (h : SameStore P owners s t) (i : Nat) (x : String) {v : LoxScript.Value}
    {w : Value} (hv : SameValue P owners v w) :
    SameStore P owners (s.setField i x v) (t.setField i x w) := by
  refine { h with instances := ?_, fields := ?_ }
  · simp [LoxScript.Store.setField, Store.setField, h.instances]
  · exact rel_modify_put h.instances h.fields hv i x

/-! ### Additions -/

theorem tick (h : SameStore P owners s t) : SameStore P owners s.tick.2 t.tick.2 :=
  { h with ticks := congrArg (· + 1) h.ticks }

theorem makeFunction (h : SameStore P owners s t) {f : LoxScript.Closure} {g : Closure}
    (hf : SameClosure P owners f g) :
    SameStore P owners (s.makeFunction f).2 (t.makeFunction g).2 ∧
      SameValue P owners (s.makeFunction f).1 (t.makeFunction g).1 := by
  refine ⟨{ h with identities := congrArg (· + 1) h.identities }, ?_⟩
  rw [LoxScript.Store.makeFunction, Store.makeFunction, h.identities]
  exact .function _ hf hf.1

theorem makeInstance (h : SameStore P owners s t) {c : LoxScript.ClassObject} {d : ClassObject}
    (hc : SameClass P owners c d) :
    SameStore P owners (s.makeInstance c).2 (t.makeInstance d).2 ∧
      SameValue P owners (s.makeInstance c).1 (t.makeInstance d).1 := by
  refine ⟨{ h with instances := ?_, fields := ?_ }, ?_⟩
  · simp [LoxScript.Store.makeInstance, Store.makeInstance, h.instances]
  · intro i x
    rw [LoxScript.Store.fieldsOf_makeInstance, Store.fieldsOf_makeInstance]
    exact h.fields i x
  · rw [LoxScript.Store.makeInstance, Store.makeInstance, h.instances]
    exact .instance _ hc

/-- A new scope that binds nothing has no locations. -/
theorem enter (h : SameStore P owners s t) (outer : Environment) :
    SameStore P owners (s.enter outer []).2 t := by
  have hlt := LoxScript.Store.size_lt_enter s outer []
  have hfind : ∀ i x, i.index < s.size → (s.enter outer []).2.find? i x = s.find? i x := by
    intro i x hi
    rw [LoxScript.Store.find?_enter, if_neg]
    rintro rfl
    exact Nat.lt_irrefl _ hi
  refine { h with scopes := ?_, owned := ?_, held := ?_, positive := ?_, globals := ?_ }
  · exact fun p hp => ⟨(h.scopes p hp).1, Nat.lt_trans (h.scopes p hp).2 hlt⟩
  · intro i x v hi hv
    rw [LoxScript.Store.find?_enter] at hv
    split at hv
    · cases hv
    · exact h.owned i x v hi hv
  · intro l p hp
    rw [hfind p.1 p.2 (h.scopes p (List.mem_of_getElem? hp)).2]
    exact h.held l p hp
  · exact Nat.lt_trans h.positive hlt
  · intro x
    rw [hfind ⟨0⟩ x h.positive]
    exact h.globals x

/-- A location for a name that its scope had no location for. -/
theorem fresh (h : SameStore P owners s t) {i : ScopeId} {x : String} (hpos : 0 < i.index)
    (hlt : i.index < s.size) (hnew : (i, x) ∉ owners) (hscopes : s'.size = s.size)
    (hfields : s'.fields = s.fields) (hids : s'.identities = s.identities)
    (hticks : s'.ticks = s.ticks) {v : Option LoxScript.Value} {w : Option Value}
    (hfind : ∀ j y, s'.find? j y = if j = i ∧ y = x then v else s.find? j y)
    (hv : Option.Rel (SameValue P owners) v w) (σ : Scope) :
    SameStore P (owners ++ [(i, x)]) s' (t.fresh x w σ).2 := by
  have hpre : owners <+: owners ++ [(i, x)] := List.prefix_append owners _
  have hmono : ∀ a b, SameValue P owners a b → SameValue P (owners ++ [(i, x)]) a b :=
    fun _ _ hab => hab.mono hpre
  refine ⟨?_, ?_, ?_, ?_, ?_, ?_, ?_, ?_, ?_, ?_, ?_⟩
  · exact List.nodup_append.2 ⟨h.nodup, List.pairwise_singleton _ _, by
      rintro p hp q hq rfl
      exact hnew (List.mem_singleton.1 hq ▸ hp)⟩
  · simp [Store.fresh, h.cells]
  · intro p hp
    rw [hscopes]
    rcases List.mem_append.1 hp with hp | hp
    · exact h.scopes p hp
    · rw [List.mem_singleton.1 hp]
      exact ⟨hpos, hlt⟩
  · intro j y u hj hu
    rw [hfind] at hu
    split at hu
    · rename_i he
      rw [he.1, he.2]
      exact List.mem_append_right _ List.mem_cons_self
    · exact List.mem_append_left _ (h.owned j y u hj hu)
  · intro l p hp
    rw [hfind, Store.cell_fresh, h.cells]
    rw [List.getElem?_append] at hp
    split at hp
    · rename_i hl
      have hne : ¬ (p.1 = i ∧ p.2 = x) := by
        rintro ⟨rfl, rfl⟩
        exact hnew (List.mem_of_getElem? hp)
      rw [if_neg hne, if_neg (Nat.ne_of_lt hl)]
      exact rel_imp hmono (h.held l p hp)
    · rename_i hl
      rw [List.getElem?_singleton] at hp
      split at hp
      · rename_i hl'
        cases hp
        rw [if_pos ⟨rfl, rfl⟩, if_pos (by dsimp only; omega)]
        exact rel_imp hmono hv
      · cases hp
  · rw [hscopes]
    exact h.positive
  · intro y
    rw [hfind, if_neg]
    · exact rel_imp hmono (h.globals y)
    · rintro ⟨rfl, -⟩
      exact Nat.lt_irrefl 0 hpos
  · rw [hfields, h.instances]
    rfl
  · intro j y
    have hf : s'.fieldsOf j = s.fieldsOf j := by
      rw [LoxScript.Store.fieldsOf, hfields]
      rfl
    rw [hf]
    exact rel_imp hmono (h.fields j y)
  · exact hids.trans h.identities
  · exact hticks.trans h.ticks

/-- A name bound in a scope that has just been made. -/
theorem put (h : SameStore P owners (s.enter outer b).2 t) (hpos : 0 < s.size) {x : String}
    (hnew : (⟨s.size⟩, x) ∉ owners) {v : LoxScript.Value} {w : Value}
    (hv : SameValue P owners v w) (σ : Scope) :
    SameStore P (owners ++ [(⟨s.size⟩, x)]) (s.enter outer (b.put x v)).2
      (t.fresh x (some w) σ).2 := by
  refine h.fresh (i := ⟨s.size⟩) hpos (LoxScript.Store.size_lt_enter s outer b) hnew ?_ ?_ ?_ ?_
    (v := some v) (fun j y => ?_) (.some hv) σ
  · rw [LoxScript.Store.size_enter, LoxScript.Store.size_enter]
  · rfl
  · rfl
  · rfl
  · rw [LoxScript.Store.find?_enter, LoxScript.Store.find?_enter, Bindings.find?_put]
    by_cases hj : j = ⟨s.size⟩
    · simp [hj]
    · simp [hj]

/-- Names bound in a scope that has just been made, and in front of a list of names. -/
theorem bindAll {l : List (Name × LoxScript.Value)} {l₀ : List (Name × Value)}
    (hl : List.Forall₂ (fun p q => p.1 = q.1 ∧ SameValue P owners p.2 q.2) l l₀)
    (h : SameStore P owners (s.enter outer b).2 t) (hpos : 0 < s.size)
    (hnew : ∀ p ∈ l, (⟨s.size⟩, p.1.text) ∉ owners) (hnodup : (l.map (·.1.text)).Nodup)
    (σ : Scope) :
    ∃ owners' own, owners' = owners ++ l.map (fun p => (⟨s.size⟩, p.1.text)) ∧
      SameStore P owners' (s.enter outer (l.foldl (fun b (x, v) => b.put x.text v) b)).2
        (t.bindAll σ l₀).2 ∧
      (t.bindAll σ l₀).1 = own ++ σ ∧ own.map (·.1) = (l.map (·.1.text)).reverse ∧
      ∀ p ∈ own, owners'[p.2.index]? = some (⟨s.size⟩, p.1) := by
  induction l generalizing owners b t σ l₀ with
  | nil =>
    cases hl
    exact ⟨owners, [], (List.append_nil owners).symm, h, rfl, rfl, nofun⟩
  | cons p rest ih =>
    obtain ⟨q, rest₀, hpq, hrest, rfl⟩ := List.forall₂_cons_left_iff.1 hl
    obtain ⟨x, v⟩ := p
    obtain ⟨y, w⟩ := q
    obtain ⟨rfl, hv⟩ := hpq
    have hx := hnew (x, v) List.mem_cons_self
    have hpre : owners <+: owners ++ [(⟨s.size⟩, x.text)] := List.prefix_append owners _
    rw [List.map_cons, List.nodup_cons] at hnodup
    have hnew' : ∀ r ∈ rest, (⟨s.size⟩, r.1.text) ∉ owners ++ [(⟨s.size⟩, x.text)] := by
      intro r hr hmem
      rcases List.mem_append.1 hmem with hmem | hmem
      · exact hnew r (List.mem_cons_of_mem _ hr) hmem
      · have he : r.1.text = x.text := congrArg Prod.snd (List.mem_singleton.1 hmem)
        exact hnodup.1 (List.mem_map.2 ⟨r, hr, he⟩)
    obtain ⟨owners', own, rfl, hs, hown, hnames, hlocs⟩ :=
      ih (hrest.imp fun _ _ hab => ⟨hab.1, hab.2.mono hpre⟩) (h.put hpos hx hv σ) hnew' hnodup.2
        ((x.text, ⟨t.cells.size⟩) :: σ)
    refine ⟨_, own ++ [(x.text, ⟨t.cells.size⟩)], by simp, hs, ?_, by simp [hnames], ?_⟩
    · rw [List.append_assoc]
      exact hown
    · intro r hr
      rcases List.mem_append.1 hr with hr | hr
      · exact hlocs r hr
      · rw [List.mem_singleton.1 hr]
        simp [h.cells]

/-- The scopes made so far are those before the number that the next one gets. -/
theorem not_mem_next (h : SameStore P owners s t) (x : String) : (⟨s.size⟩, x) ∉ owners :=
  fun hx => Nat.lt_irrefl _ (h.scopes _ hx).2

/-- The next declaration of a block gets its location, which is empty. -/
theorem declareNext (h : SameStore P owners s t) {Γ : Frames} {env : Environment} {σ : Scope}
    (hc : Corresponds owners Γ env σ) (hpos : 0 < env.scope.index)
    (hlt : env.scope.index < s.size)
    (hexact : ∀ y, (env.scope, y) ∈ owners → Γ.scopes.isRedeclared y = true) {x : String}
    (hx : Γ.scopes.isRedeclared x = false) :
    ∃ owners', owners.Grow env.scope.index owners' ∧ SameStore P owners' s (t.fresh x none σ).2 ∧
      Corresponds owners' (Γ.declare x true) env (t.fresh x none σ).1 ∧
      ∀ y, (env.scope, y) ∈ owners' → (Γ.declare x true).scopes.isRedeclared y = true := by
  have hnew : (env.scope, x) ∉ owners := fun hmem => Bool.false_ne_true (hx ▸ hexact x hmem)
  have hempty : s.find? env.scope x = none := by
    cases hv : s.find? env.scope x with
    | none => rfl
    | some v => exact absurd (h.owned _ _ v hpos hv) hnew
  have hsame : ∀ j y, s.find? j y = if j = env.scope ∧ y = x then none else s.find? j y := by
    intro j y
    split
    · rename_i he
      rw [he.1, he.2, hempty]
    · rfl
  have hgrow := Owners.Grow.one owners (Nat.le_refl env.scope.index) x
  have hl : (owners ++ [(env.scope, x)])[t.cells.size]? = some (env.scope, x) := by
    rw [h.cells, List.getElem?_append_right (Nat.le_refl _), Nat.sub_self]
    rfl
  refine ⟨_, hgrow, h.fresh hpos hlt hnew rfl rfl rfl rfl hsame .none σ,
    (hc.mono hgrow.prefix_).declare hpos hl true, fun y hy => ?_⟩
  cases hc with
  | globals => exact absurd hpos (Nat.lt_irrefl 0)
  | @nested f Γ i outer own σ _ _ _ =>
    show LocalScope.declares ((x, true) :: f.names) y = true
    rw [LocalScope.declares, List.any_cons, Bool.or_eq_true]
    rcases List.mem_append.1 hy with hy | hy
    · exact .inr (hexact y hy)
    · exact .inl (beq_iff_eq.2 (congrArg Prod.snd (List.mem_singleton.1 hy)).symm)

/-! ### Methods and calls -/

theorem property? (h : SameStore P owners s t) (i : Nat) {c : LoxScript.ClassObject}
    {d : ClassObject} (hc : SameClass P owners c d) (x : String) :
    Option.Rel (SameProperty P owners) (s.property? i c x) (t.property? i d x) := by
  have hf := h.fields i x
  have hm := hc.2.2 x
  unfold LoxScript.Store.property? Store.property?
  generalize (s.fieldsOf i).find? x = v at hf
  generalize (t.fieldsOf i).find? x = w at hf
  cases hf with
  | some hv => exact .some (.field hv)
  | none =>
    generalize c.method? x = f at hm
    generalize d.method? x = g at hm
    cases hm with
    | none => exact .none
    | some hfg => exact .some (.method hfg)

/-- One reserved name comes in front of the scopes. -/
theorem bindOne (h : SameStore P owners s t) {Γ : Frames} {env : Environment} {σ : Scope}
    (hc : Corresponds owners Γ env σ) (x : String) {v : LoxScript.Value} {w : Value}
    (hv : SameValue P owners v w) (f : Frame) (hf : f.names.map (·.1) = [x]) :
    ∃ owners', owners.Grow s.size owners' ∧
      SameStore P owners' (s.enter env [(x, v)]).2 (t.fresh x (some w) σ).2 ∧
      Corresponds owners' (f :: Γ) (.nested ⟨s.size⟩ env) (t.fresh x (some w) σ).1 := by
  have hgrow := Owners.Grow.one owners (i := ⟨s.size⟩) (Nat.le_refl s.size) x
  have hs := (h.enter env).put h.positive (h.not_mem_next x) hv σ
  have hown : ∀ p ∈ [(x, (⟨t.cells.size⟩ : Location))],
      (owners ++ [(⟨s.size⟩, x)])[p.2.index]? = some (⟨s.size⟩, p.1) := by
    intro p hp
    rw [List.mem_singleton.1 hp, h.cells, List.getElem?_append_right (Nat.le_refl _), Nat.sub_self]
    rfl
  refine ⟨_, hgrow, hs, ?_⟩
  show Corresponds _ _ _ ([(x, ⟨t.cells.size⟩)] ++ σ)
  exact .nested (hc.mono hgrow.prefix_) hf.symm hown

/-- The receiver comes in front of the scopes around a method. -/
theorem bind (h : SameStore P owners s t) {f : LoxScript.Closure} {g : Closure}
    (hf : SameMethod P owners f g) {v : LoxScript.Value} {w : Value} (hv : SameValue P owners v w) :
    ∃ owners', owners.Grow s.size owners' ∧ SameStore P owners' (s.bind f v).2 (t.bind g w).2 ∧
      SameClosure P owners' (s.bind f v).1 (t.bind g w).1 := by
  obtain ⟨hname, hinit, Γ, ms, hcode, hc⟩ := hf
  obtain ⟨owners', hgrow, hs, hc'⟩ := h.bindOne hc "this" hv (.receiver ms) rfl
  exact ⟨owners', hgrow, hs, hname, hinit, _, hcode, hc', fun _ => ⟨ms, Γ, rfl⟩⟩

theorem bindValue (h : SameStore P owners s t) {f : LoxScript.Closure} {g : Closure}
    (hf : SameMethod P owners f g) {v : LoxScript.Value} {w : Value} (hv : SameValue P owners v w) :
    ∃ owners', owners.Grow s.size owners' ∧
      SameStore P owners' (s.bindValue f v).2 (t.bindValue g w).2 ∧
      SameValue P owners' (s.bindValue f v).1 (t.bindValue g w).1 := by
  obtain ⟨owners', hgrow, hs, hclosure⟩ := h.bind hf hv
  exact ⟨owners', hgrow, hs.makeFunction hclosure⟩

theorem take (h : SameStore P owners s t) {p : LoxScript.Store.Property} {q : Store.Property}
    (hp : SameProperty P owners p q) {v : LoxScript.Value} {w : Value}
    (hv : SameValue P owners v w) :
    ∃ owners', owners.Grow s.size owners' ∧ SameStore P owners' (s.take p v).2 (t.take q w).2 ∧
      SameValue P owners' (s.take p v).1 (t.take q w).1 := by
  cases hp with
  | field hv' => exact ⟨owners, .refl owners _, h, hv'⟩
  | method hf => exact h.bindValue hf hv

theorem size_le_take (s : LoxScript.Store) (p : LoxScript.Store.Property) (v : LoxScript.Value) :
    s.size ≤ (s.take p v).2.size := by
  cases p with
  | field v' => exact Nat.le_refl _
  | method f =>
    rw [LoxScript.Store.take, LoxScript.Store.size_bindValue]
    exact Nat.le_succ _

theorem methodTable {Γ : Frames} {ms : List (Method (Option Nat))} {ms₀ : List (Method Unit)}
    {env : Environment} {σ : Scope} (hms : MethodsAt P (.receiver ms :: Γ) ms₀ ms)
    (hc : Corresponds owners Γ env σ) (x : String) :
    Option.Rel (SameMethod P owners) ((LoxScript.Machine.methodTable env ms).find? x)
      ((Machine.methodTable σ ms₀).find? x) := by
  have hall : List.Forall₂ (fun f f₀ => f₀.name = f.name ∧
      CodeAt P (.receiver ms :: Γ) f₀.code f.code) ms ms₀ := List.Forall₂.flip hms.forall₂
  refine rel_find?_foldl (hall.imp fun f f₀ hf => ?_) (fun _ => .none) x
  obtain ⟨y, c⟩ := f
  obtain ⟨y, c₀⟩ := f₀
  obtain ⟨rfl, hcode⟩ := hf
  exact ⟨rfl, rfl, rfl, Γ, ms, hcode, hc⟩

theorem makeClass (h : SameStore P owners s t) (name : String)
    {methods : Bindings LoxScript.Closure} {methods₀ : Bindings Closure}
    (hms : ∀ x, Option.Rel (SameMethod P owners) (methods.find? x) (methods₀.find? x))
    {parent : Option LoxScript.ClassObject} {parent₀ : Option ClassObject}
    (hparent : Option.Rel (SameClass P owners) parent parent₀) :
    SameStore P owners (s.makeClass name methods parent).2 (t.makeClass name methods₀ parent₀).2 ∧
      SameValue P owners (s.makeClass name methods parent).1
        (t.makeClass name methods₀ parent₀).1 := by
  refine ⟨{ h with identities := congrArg (· + 1) h.identities }, ?_⟩
  rw [LoxScript.Store.makeClass, Store.makeClass, h.identities]
  refine .class ⟨rfl, rfl, fun x => ?_⟩
  cases hparent with
  | none => exact hms x
  | some hc => exact rel_or (hms x) (hc.2.2 x)

/-- The parameters of a call come in front of the scopes around a function. -/
theorem call (h : SameStore P owners s t) {f : LoxScript.Closure} {g : Closure}
    (hf : SameClosure P owners f g) {vs : List LoxScript.Value} {ws : List Value}
    (hvs : List.Forall₂ (SameValue P owners) vs ws) (hlen : vs.length = f.arity) :
    ∃ owners', owners.Grow s.size owners' ∧
      SameStore P owners'
        (s.enter f.environment (LoxScript.Machine.parameterBindings f vs)).2
        (t.bindAll g.environment (g.code.params.zip ws)).2 ∧
      SameRest P owners' (.nested ⟨s.size⟩ f.environment)
        (t.bindAll g.environment (g.code.params.zip ws)).1 f.code.body g.code.body := by
  obtain ⟨-, -, Γ, hcode, hc, -⟩ := hf
  obtain ⟨ss₀, hg, hss, -, hnodup⟩ := hcode.body
  rw [hg]
  have hzip : List.Forall₂ (fun p q => p.1 = q.1 ∧ SameValue P owners p.2 q.2)
      (f.code.params.zip vs) (f.code.params.zip ws) := by
    clear hss hnodup hlen
    generalize f.code.params = params
    induction params generalizing vs ws with
    | nil => exact .nil
    | cons x rest ih =>
      cases hvs with
      | nil => exact .nil
      | cons hv hvs => exact .cons ⟨rfl, hv⟩ (ih hvs)
  have hnames : (f.code.params.zip vs).map (·.1.text) = f.code.params.map (·.text) := by
    have hfst : (f.code.params.zip vs).map Prod.fst = f.code.params :=
      List.map_fst_zip (Nat.le_of_eq hlen.symm)
    rw [show (f.code.params.zip vs).map (·.1.text) =
      ((f.code.params.zip vs).map Prod.fst).map (·.text) from List.map_map.symm, hfst]
  obtain ⟨owners', own, howners, hs, hown, hlist, hlocs⟩ :=
    SameStore.bindAll hzip (h.enter f.environment) h.positive
      (fun p _ => h.not_mem_next p.1.text) (hnames ▸ hnodup) g.environment
  have hgrow : owners.Grow s.size owners' := by
    refine ⟨_, howners, fun p hp => ?_⟩
    obtain ⟨q, -, rfl⟩ := List.mem_map.1 hp
    exact Nat.le_refl _
  refine ⟨owners', hgrow, hs, _, hss, ?_, fun x hx => ?_⟩
  · have hsame : (t.bindAll g.environment ((Code.mk f.code.params ss₀).params.zip ws)).1 =
        own ++ g.environment := hown
    rw [hsame]
    refine .nested (hc.mono hgrow.prefix_) ?_ hlocs
    rw [hlist, hnames, Frames.parameterNames, List.map_map, List.map_reverse]
    rfl
  · rw [howners] at hx
    rcases List.mem_append.1 hx with hx | hx
    · exact absurd hx (h.not_mem_next x)
    · obtain ⟨p, hp, he⟩ := List.mem_map.1 hx
      have hpx : p.1.text ∈ f.code.params.map (·.text) := hnames ▸ List.mem_map_of_mem hp
      obtain ⟨q, hq, hqx⟩ := List.mem_map.1 hpx
      show (Frames.parameterNames f.code.params).declares x = true
      refine List.any_eq_true.2 ⟨(q.text, true), ?_, ?_⟩
      · exact List.mem_map_of_mem (List.mem_reverse.2 hq)
      · have hpx' : p.1.text = x := congrArg Prod.snd he
        exact beq_iff_eq.2 (hqx.trans hpx')

end SameStore

end
end LoxScript.Lexical
