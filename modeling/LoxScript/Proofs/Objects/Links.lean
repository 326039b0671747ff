import LoxScript.Proofs.Objects.Ages

/-!
Lookups that follow links.

Environments and classes refer to others by links that are set once.  To look something up is to
follow the links, one in each round, until it is found or there is no further link.  Since a link
leads to what is older, the rounds come to an end, and what they find is what the chain holds
nearest.
-/

namespace LoxScript

/-- How far a search has come. -/
inductive Search (α : Type) where
  | found (a : α)
  | missing
  | unfinished
deriving DecidableEq

namespace Search
variable {ι τ α : Type}

def ofOption : Option α → Search α
  | some a => found a
  | none => missing

/-- A search along links, after so many rounds. -/
def along (next : ι → Option ι) (here : ι → Option α) : Nat → ι → Search α
  | 0, _ => unfinished
  | rounds + 1, i =>
    match here i with
    | some a => found a
    | none =>
      match next i with
      | none => missing
      | some j => along next here rounds j

/-- If links lead to what is older, a search has an answer after as many rounds as there are
ages. -/
theorem along_eq {next : ι → Option ι} {here : ι → Option α} {key : τ → ι} {P : τ → Prop}
    (up : τ → Option τ) (age : τ → Nat) (result : τ → Option α)
    (hnext : ∀ t, P t → next (key t) = (up t).map key)
    (hage : ∀ t u, P t → up t = some u → P u ∧ age u < age t)
    (hresult : ∀ t, P t → result t = (here (key t)).or ((up t).bind result))
    {rounds : Nat} {t : τ} (ht : P t) (hlt : age t < rounds) :
    along next here rounds (key t) = .ofOption (result t) := by
  induction rounds generalizing t with
  | zero => exact absurd hlt (Nat.not_lt_zero _)
  | succ rounds ih =>
    rw [along, hresult t ht]
    cases here (key t) with
    | some a => rfl
    | none =>
      rw [hnext t ht]
      cases hup : up t with
      | none => rfl
      | some u =>
        obtain ⟨hu, hage⟩ := hage t u ht hup
        exact ih hu (Nat.lt_of_lt_of_le hage (Nat.le_of_lt_succ hlt))

end Search

/-- What numbers of scopes and of classes stand for. -/
structure Links where
  outer : ScopeId → Option ScopeId
  parent : Nat → Option Nat
  name : Nat → String
  methods : Nat → Bindings Closure

/-- The environment around. -/
def Environment.outer? : Environment → Option Environment
  | root _ => none
  | nested _ outer => some outer

namespace Links

/-- The links are those of all the environments and classes that the steps have made. -/
structure Describes (settings : Settings) (past : List Machine) (L : Links) : Prop where
  outer : ∀ e, IsMade settings past e → L.outer e.scope = e.outer?.map Environment.scope
  parent : ∀ c, Made past c → L.parent c.identity = c.parent.map ClassOf.identity
  name : ∀ c, Made past c → L.name c.identity = c.name
  methods : ∀ c, Made past c → L.methods c.identity = c.methods

/-- So many links further. -/
def ancestor? (L : Links) : Nat → ScopeId → Option ScopeId
  | 0, i => some i
  | distance + 1, i => (L.outer i).bind (L.ancestor? distance)

/-- Looking names up from an environment, in the scopes of a store, is to follow links. -/
structure Finds (L : Links) (s : Scopes Value) (e : Environment) : Prop where
  get : ∀ x rounds, e.scope.index < rounds →
    Search.along L.outer (fun i => (s.bindings i).find? x) rounds e.scope =
      .ofOption (s.get? e x)
  assign : ∀ x v rounds, e.scope.index < rounds →
    Search.along L.outer (fun i => if (s.bindings i).binds x then some (s.put i x v) else none)
      rounds e.scope = .ofOption (s.assign? e x v)
  ancestor : ∀ distance,
    L.ancestor? distance e.scope = (e.ancestor? distance).map Environment.scope

end Links

/-! ### Methods -/

/-- A step makes a class from these methods, closed over the environment. -/
inductive Machine.Declares (m : Machine) :
    ClassObject → List (Method (Option Nat)) → Environment → Prop
  | base {x ms env k} : m.focus = .execute (.classDef x none ms) env k →
      Declares m (.mk m.store.identities x.text (methodTable env ms) none) ms env
  | derived {c x y ms env k} : m.focus = .deliver (.class c) (.inherit x y ms env k) →
      Declares m (.mk m.store.identities x.text (methodTable (m.inside env) ms) (some c)) ms
        (m.inside env)

def Method.closure (env : Environment) (g : Method (Option Nat)) : Closure :=
  { name := some g.name.text, code := g.code, environment := env,
    isInitializer := g.name.text == "init" }

section
variable (past : List Machine) (c : ClassObject) (x : String)

/-- The class was declared with a method of that name. -/
def DeclaresMethod : Prop :=
  ∃ q ∈ past, ∃ ms env, q.Declares c ms env ∧ ∃ g ∈ ms, g.name.text = x

/-- The function is the last method of that name with which the class was declared. -/
def LastDeclared (f : Closure) : Prop :=
  ∃ q ∈ past, ∃ earlier g later env, q.Declares c (earlier ++ g :: later) env ∧
    g.name.text = x ∧ (∀ h ∈ later, h.name.text ≠ x) ∧ f = g.closure env

/-- Methods are found by following links, in the nearest class that declares them. -/
structure Links.Dispatches (L : Links) : Prop where
  search : ∀ x rounds, c.identity < rounds →
    Search.along L.parent (fun i => (L.methods i).find? x) rounds c.identity =
      .ofOption (c.method? x)
  found_iff : ∀ x f, c.method? x = some f ↔ ∃ nearer d farther,
    c.lineage = nearer ++ d :: farther ∧ LastDeclared past d x f ∧
      ∀ b ∈ nearer, ¬ DeclaresMethod past b x
  missing_iff : ∀ x, c.method? x = none ↔ ∀ d ∈ c.lineage, ¬ DeclaresMethod past d x

end

/-- Chains of environments and of classes come to an end, and they never change. -/
structure Lasting (settings : Settings) (past : List Machine) (m : Machine) : Prop where
  ordered : past.Pairwise (Machine.Precedes settings)
  made : ∀ e, m.Mentions e → IsMade settings past e
  outer : ∀ i e, IsMade settings past (.nested i e) →
    IsMade settings past e ∧ e.scope.index < i.index
  known : ∀ c, m.Knows c → Made past c
  parent : ∀ c p, Made past c → c.parent = some p → Made past p ∧ p.identity < c.identity
  links : ∃ L : Links, L.Describes settings past
  finds : ∀ L : Links, L.Describes settings past → ∀ e, IsMade settings past e →
    L.Finds m.store.scopes e
  dispatches : ∀ L : Links, L.Describes settings past → ∀ c, Made past c → L.Dispatches past c

namespace Bindings
variable {α β : Type} (key : β → String) (value : β → α)

/-- In a table that is built entry by entry, the last one counts. -/
theorem find?_foldl_put (l : List β) (b : Bindings α) (x : String) :
    (l.foldl (fun b p => b.put (key p) (value p)) b).find? x =
      ((l.reverse.find? (key · == x)).map value).or (b.find? x) := by
  induction l generalizing b with
  | nil => rfl
  | cons p rest ih =>
    rw [List.foldl_cons, ih, List.reverse_cons, List.find?_append, find?_put]
    cases rest.reverse.find? (key · == x) with
    | some q => rfl
    | none =>
      by_cases hx : x = key p
      · simp [hx]
      · have hne : (key p == x) = false := beq_eq_false_iff_ne.2 (Ne.symm hx)
        simp [hx, hne]

end Bindings

namespace Machine
variable {m : Machine} {c : ClassObject} {ms : List (Method (Option Nat))} {env : Environment}
  {x : String} {f : Closure}

theorem find?_methodTable (env : Environment) (ms : List (Method (Option Nat))) (x : String) :
    (methodTable env ms).find? x =
      (ms.reverse.find? (·.name.text == x)).map (Method.closure env) := by
  have h := Bindings.find?_foldl_put (fun g : Method (Option Nat) => g.name.text)
    (Method.closure env) ms [] x
  exact h.trans (Option.or_none)

theorem Creates.declares (h : m.Creates (.class c)) : ∃ ms env, m.Declares c ms env := by
  cases h with
  | base h => exact ⟨_, _, .base h⟩
  | derived h => exact ⟨_, _, .derived h⟩

theorem Declares.methods_eq (h : m.Declares c ms env) : c.methods = methodTable env ms := by
  cases h <;> rfl

/-- A class has no method of that name of its own. -/
theorem Declares.find?_eq_none (h : m.Declares c ms env) :
    c.methods.find? x = none ↔ ∀ g ∈ ms, g.name.text ≠ x := by
  rw [h.methods_eq, find?_methodTable, Option.map_eq_none_iff, List.find?_eq_none]
  simp

/-- Of the methods of that name of its own, a class has the last. -/
theorem Declares.find?_eq_some (h : m.Declares c ms env) : c.methods.find? x = some f ↔
    ∃ earlier g later, ms = earlier ++ g :: later ∧ g.name.text = x ∧
      (∀ h ∈ later, h.name.text ≠ x) ∧ f = g.closure env := by
  rw [h.methods_eq, find?_methodTable, Option.map_eq_some_iff]
  constructor
  · rintro ⟨g, hg, rfl⟩
    obtain ⟨hx, later, earlier, hms, hlater⟩ := List.find?_eq_some_iff_append.1 hg
    refine ⟨earlier.reverse, g, later.reverse, ?_, eq_of_beq hx, fun h hh => ?_, rfl⟩
    · rw [← List.reverse_reverse ms, hms]
      simp
    · simpa using hlater h (List.mem_reverse.1 hh)
  · rintro ⟨earlier, g, later, rfl, hx, hlater, rfl⟩
    refine ⟨g, List.find?_eq_some_iff_append.2 ⟨beq_iff_eq.2 hx, later.reverse, earlier.reverse,
      by simp, fun h hh => ?_⟩, rfl⟩
    simpa using hlater h (List.mem_reverse.1 hh)

end Machine

namespace Made
variable {past : List Machine} {c : ClassObject} {x : String} {f : Closure}

theorem find?_eq_none (h : Made past c) :
    c.methods.find? x = none ↔ ¬ DeclaresMethod past c x := by
  constructor
  · rintro hnone ⟨q, hq, ms, env, hd, g, hg, hx⟩
    exact hd.find?_eq_none.1 hnone g hg hx
  · intro hnot
    obtain ⟨q, hq, hc⟩ := h
    obtain ⟨ms, env, hd⟩ := hc.declares
    exact hd.find?_eq_none.2 fun g hg hx => hnot ⟨q, hq, ms, env, hd, g, hg, hx⟩

theorem find?_eq_some (h : Made past c) :
    c.methods.find? x = some f ↔ LastDeclared past c x f := by
  constructor
  · intro hf
    obtain ⟨q, hq, hc⟩ := h
    obtain ⟨ms, env, hd⟩ := hc.declares
    obtain ⟨earlier, g, later, rfl, hg⟩ := hd.find?_eq_some.1 hf
    exact ⟨q, hq, earlier, g, later, env, hd, hg⟩
  · rintro ⟨q, hq, earlier, g, later, env, hd, hg⟩
    exact hd.find?_eq_some.2 ⟨earlier, g, later, rfl, hg⟩

end Made

/-- A search from an environment outwards. -/
theorem Ages.along_environments {settings : Settings} {past : List Machine} {s : Store}
    (h : Ages settings past s) {L : Links} (hL : L.Describes settings past) {α : Type}
    {here : ScopeId → Option α} (result : Environment → Option α)
    (hroot : ∀ i, result (.root i) = here i)
    (hnested : ∀ i e, result (.nested i e) = (here i).or (result e)) {e : Environment}
    (he : IsMade settings past e) {rounds : Nat} (hlt : e.scope.index < rounds) :
    Search.along L.outer here rounds e.scope = .ofOption (result e) := by
  refine Search.along_eq Environment.outer? (fun e => e.scope.index) result hL.outer
    (fun t u ht hu => ?_) (fun t _ => ?_) he hlt
  · cases t with
    | root i => cases hu
    | nested i t =>
      cases hu
      exact h.isMade_outer ht
  · cases t with
    | root i => exact (hroot i).trans Option.or_none.symm
    | nested i e => exact hnested i e

section
variable {settings : Settings} {past : List Machine} {s : Store} {L : Links}

theorem Ages.ancestor_eq (h : Ages settings past s) (hL : L.Describes settings past)
    {e : Environment} (he : IsMade settings past e) (distance : Nat) :
    L.ancestor? distance e.scope = (e.ancestor? distance).map Environment.scope := by
  induction distance generalizing e with
  | zero => rfl
  | succ distance ih =>
    rw [Links.ancestor?, hL.outer e he]
    cases e with
    | root i => rfl
    | nested i outer => exact ih (h.isMade_outer he).1

theorem Ages.finds (h : Ages settings past s) (hL : L.Describes settings past)
    {e : Environment} (he : IsMade settings past e) : L.Finds s.scopes e where
  get x rounds hlt :=
    h.along_environments hL (fun e => s.scopes.get? e x) (fun i => s.scopes.get?_root i x)
      (fun i e => s.scopes.get?_nested i e x) he hlt
  assign x v rounds hlt := by
    refine h.along_environments hL (fun e => s.scopes.assign? e x v) (fun i => ?_)
      (fun i e => ?_) he hlt
    all_goals
      rw [Scopes.assign?, Scopes.holder?]
      split <;> rfl
  ancestor := h.ancestor_eq hL he

theorem Chronicle.parent_lt (h : Chronicle settings past s) (hages : Ages settings past s)
    {c p : ClassObject} (hc : Made past c) (hp : c.parent = some p) :
    Made past p ∧ p.identity < c.identity := by
  refine ⟨h.made_parent hc hp, ?_⟩
  obtain ⟨q, hq, hc⟩ := hc
  exact hages.parents q hq c p hc hp

theorem Chronicle.dispatches (h : Chronicle settings past s) (hages : Ages settings past s)
    (hL : L.Describes settings past) {c : ClassObject} (hc : Made past c) :
    L.Dispatches past c where
  search x rounds hlt := by
    refine Search.along_eq (P := Made past) ClassOf.parent ClassOf.identity (ClassOf.method? x)
      hL.parent (fun t u ht hu => h.parent_lt hages ht hu)
      (fun t ht => ?_) hc hlt
    rw [hL.methods t ht]
    obtain ⟨i, name, table, parent⟩ := t
    cases parent with
    | none => exact Option.or_none.symm
    | some p => rfl
  found_iff x f := by
    have hmade := ClassOf.forall_mem_lineage (fun _ _ => h.made_parent) c hc
    rw [ClassOf.method?_eq_findSome?, List.findSome?_eq_some_iff]
    constructor
    · rintro ⟨nearer, d, farther, hl, hf, hnearer⟩
      rw [hl] at hmade
      refine ⟨nearer, d, farther, hl, (hmade d (by simp)).find?_eq_some.1 hf, fun b hb => ?_⟩
      exact (hmade b (List.mem_append_left _ hb)).find?_eq_none.1 (hnearer b hb)
    · rintro ⟨nearer, d, farther, hl, hf, hnearer⟩
      rw [hl] at hmade
      refine ⟨nearer, d, farther, hl, (hmade d (by simp)).find?_eq_some.2 hf, fun b hb => ?_⟩
      exact (hmade b (List.mem_append_left _ hb)).find?_eq_none.2 (hnearer b hb)
  missing_iff x := by
    have hmade := ClassOf.forall_mem_lineage (fun _ _ => h.made_parent) c hc
    rw [ClassOf.method?_eq_findSome?, List.findSome?_eq_none_iff]
    exact forall₂_congr fun d hd => (hmade d hd).find?_eq_none

/-- What has a number of its own can be looked up by it. -/
theorem exists_table {τ ι β : Type} [Inhabited β] {P : τ → Prop} {key : τ → ι} (value : τ → β)
    (hkey : ∀ t u, P t → P u → key t = key u → t = u) :
    ∃ f : ι → β, ∀ t, P t → f (key t) = value t := by
  have hinjective : Function.Injective fun t : {t // P t} => key t.1 :=
    fun t u h => Subtype.ext (hkey t.1 u.1 t.2 u.2 h)
  exact ⟨Function.extend (fun t : {t // P t} => key t.1) (fun t => value t.1) default,
    fun t ht => hinjective.extend_apply _ _ ⟨t, ht⟩⟩

theorem Chronicle.exists_links (h : Chronicle settings past s) (hages : Ages settings past s) :
    ∃ L : Links, L.Describes settings past := by
  have hscope (e e' : Environment) (he : IsMade settings past e) (he' : IsMade settings past e') :=
    h.isMade_unique he he'
  have hidentity (c c' : ClassObject) (hc : Made past c) (hc' : Made past c') :=
    hages.made_unique hc hc'
  obtain ⟨outer, houter⟩ := exists_table (fun e => e.outer?.map Environment.scope) hscope
  obtain ⟨parent, hparent⟩ := exists_table (fun c => c.parent.map ClassOf.identity) hidentity
  obtain ⟨name, hname⟩ := exists_table ClassOf.name hidentity
  obtain ⟨methods, hmethods⟩ := exists_table ClassOf.methods hidentity
  exact ⟨⟨outer, parent, name, methods⟩, houter, hparent, hname, hmethods⟩

end

/-- In every state of every run of a session, chains come to an end and never change. -/
theorem Session.Reached.lasting {settings : Settings} {sources : List String}
    {past : List Machine} {s : Session} (hs : s.Reached settings sources past) {source : String}
    {program : List RStmt} (hc : compile source = .ok program) {n : Nat} {m : Machine}
    (hm : (Machine.start program s.store).run settings n = (m, none)) :
    Lasting settings (past ++ (Machine.start program s.store).passed settings n) m := by
  have h := hs.traced hc hm
  have hages := hs.ages_run hs.ages hc hm
  exact {
    ordered := hages.ordered
    made := fun e he => h.isMade_of_mentions hages he
    outer := fun i e he => hages.isMade_outer he
    known := fun c hknows => h.chronicle.made_of_knows (fun _ => h.origin) hknows
    parent := fun c p hc hp => h.chronicle.parent_lt hages hc hp
    links := h.chronicle.exists_links hages
    finds := fun L hL e he => hages.finds hL he
    dispatches := fun L hL c hc => h.chronicle.dispatches hages hL hc }

/-- A class gets the name of the one that its superclass extends.  The chain from it is finite: it
has the two classes of that name at its ends. -/
theorem Session.lasting_redeclared :
    ∃ (s : Session) (past : List Machine) (program : List RStmt) (m : Machine) (c : ClassObject)
      (k : ValueCont),
      s.Reached {} ["class A { m() {} } class B < A {} class A < B {}"] past ∧
      compile "A;" = .ok program ∧ (Machine.start program s.store).run {} 3 = (m, none) ∧
      m.focus = .deliver (.class c) k ∧ c.lineage.map ClassOf.name = ["A", "B", "A"] ∧
      c.lineage.map ClassOf.identity = [2, 1, 0] ∧
      Lasting {} (past ++ (Machine.start program s.store).passed {} 3) m := by
  have h₂ : compile "A;" = .ok [.expression (.var ⟨"A", 1⟩ none)] := by cbv
  have h₁ : compile "class A { m() {} } class B < A {} class A < B {}" = .ok
      [.classDef ⟨"A", 1⟩ none [.mk ⟨"m", 1⟩ (.mk [] [])],
        .classDef ⟨"B", 1⟩ (some (⟨"A", 1⟩, none)) [],
        .classDef ⟨"A", 1⟩ (some (⟨"B", 1⟩, none)) []] := by cbv
  have hs : Session.Reached {} _ _ _ :=
    .run 11 "class A { m() {} } class B < A {} class A < B {}" (.fresh {})
  rw [Session.run, Session.runWith, Session.passed, Session.read_of_ok h₁] at hs
  exact ⟨_, _, _, _, _, _, hs, h₂, rfl, rfl, rfl, rfl, Session.Reached.lasting hs h₂ (n := 3) rfl⟩

end LoxScript
