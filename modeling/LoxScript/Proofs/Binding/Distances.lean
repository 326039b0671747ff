import LoxScript.Proofs.Binding.Activation
import LoxScript.Proofs.Binding.Balanced

/-!
What resolution records, stated by the positions in a program.

A position is the way from the whole program down to one of its nodes.  The scopes around it can be
read off the nodes on that way, and what each of them holds is given by where the way goes on in it:
a declaration counts if it stands before the position or around it.  Resolution comes to the same,
although it only ever knows a stack of scopes.
-/

namespace LoxScript
namespace Static

/-- A program, or a part of one that may lie in another part. -/
inductive Node (ρ : Type) where
  | program (body : List (Stmt ρ))
  | expr (e : Expr ρ)
  | stmt (s : Stmt ρ)
  | method (m : Method ρ)

/-- The names that statements declare in the scope they stand in. -/
def declared {ρ : Type} (body : List (Stmt ρ)) : List String :=
  body.filterMap fun s => s.declares?.map Name.text

namespace Node
variable {ρ : Type}

/-- The use of a name that a node is. -/
def use? : Node ρ → Option (Use ρ)
  | expr e => e.use?
  | _ => none

/-- The name that a node declares in the scope it stands in. -/
def declares? : Node ρ → Option Name
  | stmt s => s.declares?
  | _ => none

/-- The parameters and the statements of a node that has a scope for them; a block has no
parameters. -/
def body? : Node ρ → Option (List Name × List (Stmt ρ))
  | expr (.function _ c) | stmt (.function _ c) | method (.mk _ c) => some (c.params, c.body)
  | stmt (.block body) => some ([], body)
  | _ => none

/-- The nodes directly in an expression other than a function. -/
def ofOperands : Expr ρ → List (Node ρ)
  | .grouping inner => [expr inner]
  | .unary _ _ operand => [expr operand]
  | .binary left _ _ right => [expr left, expr right]
  | .logical left _ _ right => [expr left, expr right]
  | .assign _ _ value => [expr value]
  | .call callee _ arguments => expr callee :: arguments.map expr
  | .get object _ => [expr object]
  | .set object _ value => [expr object, expr value]
  | .update object _ _ _ value => [expr object, expr value]
  | _ => []

/-- The nodes directly in a statement other than a block or a function.  The first part of a class
with a superclass is the reference to that. -/
def ofParts : Stmt ρ → List (Node ρ)
  | .expression e => [expr e]
  | .print e => [expr e]
  | .var _ initial => initial.toList.map expr
  | .branch condition yes no => expr condition :: stmt yes :: no.toList.map stmt
  | .loop condition body => [expr condition, stmt body]
  | .ret _ value => value.toList.map expr
  | .classDef _ parent methods =>
    parent.toList.map (fun y => expr (.var y.1 y.2)) ++ methods.map method
  | _ => []

/-- The nodes directly in a node; those of a function are the statements of its body. -/
def parts (n : Node ρ) : List (Node ρ) :=
  match n.body? with
  | some (_, body) => body.map stmt
  | none =>
    match n with
    | program body => body.map stmt
    | expr e => ofOperands e
    | stmt s => ofParts s
    | method _ => []

/-- The names in each of the scopes that a node puts around its `i`-th part, innermost first.  The
scope of a body holds the parameters and what the statements declare up to the part, which may be
the last of them to declare a name.  The reference to a superclass stands outside of the scopes of
its class. -/
def scopesAt (n : Node ρ) (i : Nat) : List (List String) :=
  match n.body? with
  | some (params, body) => [params.map Name.text ++ declared (body.take (i + 1))]
  | none =>
    match n, i with
    | stmt (.classDef _ none _), _ => [["this"]]
    | stmt (.classDef _ (some _) _), 0 => []
    | stmt (.classDef _ (some _) _), _ + 1 => [["this"], ["super"]]
    | _, _ => []

/-- The node at a position. -/
def at? (n : Node ρ) : List Nat → Option (Node ρ)
  | [] => some n
  | i :: path => n.parts[i]?.bind (·.at? path)

/-- The scopes around a position, innermost first. -/
def scopesAround (n : Node ρ) : List Nat → List (List String)
  | [] => []
  | i :: path => n.parts[i]?.elim [] (·.scopesAround path) ++ n.scopesAt i

/-! ### What resolution does with a node -/

/-- A node, resolved in the given surroundings and scopes. -/
def resolve (a : Surroundings) (Γ : LocalScopes) : Node Unit → Node (Option Nat)
  | program body => program (Resolve.stmts a Γ body).value
  | expr e => expr (Resolve.expr a Γ e).value
  | stmt s => stmt (Resolve.stmt a Γ s).value
  | method (.mk x c) =>
    method (.mk x (Resolve.code a (if x.text = "init" then .initializer else .method) Γ c).value)

/-- The surroundings of the `i`-th part of a node. -/
def around (a : Surroundings) : Node ρ → Nat → Surroundings
  | expr (.function _ _), _ | stmt (.function _ _), _ => { a with body := .function }
  | method (.mk x _), _ =>
    { a with body := if x.text = "init" then .initializer else .method }
  | stmt (.classDef _ none _), _ => { a with classBody := .base }
  | stmt (.classDef _ (some _) _), _ + 1 => { a with classBody := .derived }
  | _, _ => a

/-- The scopes when resolution has come into a node, which may have declared its name. -/
def entered (Γ : LocalScopes) (n : Node ρ) : LocalScopes :=
  match n.declares? with
  | some x => Γ.declare x.text true
  | none => Γ

/-- The scopes when resolution comes to the `i`-th part of a node. -/
def within (Γ : LocalScopes) (n : Node ρ) (i : Nat) : LocalScopes :=
  match n.body? with
  | some (params, body) =>
    (body.take i).foldl LocalScopes.after (Frames.parameterNames params :: n.entered Γ)
  | none =>
    match n, i with
    | program body, _ => (body.take i).foldl LocalScopes.after Γ
    | stmt (.var x _), _ => Γ.declare x.text false
    | stmt (.classDef x none _), _ => [("this", true)] :: Γ.declare x.text true
    | stmt (.classDef x (some _) _), 0 => Γ.declare x.text true
    | stmt (.classDef x (some _) _), _ + 1 =>
      [("this", true)] :: [("super", true)] :: Γ.declare x.text true
    | _, _ => Γ

theorem getElem?_stmts (a : Surroundings) (Γ : LocalScopes) (ss : List (Stmt Unit)) (i : Nat) :
    (Resolve.stmts a Γ ss).value[i]? = ss[i]?.map fun s =>
      (Resolve.stmt a ((ss.take i).foldl LocalScopes.after Γ) s).value := by
  induction ss generalizing Γ i with
  | nil => rfl
  | cons s ss ih =>
    cases i with
    | zero => rfl
    | succ i => exact ih (Γ.after s) i

theorem value_exprs (a : Surroundings) (Γ : LocalScopes) (es : List (Expr Unit)) :
    (Resolve.exprs a Γ es).value = es.map fun e => (Resolve.expr a Γ e).value := by
  induction es with
  | nil => rfl
  | cons e es ih => exact congrArg _ ih

theorem getElem?_methods (a : Surroundings) (Γ : LocalScopes) (ms : List (Method Unit)) (i : Nat) :
    ((Resolve.methods a Γ ms).value.map method)[i]? =
      (ms.map method)[i]?.map fun m => m.resolve a Γ := by
  induction ms generalizing i with
  | nil => rfl
  | cons m ms ih =>
    obtain ⟨x, c⟩ := m
    cases i with
    | zero => rfl
    | succ i => exact ih i

section
variable (a : Surroundings) (Γ : LocalScopes)

theorem value_code (kind : Body) (c : Code Unit) : (Resolve.code a kind Γ c).value =
    .mk c.params (Resolve.stmts { a with body := kind } (Frames.parameterNames c.params :: Γ)
      c.body).value := by
  obtain ⟨params, body⟩ := c
  show Code.mk params _ = _
  rw [Resolve.value_declareParams_nil]
  rfl

theorem body?_resolve (n : Node Unit) (i : Nat) : (n.resolve a Γ).body? = n.body?.map fun b =>
    (b.1, (Resolve.stmts (n.around a i) (Frames.parameterNames b.1 :: n.entered Γ) b.2).value) := by
  cases n with
  | program body => rfl
  | expr e =>
    cases e with
    | function line c =>
      show (expr (.function line (Resolve.code a .function Γ c).value)).body? = _
      rw [value_code]
      rfl
    | _ => rfl
  | stmt s =>
    cases s with
    | function x c =>
      show (stmt (.function x (Resolve.code a .function (Γ.declare x.text true) c).value)).body? = _
      rw [value_code]
      rfl
    | classDef x parent ms => rcases parent with _ | ⟨y, ref⟩ <;> rfl
    | _ => rfl
  | method m =>
    obtain ⟨x, c⟩ := m
    show (method (.mk x (Resolve.code a _ Γ c).value)).body? = _
    rw [value_code]
    rfl

theorem getElem?_parts_of_body {n : Node Unit} {params : List Name} {body : List (Stmt Unit)}
    (h : n.body? = some (params, body)) (i : Nat) : (n.resolve a Γ).parts[i]? =
      n.parts[i]?.map (resolve (n.around a i) (n.within Γ i)) := by
  have hbody := body?_resolve a Γ n i
  rw [h] at hbody
  unfold parts within
  rw [h, hbody]
  simp only [Option.map_some, List.getElem?_map, getElem?_stmts, Option.map_map]
  rfl

theorem ofOperands_resolve {e : Expr Unit} (h : (expr e).body? = none) :
    (expr (Resolve.expr a Γ e).value).parts = (expr e).parts.map (resolve a Γ) := by
  cases e with
  | function line c => cases h
  | call callee line arguments =>
    show expr _ :: (Resolve.exprs a Γ arguments).value.map expr = _
    rw [value_exprs, List.map_map]
    show _ = resolve a Γ (expr callee) :: (arguments.map expr).map (resolve a Γ)
    rw [List.map_map]
    rfl
  | _ => rfl

variable {a Γ} in
theorem getElem?_parts_of_map {Δ : LocalScopes} {n : Node Unit} {i : Nat} (ha : n.around a i = a)
    (hΔ : n.within Γ i = Δ) (h : (n.resolve a Γ).parts = n.parts.map (resolve a Δ)) :
    (n.resolve a Γ).parts[i]? = n.parts[i]?.map (resolve (n.around a i) (n.within Γ i)) := by
  rw [ha, hΔ, h, List.getElem?_map]

/-- Each part of a node is resolved in the surroundings and scopes given for it. -/
theorem getElem?_parts_resolve (n : Node Unit) (i : Nat) : (n.resolve a Γ).parts[i]? =
    n.parts[i]?.map (resolve (n.around a i) (n.within Γ i)) := by
  cases hb : n.body? with
  | some b => exact getElem?_parts_of_body a Γ hb i
  | none =>
    cases n with
    | program body =>
      show ((Resolve.stmts a Γ body).value.map stmt)[i]? =
        (body.map stmt)[i]?.map (resolve a ((body.take i).foldl LocalScopes.after Γ))
      simp only [List.getElem?_map, getElem?_stmts, Option.map_map]
      rfl
    | method m => cases m; cases hb
    | expr e =>
      cases e with
      | function => cases hb
      | _ => exact getElem?_parts_of_map rfl rfl (ofOperands_resolve a Γ rfl)
    | stmt s =>
      cases s with
      | block | function => cases hb
      | expression e => exact getElem?_parts_of_map rfl rfl rfl
      | print e => exact getElem?_parts_of_map rfl rfl rfl
      | var x initial => cases initial <;> exact getElem?_parts_of_map rfl rfl rfl
      | branch condition yes no => cases no <;> exact getElem?_parts_of_map rfl rfl rfl
      | loop condition body => exact getElem?_parts_of_map rfl rfl rfl
      | ret line value => cases value <;> exact getElem?_parts_of_map rfl rfl rfl
      | classDef x parent ms =>
        rcases parent with _ | ⟨y, ref⟩
        · exact getElem?_methods _ _ ms i
        · cases i with
          | zero => rfl
          | succ i => exact getElem?_methods _ _ ms i

end

/-! ### The scopes around a node -/

def WellFormed : Node Unit → Prop
  | program body => LoxScript.WellFormed.stmts body
  | expr e => LoxScript.WellFormed.expr e
  | stmt s => LoxScript.WellFormed.stmt s
  | method (.mk _ c) => LoxScript.WellFormed.code c

end Node

theorem wellFormed_of_mem_stmts {ss : List (Stmt Unit)} (h : WellFormed.stmts ss) :
    ∀ s ∈ ss, WellFormed.stmt s := by
  induction ss with
  | nil => exact fun s hs => absurd hs List.not_mem_nil
  | cons s rest ih => exact List.forall_mem_cons.2 ⟨h.1, ih h.2⟩

theorem isFree_of_mem_declared {ss : List (Stmt Unit)} (h : WellFormed.stmts ss) {x : String}
    (hx : x ∈ declared ss) : Keyword.ofText? x = none := by
  obtain ⟨s, hs, hsx⟩ := List.mem_filterMap.1 hx
  obtain ⟨y, hy, rfl⟩ := Option.map_eq_some_iff.1 hsx
  exact Place.WellFormed.stmt_declares (wellFormed_of_mem_stmts h s hs) hy

namespace Node

theorem WellFormed.body {n : Node Unit} (h : n.WellFormed) {params : List Name}
    {body : List (Stmt Unit)} (hb : n.body? = some (params, body)) :
    (∀ p ∈ params, p.IsFree) ∧ LoxScript.WellFormed.stmts body := by
  cases n with
  | program body => cases hb
  | method m =>
    obtain ⟨x, ps, ss⟩ := m
    cases hb
    exact h
  | expr e =>
    cases e with
    | function line c =>
      obtain ⟨ps, ss⟩ := c
      cases hb
      exact h
    | _ => cases hb
  | stmt s =>
    cases s with
    | block ss =>
      cases hb
      exact ⟨nofun, h⟩
    | function x c =>
      obtain ⟨ps, ss⟩ := c
      cases hb
      exact h.2
    | _ => cases hb

theorem ofOperands_eq (e : Expr Unit) : ofOperands e = (Place.operands e).map expr := by
  cases e <;> rfl

/-- A part that is not a statement of a body or of the program declares nothing. -/
theorem WellFormed.ofParts {s : Stmt Unit} (h : LoxScript.WellFormed.stmt s) {m : Node Unit}
    (hm : m ∈ ofParts s) : m.WellFormed ∧ m.declares? = none := by
  cases s with
  | classDef x parent ms =>
    obtain ⟨-, hparent, hmethods⟩ := h
    rcases List.mem_append.1 hm with hm | hm
    · obtain ⟨y, hy, rfl⟩ := List.mem_map.1 hm
      exact ⟨hparent y (Option.mem_toList.1 hy), rfl⟩
    · obtain ⟨⟨x, c⟩, hf, rfl⟩ := List.mem_map.1 hm
      exact ⟨Place.wellFormed_of_mem_methods hmethods _ hf, rfl⟩
  | branch condition yes no =>
    obtain ⟨hcondition, hyes, hno⟩ := h
    rcases List.mem_cons.1 hm with rfl | hm
    · exact ⟨hcondition, rfl⟩
    · rcases List.mem_cons.1 hm with rfl | hm
      · exact ⟨hyes.2, hyes.1⟩
      · obtain ⟨s, hs, rfl⟩ := List.mem_map.1 hm
        cases Option.mem_toList.1 hs
        exact ⟨hno.2, hno.1⟩
  | loop condition body =>
    obtain ⟨hcondition, hdeclares, hbody⟩ := h
    rcases List.mem_cons.1 hm with rfl | hm
    · exact ⟨hcondition, rfl⟩
    · cases List.mem_singleton.1 hm
      exact ⟨hbody, hdeclares⟩
  | var x initial =>
    obtain ⟨e, he, rfl⟩ := List.mem_map.1 hm
    cases Option.mem_toList.1 he
    exact ⟨h.2, rfl⟩
  | ret line value =>
    obtain ⟨e, he, rfl⟩ := List.mem_map.1 hm
    cases Option.mem_toList.1 he
    exact ⟨h, rfl⟩
  | expression e | print e =>
    cases List.mem_singleton.1 hm
    exact ⟨h, rfl⟩
  | block | function => cases hm

/-- A part is well formed, and declares something only if it is a statement of a body or of the
whole program. -/
theorem WellFormed.part {n : Node Unit} (h : n.WellFormed) {m : Node Unit} (hm : m ∈ n.parts) :
    m.WellFormed ∧ (n.body? = none → (∀ body, n ≠ program body) → m.declares? = none) := by
  unfold parts at hm
  cases hb : n.body? with
  | some b =>
    rw [hb] at hm
    obtain ⟨s, hs, rfl⟩ := List.mem_map.1 hm
    exact ⟨wellFormed_of_mem_stmts (h.body hb).2 s hs, nofun⟩
  | none =>
    rw [hb] at hm
    cases n with
    | program body =>
      obtain ⟨s, hs, rfl⟩ := List.mem_map.1 hm
      exact ⟨wellFormed_of_mem_stmts h s hs, fun _ hne => absurd rfl (hne body)⟩
    | expr e =>
      have hoperand : m ∈ ofOperands e := hm
      rw [ofOperands_eq] at hoperand
      obtain ⟨e', he', rfl⟩ := List.mem_map.1 hoperand
      exact ⟨Place.wellFormed_operands h e' he', fun _ _ => rfl⟩
    | stmt s => exact (WellFormed.ofParts h hm).imp_right fun hd _ _ => hd
    | method m => cases hm

/-- Each scope declares the names listed for it. -/
def Hold : LocalScopes → List (List String) → Prop :=
  List.Forall₂ fun s names => ∀ x, s.declares x = true ↔ x ∈ names

theorem Hold.distance? {Γ : LocalScopes} {S : List (List String)} (h : Hold Γ S) (x : String) :
    Γ.distance? x = S.findIdx? (·.contains x) := by
  induction h with
  | nil => rfl
  | @cons s names Γ S hs _ ih =>
    have hhead : s.declares x = names.contains x := by
      rw [Bool.eq_iff_iff, hs x, List.contains_iff_mem]
    rw [LocalScopes.distance?_cons, ih, List.findIdx?_cons, hhead]

theorem Hold.declare {Γ : LocalScopes} {S : List (List String)} {x : String} {ready : Bool}
    (h : Hold (Γ.declare x ready) S) (ready' : Bool) : Hold (Γ.declare x ready') S := by
  cases Γ with
  | nil => exact h
  | cons s outer =>
    cases h with
    | cons hs houter => exact .cons hs houter

theorem Hold.after {s : LocalScope} {Γ : LocalScopes} {names : List String}
    {S : List (List String)} (hs : ∀ x, s.declares x = true ↔ x ∈ names) (hΓ : Hold Γ S)
    (ss : List (Stmt Unit)) :
    Hold (ss.foldl LocalScopes.after (s :: Γ)) ((names ++ declared ss) :: S) := by
  induction ss generalizing s names with
  | nil =>
    rw [show declared ([] : List (Stmt Unit)) = [] from rfl, List.append_nil]
    exact .cons hs hΓ
  | cons x ss ih =>
    rw [List.foldl_cons, LocalScopes.after]
    unfold declared
    cases hx : x.declares? with
    | none =>
      rw [List.filterMap_cons_none (by rw [hx]; rfl)]
      exact ih hs
    | some y =>
      have hy : ∀ z,
          LocalScope.declares ((y.text, true) :: s) z = true ↔ z ∈ names ++ [y.text] := by
        intro z
        rw [LocalScope.declares, List.any_cons, Bool.or_eq_true, beq_iff_eq, List.mem_append,
          List.mem_singleton, ← hs z, or_comm, @eq_comm _ z]
        rfl
      rw [List.filterMap_cons_some (b := y.text) (by rw [hx]; rfl), List.append_cons]
      exact ih hy

theorem declares_parameterNames (params : List Name) (x : String) :
    (Frames.parameterNames params).declares x = true ↔ x ∈ params.map Name.text := by
  simp [Frames.parameterNames, LocalScope.declares]

theorem declares_singleton (x y : String) :
    LocalScope.declares [(x, true)] y = true ↔ y ∈ [x] := by
  rw [LocalScope.declares, List.any_cons, List.any_nil, Bool.or_false, beq_iff_eq,
    List.mem_singleton, eq_comm]

/-- A node, the scopes that resolution knows when it comes to it, and the names that these hold at
the position of the node. -/
structure Fits (a : Surroundings) (Γ : LocalScopes) (S : List (List String)) (n : Node Unit) :
    Prop where
  wellFormed : n.WellFormed
  hold : Hold (n.entered Γ) S
  outermost : ∀ body, n = program body → Γ = []
  this : a.classBody = .outside → ∀ names ∈ S, "this" ∉ names

theorem entered_eq {n : Node Unit} (h : n.declares? = none) (Γ : LocalScopes) :
    n.entered Γ = Γ := by
  rw [entered, h]

theorem foldl_after_take {body : List (Stmt Unit)} {i : Nat} {s : Stmt Unit} (h : body[i]? = some s)
    (Γ : LocalScopes) : (stmt s).entered ((body.take i).foldl LocalScopes.after Γ) =
      (body.take (i + 1)).foldl LocalScopes.after Γ := by
  rw [List.take_add_one, h, List.foldl_append]
  rfl

theorem foldl_after_nil (ss : List (Stmt Unit)) : ss.foldl LocalScopes.after [] = [] := by
  induction ss with
  | nil => rfl
  | cons s ss ih =>
    have hs : LocalScopes.after [] s = [] := by
      rw [LocalScopes.after]
      split <;> rfl
    rw [List.foldl_cons, hs, ih]

section
variable {a : Surroundings} {Γ : LocalScopes} {S : List (List String)} {n m : Node Unit} {i : Nat}

theorem Fits.hold_of_body (h : Fits a Γ S n) {params : List Name} {body : List (Stmt Unit)}
    (hb : n.body? = some (params, body)) (hm : n.parts[i]? = some m) :
    Hold (m.entered (n.within Γ i)) (n.scopesAt i ++ S) := by
  unfold parts at hm
  unfold within scopesAt
  rw [hb] at hm ⊢
  rw [List.getElem?_map, Option.map_eq_some_iff] at hm
  obtain ⟨s, hs, rfl⟩ := hm
  rw [foldl_after_take hs]
  exact h.hold.after (declares_parameterNames params) _

/-- The scopes that a node adds are those that resolution adds. -/
theorem Fits.hold_part (h : Fits a Γ S n) (hm : n.parts[i]? = some m) :
    Hold (m.entered (n.within Γ i)) (n.scopesAt i ++ S) := by
  have hpart := (h.wellFormed.part (List.mem_of_getElem? hm)).2
  have hhold := h.hold
  cases hb : n.body? with
  | some b => exact h.hold_of_body hb hm
  | none =>
    cases n with
    | program body =>
      -- Resolution keeps no scope for globals, whatever the program declares.
      rw [h.outermost body rfl] at hhold ⊢
      have hwithin : (program body).within [] i = [] := foldl_after_nil _
      have hentered : m.entered [] = [] := by
        unfold entered
        split <;> rfl
      rw [hwithin, hentered]
      exact hhold
    | method m => cases m; cases hb
    | expr e =>
      rw [entered_eq (hpart hb nofun)]
      cases e with
      | function => cases hb
      | _ => exact hhold
    | stmt s =>
      rw [entered_eq (hpart hb nofun)]
      cases s with
      | block | function => cases hb
      | var x initial => exact hhold.declare false
      | classDef x parent ms =>
        rcases parent with _ | ⟨y, ref⟩
        · exact .cons (declares_singleton _) hhold
        · cases i with
          | zero => exact hhold
          | succ i => exact .cons (declares_singleton _) (.cons (declares_singleton _) hhold)
      | _ => exact hhold

theorem around_of_body {b : List Name × List (Stmt Unit)} (hb : n.body? = some b) :
    (n.around a i).classBody = a.classBody := by
  cases n with
  | program body => cases hb
  | method m => cases m; rfl
  | expr e =>
    cases e with
    | function => rfl
    | _ => cases hb
  | stmt s =>
    cases s with
    | block | function => rfl
    | _ => cases hb

theorem this_of_body (h : n.WellFormed) {params : List Name} {body : List (Stmt Unit)}
    (hb : n.body? = some (params, body)) : ∀ names ∈ n.scopesAt i, "this" ∉ names := by
  have hfree : ∀ x, Keyword.ofText? x = none → x ≠ "this" := fun x hx =>
    Name.IsFree.ne (x := ⟨x, 0⟩) hx .this_
  obtain ⟨hparams, hbody⟩ := h.body hb
  unfold scopesAt
  rw [hb]
  refine List.forall_mem_singleton.2 fun hx => ?_
  rcases List.mem_append.1 hx with hx | hx
  · obtain ⟨p, hp, heq⟩ := List.mem_map.1 hx
    exact hfree p.text (hparams p hp) heq
  · have hdeclared : "this" ∈ declared body := by
      unfold declared at hx ⊢
      exact (List.Sublist.filterMap _ (List.take_sublist _ _)).subset hx
    exact hfree "this" (isFree_of_mem_declared hbody hdeclared) rfl

/-- Outside of every class no scope holds the name of a receiver. -/
theorem Fits.this_part (h : Fits a Γ S n) (ho : (n.around a i).classBody = .outside) :
    ∀ names ∈ n.scopesAt i ++ S, "this" ∉ names := by
  cases hb : n.body? with
  | some b =>
    intro names hnames
    rcases List.mem_append.1 hnames with hnames | hnames
    · exact this_of_body h.wellFormed hb names hnames
    · exact h.this (around_of_body hb ▸ ho) names hnames
  | none =>
    cases n with
    | program body => exact h.this ho
    | method m => cases m; cases hb
    | expr e =>
      cases e with
      | function => cases hb
      | _ => exact h.this ho
    | stmt s =>
      cases s with
      | block | function => cases hb
      | classDef x parent ms =>
        rcases parent with _ | ⟨y, ref⟩
        · cases ho
        · cases i with
          | zero => exact h.this ho
          | succ i => cases ho
      | _ => exact h.this ho

theorem program_notMem_parts (n : Node Unit) (body : List (Stmt Unit)) :
    program body ∉ n.parts := by
  unfold parts
  split
  · simp
  · split
    · simp
    · simp [ofOperands_eq]
    · rename_i s _
      cases s <;> simp [ofParts]
    · simp

theorem Fits.part (h : Fits a Γ S n) (hm : n.parts[i]? = some m) :
    Fits (n.around a i) (n.within Γ i) (n.scopesAt i ++ S) m where
  wellFormed := (h.wellFormed.part (List.mem_of_getElem? hm)).1
  hold := h.hold_part hm
  outermost := by
    rintro body rfl
    exact absurd (List.mem_of_getElem? hm) (program_notMem_parts n body)
  this := h.this_part

/-- The distance that is recorded for a use leads to the first scope that holds its name. -/
theorem Fits.use? (h : Fits a Γ S n) : (n.resolve a Γ).use? = n.use?.map fun u =>
    { kind := u.kind, name := u.name, line := u.line, ref := S.findIdx? (·.contains u.name) } := by
  cases n with
  | program body => rfl
  | method m => cases m; rfl
  | stmt s => rfl
  | expr e =>
    have hdistance : ∀ x, Γ.distance? x = S.findIdx? (·.contains x) := Hold.distance? h.hold
    cases e with
    | var x ref =>
      exact congrArg (fun d => some (Use.mk .variable x.text x.line d)) (hdistance x.text)
    | assign x ref value =>
      exact congrArg (fun d => some (Use.mk .assign x.text x.line d)) (hdistance x.text)
    | super line ref x =>
      exact congrArg (fun d => some (Use.mk .super "super" line d)) (hdistance "super")
    | this line ref =>
      refine congrArg (fun d => some (Use.mk .this "this" line d)) ?_
      show (if a.classBody == .outside then none else Γ.distance? "this") = _
      by_cases ho : a.classBody = .outside
      · -- Resolution does not look for a receiver here, but it would not find one either.
        rw [if_pos (beq_iff_eq.2 ho), eq_comm, List.findIdx?_eq_none_iff]
        intro names hnames
        rw [Bool.eq_false_iff, Ne, List.contains_iff_mem]
        exact h.this ho names hnames
      · rw [if_neg (fun hc => ho (beq_iff_eq.1 hc))]
        exact hdistance "this"
    | _ => rfl

/-- What is recorded at the positions in a node. -/
theorem Fits.use?_at (h : Fits a Γ S n) (path : List Nat) :
    ((n.resolve a Γ).at? path).map Node.use? = (n.at? path).map fun m => m.use?.map fun u =>
      { kind := u.kind, name := u.name, line := u.line,
        ref := (n.scopesAround path ++ S).findIdx? (·.contains u.name) } := by
  induction path generalizing a Γ S n with
  | nil => exact congrArg some h.use?
  | cons i path ih =>
    rw [at?, at?, getElem?_parts_resolve, scopesAround]
    cases hm : n.parts[i]? with
    | none => rfl
    | some m =>
      rw [Option.map_some, Option.bind_some, Option.bind_some, ih (h.part hm)]
      simp only [Option.elim_some, List.append_assoc]

theorem WellFormed.at? (h : n.WellFormed) {path : List Nat} (hm : n.at? path = some m) :
    m.WellFormed := by
  induction path generalizing n with
  | nil =>
    cases hm
    exact h
  | cons i path ih =>
    rw [Node.at?, Option.bind_eq_some_iff] at hm
    obtain ⟨n', hn', hm⟩ := hm
    exact ih (h.part (List.mem_of_getElem? hn')).1 hm

end

/-- `{ var a; fun f(x) { print a; var a = x; } }`: at the `a` that is printed, the scope of `f` does
not hold `a` yet. -/
example : ((program [.block [.var ⟨"a", 1⟩ none, .function ⟨"f", 1⟩ (.mk [⟨"x", 1⟩]
    [.print (.var ⟨"a", 1⟩ ()), .var ⟨"a", 1⟩ (some (.var ⟨"x", 1⟩ ()))])]]).scopesAround
      [0, 1, 0, 0]) = [["x"], ["a", "f"]] := rfl

end Node
end Static

open Static in
/-- What the walk records is the static distance: at every position of a program that has been
read, a use of a name refers to the first of the scopes around it that holds the name there, and to
none if none does.  An expression at a position leaves the walk as it is, but for complaints; a
statement leaves the number of scopes as it is, all of them but the innermost, and the code and
class that the walk is in. -/
theorem Walk.records_distances (source : String) (j : Journal) :
    (∀ path, ((Node.program (Walk.program j (Reading.ofText source).statements).1).at? path).map
        Node.use? =
      ((Node.program (Reading.ofText source).statements).at? path).map fun n =>
        n.use?.map fun u =>
          { kind := u.kind, name := u.name, line := u.line,
            ref := ((Node.program (Reading.ofText source).statements).scopesAround path).findIdx?
              (·.contains u.name) }) ∧
    (∀ path e, (Node.program (Reading.ofText source).statements).at? path = some (.expr e) →
      ∀ w, (Walk.expr e w).2.scopes = w.scopes ∧ (Walk.expr e w).2.around = w.around) ∧
    ∀ path s, (Node.program (Reading.ofText source).statements).at? path = some (.stmt s) →
      ∀ w, (Walk.stmt s w).2.scopes.length = w.scopes.length ∧
        (Walk.stmt s w).2.scopes.tail = w.scopes.tail ∧ (Walk.stmt s w).2.around = w.around := by
  have hwell := Reading.wellFormed source
  refine ⟨fun path => ?_, fun path e he w => ?_, fun path s hs w => ?_⟩
  · rw [Walk.program_apply j hwell]
    have hfits : Node.Fits ⟨.outermost, .outside⟩ [] []
        (.program (Reading.ofText source).statements) :=
      ⟨hwell, .nil, fun _ _ => rfl, fun _ => nofun⟩
    have hpath := hfits.use?_at path
    rw [List.append_nil] at hpath
    exact hpath
  · have he : WellFormed.expr e := Node.WellFormed.at? (n := .program _) hwell he
    rw [Walk.expr_apply e he w.scopes w.around w.journal]
    exact ⟨rfl, rfl⟩
  · have hs : WellFormed.stmt s := Node.WellFormed.at? (n := .program _) hwell hs
    rw [Walk.stmt_apply s hs w.scopes w.around w.journal]
    cases hscopes : w.scopes with
    | nil =>
      rw [LocalScopes.after]
      split <;> exact ⟨rfl, rfl, rfl⟩
    | cons scope outer =>
      obtain ⟨scope', hscope'⟩ := Walk.after_cons outer scope s
      rw [hscope']
      exact ⟨rfl, rfl, rfl⟩

end LoxScript
