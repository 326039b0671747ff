import LoxScript.Proofs.Binding.Distances
import LoxScript.Proofs.Outline.Literals
import LoxScript.Proofs.Token.Piece

/-!
The lines of an outline, as what they say.

A line begins with a word that tells what sort of node it is for, and goes on with what belongs to
that sort: names, an operator, or a literal.  All of it can be read back from the text, because
names are words.
-/

namespace LoxScript
namespace Outline
open Segment Static

/-- What may stand behind the first word of a line. -/
inductive Shape where
  | bare | name | property | literal | unary | binary | logical | set | function | params | classes

namespace Shape

abbrev Argument : Shape → Type
  | bare => Unit
  | name | property => String
  | literal => Literal
  | unary => UnaryOp
  | binary => BinaryOp
  | logical => LogicalOp
  | set => String × Option ArithOp
  | function => String × List String
  | params => List String
  | classes => String × Option String

def text : (s : Shape) → s.Argument → String
  | bare, _ => ""
  | name, (x : String) => " " ++ x
  | property, (x : String) => " ." ++ x
  | literal, (l : Literal) => "(" ++ l.outline ++ ")"
  | unary, (op : UnaryOp) => " " ++ op.symbol.text
  | binary, (op : BinaryOp) => " " ++ op.symbol.text
  | logical, (op : LogicalOp) => " " ++ op.keyword.text
  | set, (x, none) => " ." ++ x
  | set, (x, some op) => " ." ++ x ++ " " ++ op.symbol.text ++ "="
  | function, (x, xs) => " " ++ x ++ "(" ++ ", ".intercalate xs ++ ")"
  | params, (xs : List String) => "(" ++ ", ".intercalate xs ++ ")"
  | classes, (x, none) => " " ++ x
  | classes, (x, some y) => " " ++ x ++ " < " ++ y

def names : (s : Shape) → s.Argument → List String
  | name, x | property, x => [x]
  | set, (x, _) => [x]
  | function, (x, xs) => x :: xs
  | params, xs => xs
  | classes, (x, parent) => x :: parent.toList
  | _, _ => []

def numbers : (s : Shape) → s.Argument → List Float
  | literal, .number x => [x]
  | _, _ => []

end Shape

/-- What a line is for. -/
inductive Kind where
  | program | exprStmt | print | var | block | branch | otherwise | loop | function | ret | classDef
  | literal | grouping | unary | binary | logical | reference | assign | call | get | set | this
  | super | functionExpr
deriving DecidableEq

namespace Kind

def word : Kind → String
  | program => "Program"
  | exprStmt => "ExprStmt"
  | print => "Print"
  | var => "Var"
  | block => "Block"
  | branch => "If"
  | otherwise => "Else"
  | loop => "While"
  | function => "Function"
  | ret => "Return"
  | classDef => "Class"
  | literal => "Literal"
  | grouping => "Grouping"
  | unary => "Unary"
  | binary => "Binary"
  | logical => "Logical"
  | reference => "Variable"
  | assign => "Assign"
  | call => "Call"
  | get => "Get"
  | set => "Set"
  | this => "This"
  | super => "Super"
  | functionExpr => "FunctionExpr"

def shape : Kind → Shape
  | program | exprStmt | print | block | branch | otherwise | loop | ret | grouping | call
  | this => .bare
  | var | reference | assign => .name
  | get | super => .property
  | literal => .literal
  | unary => .unary
  | binary => .binary
  | logical => .logical
  | set => .set
  | function => .function
  | functionExpr => .params
  | classDef => .classes

def all : List Kind :=
  [program, exprStmt, print, var, block, branch, otherwise, loop, function, ret, classDef,
    literal, grouping, unary, binary, logical, reference, assign, call, get, set, this, super,
    functionExpr]

theorem mem_all (k : Kind) : k ∈ all := by
  cases k <;> decide

theorem word_injective {k k' : Kind} (h : k.word = k'.word) : k = k' := by
  have hall : ∀ k ∈ all, ∀ k' ∈ all, k.word = k'.word → k = k' := by decide
  exact hall k k.mem_all k' k'.mem_all h

theorem isWord_word (k : Kind) : IsWord k.word.toList := by
  have hall : k.word.toList.all isWordChar = true := by cases k <;> decide
  cases k <;> exact ⟨rfl, fun c hc => List.all_eq_true.1 hall c (.tail _ hc)⟩

end Kind

/-- A line of an outline, without its depth. -/
structure Heading where
  kind : Kind
  argument : kind.shape.Argument

namespace Heading

def text (h : Heading) : String := h.kind.word ++ h.kind.shape.text h.argument

def names (h : Heading) : List String := h.kind.shape.names h.argument

def numbers (h : Heading) : List Float := h.kind.shape.numbers h.argument

variable {ρ : Type}

def ofExpr : Expr ρ → Heading
  | .literal value => ⟨.literal, value⟩
  | .grouping _ => ⟨.grouping, ()⟩
  | .unary op _ _ => ⟨.unary, op⟩
  | .binary _ op _ _ => ⟨.binary, op⟩
  | .logical _ op _ _ => ⟨.logical, op⟩
  | .var x _ => ⟨.reference, x.text⟩
  | .assign x _ _ => ⟨.assign, x.text⟩
  | .call _ _ _ => ⟨.call, ()⟩
  | .get _ x => ⟨.get, x.text⟩
  | .set _ x _ => ⟨.set, (x.text, none)⟩
  | .update _ x op _ _ => ⟨.set, (x.text, some op)⟩
  | .this _ _ => ⟨.this, ()⟩
  | .super _ _ x => ⟨.super, x.text⟩
  | .function _ c => ⟨.functionExpr, c.params.map Name.text⟩

def ofStmt : Stmt ρ → Heading
  | .expression _ => ⟨.exprStmt, ()⟩
  | .print _ => ⟨.print, ()⟩
  | .var x _ => ⟨.var, x.text⟩
  | .block _ => ⟨.block, ()⟩
  | .branch _ _ _ => ⟨.branch, ()⟩
  | .loop _ _ => ⟨.loop, ()⟩
  | .function x c => ⟨.function, (x.text, c.params.map Name.text)⟩
  | .ret _ _ => ⟨.ret, ()⟩
  | .classDef x parent _ => ⟨.classDef, (x.text, parent.map (·.1.text))⟩

/-- The line of a node. -/
def ofNode : Node ρ → Heading
  | .program _ => ⟨.program, ()⟩
  | .expr e => ofExpr e
  | .stmt s => ofStmt s
  | .method (.mk x c) => ⟨.function, (x.text, c.params.map Name.text)⟩

end Heading

/-! ### Reading a line back -/

section
variable {x y : String} {r r' : List Char}

/-- The characters of names. -/
def IsName (x : String) : Prop := IsWord x.toList

theorem IsName.isWordChar (h : IsName x) : ∀ c ∈ x.toList, isWordChar c = true := by
  unfold IsName at h
  intro c hc
  cases hx : x.toList with
  | nil => rw [hx] at hc; cases hc
  | cons d rest =>
    rw [hx] at h hc
    rcases List.mem_cons.1 hc with rfl | hc
    · exact isWordChar_of_isLetter h.1
    · exact h.2 c hc

theorem IsName.ne_nil (h : IsName x) : x.toList ≠ [] := by
  intro hx
  rw [IsName, hx] at h
  exact h

/-- The text goes on with something that belongs to no name. -/
def Ends (r : List Char) : Prop := ∀ c, r.head? = some c → isWordChar c = false

theorem ends_nil : Ends [] := nofun

theorem ends_cons {c : Char} (h : isWordChar c = false) : Ends (c :: r) := by
  rintro _ ⟨⟩
  exact h

/-- A name does not begin with something that belongs to no name. -/
theorem IsName.append_ne (h : IsName x) {c : Char} (hc : Segment.isWordChar c = false) :
    x.toList ++ r ≠ c :: r' := by
  obtain ⟨d, ds, hx⟩ := List.exists_cons_of_ne_nil h.ne_nil
  have hd := h.isWordChar d (hx ▸ List.mem_cons_self)
  rw [hx]
  rintro ⟨⟩
  exact absurd hd (Bool.eq_false_iff.1 hc)

/-- A name ends where its characters end. -/
theorem name_split (hx : IsName x) (hy : IsName y) (hr : Ends r) (hr' : Ends r')
    (h : x.toList ++ r = y.toList ++ r') : x = y ∧ r = r' := by
  obtain ⟨hname, hrest⟩ := append_inj_of_span hx.isWordChar hr hy.isWordChar hr' h
  exact ⟨String.toList_inj.1 hname, hrest⟩

end

theorem toList_intercalate_cons (x : String) (xs : List String) :
    (", ".intercalate (x :: xs)).toList =
      x.toList ++ xs.flatMap (fun y => ',' :: ' ' :: y.toList) := by
  induction xs generalizing x with
  | nil => simp
  | cons y ys ih =>
    rw [List.flatMap_cons, String.toList_intercalate, List.map_cons, List.map_cons,
      List.intercalate_cons_cons, ← List.map_cons, ← String.toList_intercalate, ih]
    simp

theorem ends_more (zs : List String) (r : List Char) :
    Ends (zs.flatMap (fun z => ',' :: ' ' :: z.toList) ++ ')' :: r) := by
  cases zs <;> exact ends_cons (by decide)

/-- A list of names ends with the parenthesis. -/
theorem more_names_split {xs ys : List String} {r r' : List Char} (hx : ∀ x ∈ xs, IsName x)
    (hy : ∀ y ∈ ys, IsName y)
    (h : xs.flatMap (fun x => ',' :: ' ' :: x.toList) ++ ')' :: r =
      ys.flatMap (fun y => ',' :: ' ' :: y.toList) ++ ')' :: r') : xs = ys := by
  induction xs generalizing ys with
  | nil =>
    cases ys with
    | nil => rfl
    | cons y ys => exact absurd (List.cons.inj h).1 (by decide)
  | cons x xs ih =>
    cases ys with
    | nil => exact absurd (List.cons.inj h).1 (by decide)
    | cons y ys =>
      obtain ⟨hxhead, hxs⟩ := List.forall_mem_cons.1 hx
      obtain ⟨hyhead, hys⟩ := List.forall_mem_cons.1 hy
      simp only [List.flatMap_cons, List.cons_append, List.append_assoc, List.cons.injEq,
        true_and] at h
      obtain ⟨rfl, hmore⟩ := name_split hxhead hyhead (ends_more xs r) (ends_more ys r') h
      rw [ih hxs hys hmore]

theorem names_split {xs ys : List String} {r r' : List Char} (hx : ∀ x ∈ xs, IsName x)
    (hy : ∀ y ∈ ys, IsName y)
    (h : (", ".intercalate xs).toList ++ ')' :: r = (", ".intercalate ys).toList ++ ')' :: r') :
    xs = ys := by
  cases xs with
  | nil =>
    cases ys with
    | nil => rfl
    | cons y ys =>
      rw [toList_intercalate_cons, List.append_assoc] at h
      exact absurd h.symm ((hy y List.mem_cons_self).append_ne (by decide))
  | cons x xs =>
    cases ys with
    | nil =>
      rw [toList_intercalate_cons, List.append_assoc] at h
      exact absurd h ((hx x List.mem_cons_self).append_ne (by decide))
    | cons y ys =>
      obtain ⟨hxhead, hxs⟩ := List.forall_mem_cons.1 hx
      obtain ⟨hyhead, hys⟩ := List.forall_mem_cons.1 hy
      rw [toList_intercalate_cons, toList_intercalate_cons, List.append_assoc,
        List.append_assoc] at h
      obtain ⟨rfl, hmore⟩ := name_split hxhead hyhead (ends_more xs r) (ends_more ys r') h
      rw [more_names_split hxs hys hmore]

theorem unary_text_injective {a b : UnaryOp} (h : a.symbol.text = b.symbol.text) : a = b := by
  cases a <;> cases b <;> first | rfl | exact absurd h (by decide)

theorem logical_text_injective {a b : LogicalOp} (h : a.keyword.text = b.keyword.text) :
    a = b := by
  cases a <;> cases b <;> first | rfl | exact absurd h (by decide)

theorem arith_text_injective {a b : ArithOp} (h : a.symbol.text = b.symbol.text) : a = b := by
  cases a <;> cases b <;> first | rfl | exact absurd h (by decide)

theorem binary_text_injective {a b : BinaryOp} (h : a.symbol.text = b.symbol.text) : a = b := by
  rcases a with (_ | _ | _ | _) | (_ | _ | _ | _) | _ | _ <;>
    rcases b with (_ | _ | _ | _) | (_ | _ | _ | _) | _ | _ <;>
    first | rfl | exact absurd h (by decide)

namespace Shape

theorem set_text_injective {x y : String} {a b : Option ArithOp} (hx : IsName x) (hy : IsName y)
    (h : (text set (x, a)).toList = (text set (y, b)).toList) : (x, a) = (y, b) := by
  have htext (x : String) (a : Option ArithOp) : (text set (x, a)).toList =
      ' ' :: '.' :: (x.toList ++ a.elim [] fun op => ' ' :: (op.symbol.text.toList ++ ['='])) := by
    cases a <;> simp [text]
  have hends (a : Option ArithOp) :
      Ends (a.elim [] fun op => ' ' :: (op.symbol.text.toList ++ ['='])) := by
    cases a
    · exact ends_nil
    · exact ends_cons (by decide)
  rw [htext, htext] at h
  obtain ⟨rfl, hmore⟩ := name_split hx hy (hends a) (hends b) (List.cons.inj (List.cons.inj h).2).2
  cases a with
  | none =>
    cases b with
    | none => rfl
    | some b => cases hmore
  | some a =>
    cases b with
    | none => cases hmore
    | some b =>
      have hop := List.append_cancel_right (List.cons.inj hmore).2
      rw [arith_text_injective (String.toList_inj.1 hop)]

theorem classes_text_injective {x y : String} {a b : Option String} (hx : IsName x)
    (hy : IsName y) (h : (text classes (x, a)).toList = (text classes (y, b)).toList) :
    (x, a) = (y, b) := by
  have htext (x : String) (a : Option String) : (text classes (x, a)).toList =
      ' ' :: (x.toList ++ a.elim [] fun y => ' ' :: '<' :: ' ' :: y.toList) := by
    cases a <;> simp [text]
  have hends (a : Option String) : Ends (a.elim [] fun y => ' ' :: '<' :: ' ' :: y.toList) := by
    cases a
    · exact ends_nil
    · exact ends_cons (by decide)
  rw [htext, htext] at h
  obtain ⟨rfl, hmore⟩ := name_split hx hy (hends a) (hends b) (List.cons.inj h).2
  cases a with
  | none =>
    cases b with
    | none => rfl
    | some b => cases hmore
  | some a =>
    cases b with
    | none => cases hmore
    | some b =>
      have hname := (List.cons.inj (List.cons.inj (List.cons.inj hmore).2).2).2
      rw [String.toList_inj.1 hname]

/-- What stands behind the first word can be read back. -/
theorem text_injective {s : Shape} {a b : s.Argument} (ha : ∀ x ∈ s.names a, IsName x)
    (hb : ∀ x ∈ s.names b, IsName x) (hnumbers : ∀ x ∈ s.numbers a, ∀ y ∈ s.numbers b,
      Number.display x = Number.display y → x = y) (h : s.text a = s.text b) : a = b := by
  have h := congrArg String.toList h
  cases s with
  | bare => rfl
  | name | property =>
    simp only [text, String.toList_append] at h
    exact String.toList_inj.1 (List.append_cancel_left h)
  | literal =>
    simp only [text, String.toList_append] at h
    have h := List.append_cancel_left (List.append_cancel_right h)
    refine Literal.outline_injective (fun x y hx hy => hnumbers x ?_ y ?_) (String.toList_inj.1 h)
    · rw [hx]
      exact List.mem_singleton_self x
    · rw [hy]
      exact List.mem_singleton_self y
  | unary =>
    simp only [text, String.toList_append] at h
    exact unary_text_injective (String.toList_inj.1 (List.append_cancel_left h))
  | binary =>
    simp only [text, String.toList_append] at h
    exact binary_text_injective (String.toList_inj.1 (List.append_cancel_left h))
  | logical =>
    simp only [text, String.toList_append] at h
    exact logical_text_injective (String.toList_inj.1 (List.append_cancel_left h))
  | set =>
    obtain ⟨x, a⟩ := a
    obtain ⟨y, b⟩ := b
    exact set_text_injective (ha x (List.mem_singleton_self x)) (hb y (List.mem_singleton_self y)) h
  | function =>
    obtain ⟨x, xs⟩ := a
    obtain ⟨y, ys⟩ := b
    obtain ⟨hx, hxs⟩ := List.forall_mem_cons.1 ha
    obtain ⟨hy, hys⟩ := List.forall_mem_cons.1 hb
    simp only [text, String.toList_append, List.append_assoc] at h
    have h : x.toList ++ '(' :: ((", ".intercalate xs).toList ++ [')']) =
        y.toList ++ '(' :: ((", ".intercalate ys).toList ++ [')']) := List.append_cancel_left h
    obtain ⟨rfl, hmore⟩ := name_split hx hy (ends_cons (by decide)) (ends_cons (by decide)) h
    rw [names_split hxs hys (List.cons.inj hmore).2]
  | params =>
    simp only [text, String.toList_append, List.append_assoc] at h
    exact names_split ha hb (List.append_cancel_left h)
  | classes =>
    obtain ⟨x, a⟩ := a
    obtain ⟨y, b⟩ := b
    exact classes_text_injective (ha x List.mem_cons_self) (hb y List.mem_cons_self) h

/-- What stands behind the first word does not go on with the word. -/
theorem ends_text (s : Shape) (a : s.Argument) : Ends (s.text a).toList := by
  cases s with
  | bare => exact ends_nil
  | set =>
    obtain ⟨x, _ | op⟩ := a <;> simp only [text, String.toList_append] <;>
      exact ends_cons (by decide)
  | classes =>
    obtain ⟨x, _ | y⟩ := a <;> simp only [text, String.toList_append] <;>
      exact ends_cons (by decide)
  | _ =>
    simp only [text, String.toList_append]
    exact ends_cons (by decide)

end Shape

theorem newline_notMem_name {x : String} (h : IsName x) : '\n' ∉ x.toList := fun hc =>
  absurd (h.isWordChar _ hc) (by decide)

theorem newline_notMem_names {xs : List String} (h : ∀ x ∈ xs, IsName x) :
    '\n' ∉ (", ".intercalate xs).toList := by
  cases xs with
  | nil => decide
  | cons x xs =>
    obtain ⟨hx, hxs⟩ := List.forall_mem_cons.1 h
    rw [toList_intercalate_cons, List.mem_append, not_or]
    refine ⟨newline_notMem_name hx, fun hc => ?_⟩
    obtain ⟨y, hy, hc⟩ := List.mem_flatMap.1 hc
    have := newline_notMem_name (hxs y hy)
    simp_all

theorem newline_notMem_append {a b : String} (ha : '\n' ∉ a.toList) (hb : '\n' ∉ b.toList) :
    '\n' ∉ (a ++ b).toList := by
  rw [String.toList_append, List.mem_append, not_or]
  exact ⟨ha, hb⟩

theorem newline_notMem_params {xs : List String} (h : ∀ x ∈ xs, IsName x) :
    '\n' ∉ ("(" ++ ", ".intercalate xs ++ ")").toList :=
  newline_notMem_append (newline_notMem_append (by decide) (newline_notMem_names h)) (by decide)

/-- What stands behind the first word is on one line. -/
theorem Shape.newline_notMem_text {s : Shape} {a : s.Argument} (h : ∀ x ∈ s.names a, IsName x) :
    '\n' ∉ (s.text a).toList := by
  cases s with
  | bare => exact List.not_mem_nil
  | name | property =>
    exact newline_notMem_append (by decide) (newline_notMem_name (h a (List.mem_singleton_self a)))
  | literal =>
    exact newline_notMem_append (newline_notMem_append (by decide)
      (Literal.newline_notMem_outline a)) (by decide)
  | unary => cases a <;> decide
  | binary => rcases a with (_ | _ | _ | _) | (_ | _ | _ | _) | _ | _ <;> decide
  | logical => cases a <;> decide
  | set =>
    obtain ⟨x, a⟩ := a
    have hx := newline_notMem_name (h x (List.mem_singleton_self x))
    have htarget := newline_notMem_append (a := " .") (by decide) hx
    cases a with
    | none => exact htarget
    | some op =>
      have hop : '\n' ∉ op.symbol.text.toList := by cases op <;> decide
      exact newline_notMem_append (newline_notMem_append
        (newline_notMem_append htarget (by decide)) hop) (by decide)
  | function =>
    obtain ⟨x, xs⟩ := a
    obtain ⟨hx, hxs⟩ := List.forall_mem_cons.1 h
    have hhead := newline_notMem_append (a := " ") (by decide) (newline_notMem_name hx)
    have hparams := newline_notMem_append hhead (newline_notMem_params hxs)
    simpa only [text, String.append_assoc] using hparams
  | params => exact newline_notMem_params h
  | classes =>
    obtain ⟨x, a⟩ := a
    obtain ⟨hx, ha⟩ := List.forall_mem_cons.1 h
    have hhead := newline_notMem_append (a := " ") (by decide) (newline_notMem_name hx)
    cases a with
    | none => exact hhead
    | some y =>
      have hy := newline_notMem_name (ha y (List.mem_singleton_self y))
      exact newline_notMem_append (newline_notMem_append hhead (by decide)) hy

namespace Heading

/-- The names of a line are words. -/
def IsPlain (h : Heading) : Prop := ∀ x ∈ h.names, IsName x

/-- A line can be read back from its text, if its numbers can. -/
theorem text_injective {h h' : Heading} (hplain : h.IsPlain) (hplain' : h'.IsPlain)
    (hnumbers : ∀ x ∈ h.numbers, ∀ y ∈ h'.numbers, Number.display x = Number.display y → x = y)
    (htext : h.text = h'.text) : h = h' := by
  obtain ⟨k, a⟩ := h
  obtain ⟨k', a'⟩ := h'
  have htext := congrArg String.toList htext
  simp only [text, String.toList_append] at htext
  obtain ⟨hword, hmore⟩ := name_split k.isWord_word k'.isWord_word (k.shape.ends_text a)
    (k'.shape.ends_text a') htext
  obtain rfl := Kind.word_injective hword
  exact congrArg (Heading.mk k)
    (Shape.text_injective hplain hplain' hnumbers (String.toList_inj.1 hmore))

/-- A line does not begin with a blank. -/
theorem head?_text (h : Heading) : h.text.toList.head? ≠ some ' ' := by
  have hname : IsName h.kind.word := h.kind.isWord_word
  rw [text, String.toList_append]
  intro hblank
  obtain ⟨rest, hrest⟩ := List.head?_eq_some_iff.1 hblank
  exact hname.append_ne (by decide) hrest

/-- A line is one line. -/
theorem newline_notMem_text {h : Heading} (hplain : h.IsPlain) : '\n' ∉ h.text.toList :=
  newline_notMem_append (newline_notMem_name h.kind.isWord_word)
    (Shape.newline_notMem_text hplain)

end Heading

end Outline
end LoxScript
